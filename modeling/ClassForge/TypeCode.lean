import ClassForge.Descriptor

namespace ClassForge

/-- Kinds of values in variables and array elements, and of method results. `boolean` counts as
`byte`, whose array instructions it shares. -/
inductive TypeCode where
  | int | long | float | double | object | byte | char | short | void
  deriving DecidableEq, Repr

inductive NumKind where
  | int | long | float | double
  deriving DecidableEq, Repr

inductive Kind where
  | num (kind : NumKind)
  | ref
  deriving DecidableEq, Repr

/-- Kinds of array elements with instructions of their own. -/
inductive ElementKind where
  | num (kind : NumKind)
  | ref | byte | char | short
  deriving DecidableEq, Repr

namespace NumKind

def index : NumKind → Nat
  | .int => 0
  | .long => 1
  | .float => 2
  | .double => 3

end NumKind

namespace Kind

def index : Kind → Nat
  | .num kind => kind.index
  | .ref => 4

end Kind

namespace ElementKind

def index : ElementKind → Nat
  | .num kind => kind.index
  | .ref => 4
  | .byte => 5
  | .char => 6
  | .short => 7

end ElementKind

namespace TypeCode

def ofBase : BaseType → TypeCode
  | .int => .int
  | .long => .long
  | .float => .float
  | .double => .double
  | .byte | .boolean => .byte
  | .char => .char
  | .short => .short

def ofType : FieldType → TypeCode
  | .base type => ofBase type
  | .ref _ => .object

def ofResult : Option FieldType → TypeCode
  | none => .void
  | some type => ofType type

def truncate : TypeCode → TypeCode
  | .byte | .char | .short => .int
  | other => other

def width : TypeCode → Nat
  | .long | .double => 2
  | .void => 0
  | _ => 1

instance : Width TypeCode := ⟨width⟩

def kind : TypeCode → Kind
  | .long => .num .long
  | .float => .num .float
  | .double => .num .double
  | .object => .ref
  | _ => .num .int

def elementKind : TypeCode → ElementKind
  | .int | .void => .num .int
  | .long => .num .long
  | .float => .num .float
  | .double => .num .double
  | .object => .ref
  | .byte => .byte
  | .char => .char
  | .short => .short

def numKind? : TypeCode → Option NumKind
  | .int | .byte | .char | .short => some .int
  | .long => some .long
  | .float => some .float
  | .double => some .double
  | .object | .void => none

def describe : TypeCode → String
  | .int => "Int"
  | .long => "Long"
  | .float => "Float"
  | .double => "Double"
  | .object => "Object"
  | .byte => "Byte"
  | .char => "Char"
  | .short => "Short"
  | .void => "Void"

end TypeCode

end ClassForge
