import ClassForge.Name
import ClassForge.Slots

namespace ClassForge

-- Zeros are the literals, also where a ring would give others.
attribute [local instance (2000)] Zero.ofOfNat0

inductive BaseType where
  | byte | char | double | float | int | long | short | boolean
  deriving DecidableEq, Hashable, Repr

namespace BaseType

def width : BaseType → Nat
  | .double | .long => 2
  | _ => 1

instance : Width BaseType := ⟨width⟩

def arrayCode : BaseType → UInt8
  | .boolean => 4
  | .char => 5
  | .float => 6
  | .double => 7
  | .byte => 8
  | .short => 9
  | .int => 10
  | .long => 11

def boxClass : BaseType → BinaryName
  | .boolean => .boolean
  | .byte => .byte
  | .char => .character
  | .short => .short
  | .int => .integer
  | .long => .long
  | .float => .float
  | .double => .double

def letter : BaseType → Char
  | .byte => 'B'
  | .char => 'C'
  | .double => 'D'
  | .float => 'F'
  | .int => 'I'
  | .long => 'J'
  | .short => 'S'
  | .boolean => 'Z'

def ofLetter? : Char → Option BaseType
  | 'B' => some .byte
  | 'C' => some .char
  | 'D' => some .double
  | 'F' => some .float
  | 'I' => some .int
  | 'J' => some .long
  | 'S' => some .short
  | 'Z' => some .boolean
  | _ => none

def describe : BaseType → String
  | .byte => "Byte"
  | .char => "Char"
  | .double => "Double"
  | .float => "Float"
  | .int => "Int"
  | .long => "Long"
  | .short => "Short"
  | .boolean => "Boolean"

end BaseType

/-- Reference types. An array type has `extra + 1` dimensions. -/
inductive RefType where
  | object (name : BinaryName)
  | objectArray (extra : Nat) (element : BinaryName)
  | primitiveArray (extra : Nat) (element : BaseType)
  deriving DecidableEq, Hashable, Repr

/-- Types of fields, parameters and variables. -/
inductive FieldType where
  | base (type : BaseType)
  | ref (type : RefType)
  deriving DecidableEq, Hashable, Repr

/-- Parameters and result of a method; no result is `void`. -/
structure MethodDescriptor where
  parameters : List FieldType
  result : Option FieldType
  deriving DecidableEq, Hashable, Repr

def BinaryName.descriptor (name : BinaryName) : List Char := 'L' :: name.text.toList ++ [';']

namespace RefType

def chars : RefType → List Char
  | .object name => name.descriptor
  | .objectArray extra element => List.replicate (extra + 1) '[' ++ element.descriptor
  | .primitiveArray extra element => List.replicate (extra + 1) '[' ++ [element.letter]

def render (type : RefType) : String := String.ofList type.chars

def dimensions : RefType → Nat
  | .object _ => 0
  | .objectArray extra _ => extra + 1
  | .primitiveArray extra _ => extra + 1

def elementType : RefType → Option FieldType
  | .object _ => none
  | .objectArray 0 element => some (.ref (.object element))
  | .objectArray (extra + 1) element => some (.ref (.objectArray extra element))
  | .primitiveArray 0 element => some (.base element)
  | .primitiveArray (extra + 1) element => some (.ref (.primitiveArray extra element))

def arrayOf : FieldType → RefType
  | .base type => .primitiveArray 0 type
  | .ref (.object name) => .objectArray 0 name
  | .ref (.objectArray extra element) => .objectArray (extra + 1) element
  | .ref (.primitiveArray extra element) => .primitiveArray (extra + 1) element

def describe : RefType → String
  | .object name => s!"Object({name.text})"
  | .objectArray extra element =>
    s!"ObjectArray(ArrayType \x7b additional_dimensions: {extra}, element_type: {element.text} \x7d)"
  | .primitiveArray extra element =>
    s!"PrimitiveArray(ArrayType \x7b additional_dimensions: {extra}, element_type: {element.describe} \x7d)"

end RefType

namespace FieldType

def object (name : BinaryName) : FieldType := .ref (.object name)

def chars : FieldType → List Char
  | .base type => [type.letter]
  | .ref type => type.chars

def render (type : FieldType) : String := String.ofList type.chars

def width : FieldType → Nat
  | .base type => type.width
  | .ref _ => 1

instance : Width FieldType := ⟨width⟩

def isString (type : FieldType) : Bool := type == object .string

def describe : FieldType → String
  | .base type => s!"Base({type.describe})"
  | .ref type => s!"Ref({type.describe})"

def describeOption : Option FieldType → String
  | none => "None"
  | some type => s!"Some({type.describe})"

end FieldType

namespace MethodDescriptor

def chars (descriptor : MethodDescriptor) : List Char :=
  '(' :: descriptor.parameters.flatMap FieldType.chars ++
    ')' :: (match descriptor.result with
      | none => ['V']
      | some type => type.chars)

def render (descriptor : MethodDescriptor) : String := String.ofList descriptor.chars

def parameterSlots (descriptor : MethodDescriptor) : Nat :=
  (descriptor.parameters.map FieldType.width).sum

def describe (descriptor : MethodDescriptor) : String :=
  let parameters := ", ".intercalate (descriptor.parameters.map FieldType.describe)
  let result := FieldType.describeOption descriptor.result
  s!"MethodDescriptor \x7b parameters: [{parameters}], return_type: {result} \x7d"

end MethodDescriptor

end ClassForge
