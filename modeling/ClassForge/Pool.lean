import ClassForge.ClassFile.Describe
import ClassForge.Member
import Std.Data.HashMap
import Std.Data.HashSet

namespace ClassForge

def maxTextLength : Nat := 0xFFFF

def maxPoolOffset : Nat := 0xFFFF

inductive PoolError where
  | overflow (constant : Constant) (offset : Nat)
  | textTooLong (length : Nat)
  deriving DecidableEq, Repr

def PoolError.message : PoolError → String
  | .overflow constant offset =>
    s!"too many constants: adding {constant.describe} at offset {offset} overflows the constant pool"
  | .textTooLong length => s!"constant string too long ({length} bytes)"

/-- Constants by index, the index of each constant, and the types with a class constant in the
order in which they were added. -/
structure Pool where
  constants : ConstantTable
  index : Std.HashMap Constant UInt16
  classes : Array RefType

/-- What can be put into the pool. -/
inductive PoolValue where
  | utf8 (text : String)
  | integer (value : Int32)
  | float (bits : UInt32)
  | long (value : Int64)
  | double (bits : UInt64)
  | string (text : String)
  | classRef (type : RefType)
  | field (field : FieldRef)
  | method (method : MethodRef)
  | nameAndType (name descriptor : String)
  deriving DecidableEq, Repr

/-- Constants that can be pushed on the operand stack. -/
inductive Loadable where
  | integer (value : Int32)
  | float (bits : UInt32)
  | long (value : Int64)
  | double (bits : UInt64)
  | string (text : String)
  | classRef (type : RefType)
  deriving DecidableEq, Repr

namespace Loadable

def isWide : Loadable → Bool
  | .long _ | .double _ => true
  | _ => false

def value : Loadable → PoolValue
  | .integer value => .integer value
  | .float bits => .float bits
  | .long value => .long value
  | .double bits => .double bits
  | .string text => .string text
  | .classRef type => .classRef type

end Loadable

abbrev PoolM := EStateM PoolError Pool

def RefType.constantName : RefType → String
  | .object name => name.text
  | array => array.render

namespace Pool

def empty : Pool := ⟨.empty 1, ∅, #[]⟩

instance : Inhabited Pool := ⟨empty⟩

def indexOf? (pool : Pool) (constant : Constant) : Option UInt16 := pool.index[constant]?

def push (pool : Pool) (constant : Constant) : Pool :=
  { pool with
    index := pool.index.insert constant (UInt16.ofNat pool.constants.next)
    constants := pool.constants.push constant }

def add (constant : Constant) : PoolM UInt16 := do
  let offset := (← get).constants.next
  if offset + constant.width > maxPoolOffset then throw (.overflow constant offset)
  modify (push · constant)
  return UInt16.ofNat offset

def intern (constant : Constant) : PoolM UInt16 := do
  match (← get).indexOf? constant with
  | some index => return index
  | none => add constant

def utf8 (text : String) : PoolM UInt16 := do
  match (← get).indexOf? (.utf8 text) with
  | some index => return index
  | none =>
    let length := ModifiedUtf8.length text
    if length > maxTextLength then throw (.textTooLong length)
    add (.utf8 text)

def classRef (type : RefType) : PoolM UInt16 := do
  let name ← utf8 type.constantName
  match (← get).indexOf? (.classRef name) with
  | some index => return index
  | none =>
    let index ← add (.classRef name)
    modify fun pool => { pool with classes := pool.classes.push type }
    return index

def nameAndType (name descriptor : String) : PoolM UInt16 := do
  let name ← utf8 name
  let descriptor ← utf8 descriptor
  intern (.nameAndType name descriptor)

def fieldRef (field : FieldRef) : PoolM UInt16 := do
  let owner ← classRef (.object field.owner)
  let member ← nameAndType field.name.text field.descriptor.render
  intern (.fieldRef owner member)

def methodRef (method : MethodRef) : PoolM UInt16 := do
  let owner ← classRef (.object method.owner)
  let member ← nameAndType method.name.text method.descriptor.render
  intern (.methodRef owner member method.ownerIsInterface)

/-- The index of a value. The value and all it refers to are added as far as they are new. -/
def put : PoolValue → PoolM UInt16
  | .utf8 text => utf8 text
  | .integer value => intern (.integer value)
  | .float bits => intern (.float bits)
  | .long value => intern (.long value)
  | .double bits => intern (.double bits)
  | .string text => do intern (.string (← utf8 text))
  | .classRef type => classRef type
  | .field field => fieldRef field
  | .method method => methodRef method
  | .nameAndType name descriptor => nameAndType name descriptor

def get? (pool : Pool) : PoolValue → Option UInt16
  | .utf8 text => pool.indexOf? (.utf8 text)
  | .integer value => pool.indexOf? (.integer value)
  | .float bits => pool.indexOf? (.float bits)
  | .long value => pool.indexOf? (.long value)
  | .double bits => pool.indexOf? (.double bits)
  | .string text => do pool.indexOf? (.string (← pool.indexOf? (.utf8 text)))
  | .classRef type => classRef? type
  | .field field => do
    let owner ← classRef? (.object field.owner)
    let member ← nameAndType? field.name.text field.descriptor.render
    pool.indexOf? (.fieldRef owner member)
  | .method method => do
    let owner ← classRef? (.object method.owner)
    let member ← nameAndType? method.name.text method.descriptor.render
    pool.indexOf? (.methodRef owner member method.ownerIsInterface)
  | .nameAndType name descriptor => nameAndType? name descriptor
where
  classRef? (type : RefType) : Option UInt16 := do
    pool.indexOf? (.classRef (← pool.indexOf? (.utf8 type.constantName)))
  nameAndType? (name descriptor : String) : Option UInt16 := do
    pool.indexOf? (.nameAndType (← pool.indexOf? (.utf8 name))
      (← pool.indexOf? (.utf8 descriptor)))

def classOf? : RefType → Option BinaryName
  | .object name | .objectArray _ name => some name
  | .primitiveArray _ _ => none

def referencedClasses (pool : Pool) : List BinaryName :=
  let step := fun ((seen, found) : Std.HashSet BinaryName × Array BinaryName) type =>
    match classOf? type with
    | some name => if seen.contains name then (seen, found) else (seen.insert name, found.push name)
    | none => (seen, found)
  (pool.classes.foldl step (∅, #[])).2.toList

end Pool

end ClassForge
