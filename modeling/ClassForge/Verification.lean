import ClassForge.Bytes
import ClassForge.Descriptor

namespace ClassForge

/-- Verification types over a representation of classes and one of objects that have been
allocated but not constructed. -/
inductive VerificationType (κ υ : Type) where
  | top | integer | float | double | long | null | uninitializedThis
  | object (type : κ)
  | uninitialized (site : υ)
  | returnAddress
  deriving DecidableEq, Hashable, Repr

/-- An allocation: the position of its `new` and the class being constructed. -/
structure Allocation where
  pc : UInt16
  name : BinaryName
  deriving DecidableEq, Hashable, Repr

abbrev VType := VerificationType RefType Allocation

abbrev CType := VerificationType UInt16 UInt16

namespace VerificationType

variable {κ υ : Type}

def width : VerificationType κ υ → Nat
  | .double | .long => 2
  | _ => 1

instance : Width (VerificationType κ υ) := ⟨width⟩

theorem width_pos (type : VerificationType κ υ) : 0 < type.width := by
  cases type <;> simp [width]

instance : Inhabited (VerificationType κ υ) := ⟨.top⟩

def isReference : VerificationType κ υ → Bool
  | .null | .uninitializedThis | .object _ | .uninitialized _ => true
  | _ => false

def mapM {m : Type → Type} [Monad m] {κ' υ' : Type} (type : κ → m κ') (site : υ → m υ') :
    VerificationType κ υ → m (VerificationType κ' υ')
  | .top => pure .top
  | .integer => pure .integer
  | .float => pure .float
  | .double => pure .double
  | .long => pure .long
  | .null => pure .null
  | .uninitializedThis => pure .uninitializedThis
  | .object c => return .object (← type c)
  | .uninitialized u => return .uninitialized (← site u)
  | .returnAddress => pure .returnAddress

def describe : VType → String
  | .top => "Top"
  | .integer => "Integer"
  | .float => "Float"
  | .double => "Double"
  | .long => "Long"
  | .null => "Null"
  | .uninitializedThis => "UninitializedThis"
  | .object type => s!"Object({type.describe})"
  | .uninitialized site =>
    s!"Uninitialized(Uninit \x7b pc: {site.pc}, class: {site.name.text} \x7d)"
  | .returnAddress => "ReturnAddress"

def ofFieldType : FieldType → VType
  | .base .float => .float
  | .base .double => .double
  | .base .long => .long
  | .base _ => .integer
  | .ref type => .object type

def encode : CType → Except FormatError Bytes
  | .top => .ok [0]
  | .integer => .ok [1]
  | .float => .ok [2]
  | .double => .ok [3]
  | .long => .ok [4]
  | .null => .ok [5]
  | .uninitializedThis => .ok [6]
  | .object index => .ok (7 :: Bytes.ofWord16 index)
  | .uninitialized pc => .ok (8 :: Bytes.ofWord16 pc)
  | .returnAddress => .error .returnAddressInFrame

def decode : Decoder CType := do
  match ← Decoder.byte with
  | 0 => return .top
  | 1 => return .integer
  | 2 => return .float
  | 3 => return .double
  | 4 => return .long
  | 5 => return .null
  | 6 => return .uninitializedThis
  | 7 => return .object (← Decoder.word16)
  | 8 => return .uninitialized (← Decoder.word16)
  | tag => Decoder.fail (.unknownType tag)

end VerificationType

end ClassForge
