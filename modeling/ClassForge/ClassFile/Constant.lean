import ClassForge.Bytes.ModifiedUtf8
import ClassForge.Slots

namespace ClassForge

/-- Constants; those that refer to others hold their indices. Floating point constants are bit
patterns, so that all of them can be told apart. -/
inductive Constant where
  | utf8 (text : String)
  | integer (value : Int32)
  | float (bits : UInt32)
  | long (value : Int64)
  | double (bits : UInt64)
  | classRef (name : UInt16)
  | string (text : UInt16)
  | fieldRef (owner member : UInt16)
  | methodRef (owner member : UInt16) (ownerIsInterface : Bool)
  | nameAndType (name descriptor : UInt16)
  deriving DecidableEq, Hashable, Repr

namespace Constant

def width : Constant → Nat
  | .long _ | .double _ => 2
  | _ => 1

instance : Width Constant := ⟨width⟩

theorem width_pos (constant : Constant) : 0 < constant.width := by
  cases constant <;> simp [width]

def encode : Constant → Bytes
  | .utf8 text =>
    let bytes := ModifiedUtf8.encode text
    1 :: Bytes.ofWord16 (UInt16.ofNat bytes.length) ++ bytes
  | .integer value => 3 :: Bytes.ofWord32 value.toUInt32
  | .float bits => 4 :: Bytes.ofWord32 bits
  | .long value => 5 :: Bytes.ofWord64 value.toUInt64
  | .double bits => 6 :: Bytes.ofWord64 bits
  | .classRef name => 7 :: Bytes.ofWord16 name
  | .string text => 8 :: Bytes.ofWord16 text
  | .fieldRef owner member => 9 :: Bytes.ofWord16 owner ++ Bytes.ofWord16 member
  | .methodRef owner member ownerIsInterface =>
    (if ownerIsInterface then 11 else 10) :: Bytes.ofWord16 owner ++ Bytes.ofWord16 member
  | .nameAndType name descriptor => 12 :: Bytes.ofWord16 name ++ Bytes.ofWord16 descriptor

def decodeText : Decoder String := do
  let count ← Decoder.word16
  let bytes ← Decoder.take count.toNat
  match ModifiedUtf8.decode? bytes with
  | some text => return text
  | none => Decoder.fail .malformedText

def decode : Decoder Constant := do
  match ← Decoder.byte with
  | 1 => return .utf8 (← decodeText)
  | 3 => return .integer (← Decoder.word32).toInt32
  | 4 => return .float (← Decoder.word32)
  | 5 => return .long (← Decoder.word64).toInt64
  | 6 => return .double (← Decoder.word64)
  | 7 => return .classRef (← Decoder.word16)
  | 8 => return .string (← Decoder.word16)
  | 9 => return .fieldRef (← Decoder.word16) (← Decoder.word16)
  | 10 => return .methodRef (← Decoder.word16) (← Decoder.word16) false
  | 11 => return .methodRef (← Decoder.word16) (← Decoder.word16) true
  | 12 => return .nameAndType (← Decoder.word16) (← Decoder.word16)
  | tag => Decoder.fail (.unknownConstant tag)

end Constant

abbrev ConstantTable := SlotSeq Constant

namespace ConstantTable

def encode (table : ConstantTable) : Bytes :=
  Bytes.ofWord16 (UInt16.ofNat table.next) ++ table.toList.flatMap Constant.encode

def decodeOnto (count : Nat) (table : ConstantTable) : Decoder ConstantTable := fun bytes =>
  if table.next < count then
    match Constant.decode bytes with
    | .error e => .error e
    | .ok (constant, rest) => decodeOnto count (table.push constant) rest
  else .ok (table, bytes)
termination_by count - table.next
decreasing_by
  have wide := constant.width_pos
  simp only [SlotSeq.push, Width.width]
  omega

def decode : Decoder ConstantTable := do
  let count ← Decoder.word16
  decodeOnto count.toNat (.empty 1)

end ConstantTable

end ClassForge
