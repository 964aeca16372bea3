namespace ClassForge

abbrev Bytes := List UInt8

/-- What went wrong, in broad terms. -/
inductive FormatError.Kind where
  | invalidData | invalidInput | endOfData
  deriving DecidableEq, Repr

/-- Why bytes could not be read, or a value not be written. -/
inductive FormatError where
  | endOfData
  | missingMagic
  | unknownConstant (tag : UInt8)
  | malformedText
  | unknownType (tag : UInt8)
  | reservedFrame (tag : UInt8)
  | trailingInAttribute (name : String) (count : Nat)
  | trailingAfterClass (count : Nat)
  | chopBeyond (chopped present : Nat)
  | returnAddressInFrame
  | chopCount (count : Nat)
  | appendCount (count : Nat)
  deriving DecidableEq, Repr

namespace FormatError

def kind : FormatError → Kind
  | .endOfData => .endOfData
  | .returnAddressInFrame | .chopCount _ | .appendCount _ => .invalidInput
  | _ => .invalidData

def message : FormatError → String
  | .endOfData => "failed to fill whole buffer"
  | .missingMagic => "Missing 0xCAFEBABE header"
  | .unknownConstant tag => s!"Unsupported constant pool tag {tag}"
  | .malformedText => "Malformed modified UTF-8"
  | .unknownType tag => s!"Unknown verification type tag {tag}"
  | .reservedFrame tag => s!"Reserved stack map frame tag {tag}"
  | .trailingInAttribute name count => s!"{name} attribute has {count} trailing bytes"
  | .trailingAfterClass count => s!"{count} trailing bytes after the class"
  | .chopBeyond chopped present =>
    s!"cannot chop {chopped} locals from a frame with {present}"
  | .returnAddressInFrame => "return addresses cannot appear in a stack map frame"
  | .chopCount count => s!"chop frame must chop 1-3 locals, not {count}"
  | .appendCount count => s!"append frame must add 1-3 locals, not {count}"

end FormatError

namespace Bytes

def ofWord16 (n : UInt16) : Bytes := [(n >>> 8).toUInt8, n.toUInt8]

def ofWord32 (n : UInt32) : Bytes :=
  [(n >>> 24).toUInt8, (n >>> 16).toUInt8, (n >>> 8).toUInt8, n.toUInt8]

def ofWord64 (n : UInt64) : Bytes := ofWord32 (n >>> 32).toUInt32 ++ ofWord32 n.toUInt32

def ofList {α : Type} (encode : α → Bytes) (items : List α) : Bytes :=
  ofWord16 (UInt16.ofNat items.length) ++ items.flatMap encode

def ofBlock (block : Bytes) : Bytes := ofWord32 (UInt32.ofNat block.length) ++ block

def toWord16 (high low : UInt8) : UInt16 := (high.toUInt16 <<< 8) ||| low.toUInt16

def toWord32 (high low : UInt16) : UInt32 := (high.toUInt32 <<< 16) ||| low.toUInt32

def toWord64 (high low : UInt32) : UInt64 := (high.toUInt64 <<< 32) ||| low.toUInt64

end Bytes

abbrev Decoder (α : Type) := StateT Bytes (Except FormatError) α

namespace Decoder

variable {α : Type}

def byte : Decoder UInt8
  | [] => .error .endOfData
  | b :: rest => .ok (b, rest)

def word16 : Decoder UInt16 := do
  let high ← byte
  let low ← byte
  return Bytes.toWord16 high low

def word32 : Decoder UInt32 := do
  let high ← word16
  let low ← word16
  return Bytes.toWord32 high low

def word64 : Decoder UInt64 := do
  let high ← word32
  let low ← word32
  return Bytes.toWord64 high low

def take (count : Nat) : Decoder Bytes := fun bytes =>
  let front := bytes.take count
  if front.length = count then .ok (front, bytes.drop count) else .error .endOfData

def manyOnto (item : Decoder α) : Nat → List α → Decoder (List α)
  | 0, done => fun bytes => .ok (done.reverse, bytes)
  | count + 1, done => fun bytes =>
    match item bytes with
    | .error e => .error e
    | .ok (a, rest) => manyOnto item count (a :: done) rest

def many (count : Nat) (item : Decoder α) : Decoder (List α) := manyOnto item count []

def list (item : Decoder α) : Decoder (List α) := do
  let count ← word16
  many count.toNat item

def block : Decoder Bytes := do
  let count ← word32
  take count.toNat

def all (item : Decoder α) (leftover : Nat → FormatError) (bytes : Bytes) :
    Except FormatError α :=
  match item bytes with
  | .error e => .error e
  | .ok (a, []) => .ok a
  | .ok (_, rest) => .error (leftover rest.length)

def fail (e : FormatError) : Decoder α := fun _ => .error e

end Decoder

end ClassForge
