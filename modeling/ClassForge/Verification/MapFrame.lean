import ClassForge.Verification

namespace ClassForge

/-- Frames as a class file holds them. `delta` is the distance from the frame before. -/
inductive MapFrame where
  | same (delta : UInt16)
  | sameOne (delta : UInt16) (stack : CType)
  | chop (delta : UInt16) (count : UInt8)
  | append (delta : UInt16) (locals : List CType)
  | full (delta : UInt16) (locals stack : List CType)
  deriving DecidableEq, Repr

namespace MapFrame

def delta : MapFrame → UInt16
  | .same delta | .sameOne delta _ | .chop delta _ | .append delta _ | .full delta _ _ => delta

def encodeTypes (types : List CType) : Except FormatError Bytes := do
  return (← types.mapM VerificationType.encode).flatten

def encode : MapFrame → Except FormatError Bytes
  | .same delta =>
    if delta ≤ 63 then .ok [delta.toUInt8] else .ok (251 :: Bytes.ofWord16 delta)
  | .sameOne delta stack => do
    let type ← VerificationType.encode stack
    if delta ≤ 63 then return (delta.toUInt8 + 64) :: type
    else return 247 :: Bytes.ofWord16 delta ++ type
  | .chop delta count =>
    if 1 ≤ count ∧ count ≤ 3 then .ok ((251 - count) :: Bytes.ofWord16 delta)
    else .error (.chopCount count.toNat)
  | .append delta locals =>
    if 1 ≤ locals.length ∧ locals.length ≤ 3 then do
      let types ← encodeTypes locals
      return UInt8.ofNat (251 + locals.length) :: Bytes.ofWord16 delta ++ types
    else .error (.appendCount locals.length)
  | .full delta locals stack => do
    let localTypes ← encodeTypes locals
    let stackTypes ← encodeTypes stack
    return 255 :: Bytes.ofWord16 delta ++
      Bytes.ofWord16 (UInt16.ofNat locals.length) ++ localTypes ++
      Bytes.ofWord16 (UInt16.ofNat stack.length) ++ stackTypes

def decode : Decoder MapFrame := do
  let tag ← Decoder.byte
  if tag ≤ 63 then return .same tag.toUInt16
  else if tag ≤ 127 then return .sameOne (tag - 64).toUInt16 (← VerificationType.decode)
  else if tag < 247 then Decoder.fail (.reservedFrame tag)
  else
    let delta ← Decoder.word16
    if tag = 247 then return .sameOne delta (← VerificationType.decode)
    else if tag ≤ 250 then return .chop delta (251 - tag)
    else if tag = 251 then return .same delta
    else if tag ≤ 254 then
      return .append delta (← Decoder.many (tag - 251).toNat VerificationType.decode)
    else
      let locals ← Decoder.list VerificationType.decode
      let stack ← Decoder.list VerificationType.decode
      return .full delta locals stack

end MapFrame

end ClassForge
