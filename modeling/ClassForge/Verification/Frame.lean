import ClassForge.Slots
import ClassForge.Verification.MapFrame

namespace ClassForge

-- Zeros are the literals, also where a ring would give others.
attribute [local instance (2000)] Zero.ofOfNat0

/-- Locals and stack. A wide local is one entry that stands for two registers. -/
structure Frame (κ υ : Type) where
  locals : SlotSeq (VerificationType κ υ)
  stack : SlotSeq (VerificationType κ υ)

instance {κ υ : Type} [DecidableEq κ] [DecidableEq υ] : BEq (Frame κ υ) :=
  ⟨fun frame other => frame.locals == other.locals && frame.stack == other.stack⟩

abbrev VFrame := Frame RefType Allocation

abbrev CFrame := Frame UInt16 UInt16

namespace Frame

def mapM {m : Type → Type} [Monad m] {κ υ κ' υ' : Type} (type : κ → m κ') (site : υ → m υ')
    (frame : Frame κ υ) : m (Frame κ' υ') := do
  let locals ← frame.locals.toList.mapM (VerificationType.mapM type site)
  let stack ← frame.stack.toList.mapM (VerificationType.mapM type site)
  return ⟨.ofList locals, .ofList stack⟩

def toFull (frame : CFrame) (delta : UInt16) : MapFrame :=
  .full delta frame.locals.toList frame.stack.toList

def compress (frame : CFrame) (delta : UInt16) (previous : CFrame) : MapFrame :=
  let now := frame.locals.size
  let before := previous.locals.size
  match frame.stack.toList with
  | [] =>
    if now ≤ before then
      if before - now < 4 ∧ frame.locals.toList = previous.locals.toList.take now then
        if before = now then .same delta else .chop delta (UInt8.ofNat (before - now))
      else frame.toFull delta
    else if now - before < 4 ∧ previous.locals.toList = frame.locals.toList.take before then
      .append delta (frame.locals.toList.drop before)
    else frame.toFull delta
  | [entry] =>
    if frame.locals == previous.locals then .sameOne delta entry else frame.toFull delta
  | _ => frame.toFull delta

def apply (previous : CFrame) : MapFrame → Except FormatError CFrame
  | .same _ => .ok ⟨previous.locals, .empty 0⟩
  | .sameOne _ entry => .ok ⟨previous.locals, .ofList [entry]⟩
  | .chop _ count =>
    let present := previous.locals.size
    if count.toNat ≤ present then
      .ok ⟨.ofList (previous.locals.toList.take (present - count.toNat)), .empty 0⟩
    else .error (.chopBeyond count.toNat present)
  | .append _ locals => .ok ⟨previous.locals.pushAll locals, .empty 0⟩
  | .full _ locals stack => .ok ⟨.ofList locals, .ofList stack⟩

def decompressFrom (previous : CFrame) (offset : Nat) :
    List MapFrame → Except FormatError (List (Nat × CFrame))
  | [] => .ok []
  | change :: rest => do
    let frame ← previous.apply change
    let pc := offset + change.delta.toNat
    let later ← decompressFrom frame (pc + 1) rest
    return (pc, frame) :: later

def decompress (initial : CFrame) (table : List MapFrame) :
    Except FormatError (List (Nat × CFrame)) :=
  decompressFrom initial 0 table

end Frame

end ClassForge
