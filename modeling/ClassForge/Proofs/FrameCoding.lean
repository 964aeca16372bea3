import ClassForge.Proofs.Boundary
import ClassForge.Proofs.SlotLayout
import Mathlib.Data.List.Forall2

namespace ClassForge

variable {ε α β : Type} {bytes info : Bytes} {written : List Bytes} {f : α → Except ε β}
  {table : List MapFrame}

theorem except_bind_ok {x : Except ε α} {y : β} :
    (x >>= f) = .ok y ↔ ∃ a, x = .ok a ∧ f a = .ok y := by
  cases x with
  | error e =>
    constructor
    · nofun
    · rintro ⟨_, same, _⟩
      cases same
  | ok a =>
    constructor
    · exact fun rest => ⟨a, rfl, rest⟩
    · rintro ⟨_, same, rest⟩
      cases same
      exact rest

theorem forall₂_of_mapM_ok {items : List α} {made : List β} (run : items.mapM f = .ok made) :
    List.Forall₂ (fun item b => f item = .ok b) items made := by
  induction items generalizing made with
  | nil =>
    cases run
    exact .nil
  | cons item rest ih =>
    rw [List.mapM_cons] at run
    obtain ⟨b, first, run⟩ := except_bind_ok.mp run
    obtain ⟨more, others, run⟩ := except_bind_ok.mp run
    cases run
    exact .cons first (ih others)

theorem exists_of_forall₂ {related : α → β → Prop} {items : List α} {made : List β}
    (all : List.Forall₂ related items made) {b : β} (member : b ∈ made) : ∃ a ∈ items, related a b := by
  induction all with
  | nil => cases member
  | cons this _ ih =>
    rcases List.mem_cons.mp member with rfl | later
    · exact ⟨_, .head _, this⟩
    · obtain ⟨a, listed, held⟩ := ih later
      exact ⟨a, List.mem_cons_of_mem _ listed, held⟩

namespace Decoder

variable {α β : Type} {first item : Decoder α} {values : List α}

def Reads (decoder : Decoder α) (bytes : Bytes) (value : α) : Prop :=
  ∀ rest, decoder (bytes ++ rest) = .ok (value, rest)

theorem reads_pure (value : α) : Reads (pure value) [] value := fun _ => rfl

theorem Reads.bind {second : α → Decoder β} {front back : Bytes} {a : α} {b : β}
    (before : Reads first front a) (after : Reads (second a) back b) :
    Reads (first >>= second) (front ++ back) b := by
  intro rest
  change Except.bind (first (front ++ back ++ rest)) _ = _
  rw [List.append_assoc, before]
  exact after rest

theorem Reads.map {a : α} (reads : Reads first bytes a) (f : α → β) :
    Reads (do return f (← first)) bytes (f a) := by
  have whole : Reads (first >>= fun a => pure (f a)) (bytes ++ []) (f a) := reads.bind (reads_pure _)
  rwa [List.append_nil] at whole

theorem reads_byte (b : UInt8) : Reads byte [b] b := fun _ => rfl

theorem reads_word16 (n : UInt16) : Reads word16 (Bytes.ofWord16 n) n := by
  intro rest
  change Except.ok (Bytes.toWord16 (n >>> 8).toUInt8 n.toUInt8, rest) = _
  rw [Bytes.toWord16_ofWord16]

theorem reads_manyOnto
    (each : List.Forall₂ (fun value bytes => Reads item bytes value) values written) (done : List α) :
    Reads (manyOnto item values.length done) written.flatten (done.reverse ++ values) := by
  induction each generalizing done with
  | nil =>
    intro rest
    simp [manyOnto]
  | @cons value _ _ _ first _ ih =>
    intro rest
    have later := ih (value :: done) rest
    rw [List.reverse_cons, List.append_assoc] at later
    rw [List.flatten_cons, List.append_assoc, List.length_cons, manyOnto]
    dsimp only
    rw [first]
    exact later

/-- A list with its length in front is read, unless it is too long for the length to be written. -/
theorem reads_list (each : List.Forall₂ (fun value bytes => Reads item bytes value) values written)
    (short : values.length < 0x10000) :
    Reads (list item) (Bytes.ofWord16 (UInt16.ofNat values.length) ++ written.flatten) values := by
  refine (reads_word16 _).bind ?_
  rw [UInt16.toNat_ofNat_of_lt' (by simpa [UInt16.size] using short)]
  exact reads_manyOnto each []

end Decoder

open Decoder

namespace VerificationType

theorem reads_encode {type : CType} (written : type.encode = .ok bytes) :
    Reads decode bytes type := by
  cases type with
  | object index =>
    cases written
    exact (reads_byte 7).bind ((reads_word16 index).map _)
  | uninitialized pc =>
    cases written
    exact (reads_byte 8).bind ((reads_word16 pc).map _)
  | returnAddress => cases written
  | _ =>
    cases written
    exact fun _ => rfl

end VerificationType

namespace MapFrame

variable {n : UInt16}

def IsShort : MapFrame → Prop
  | .full _ locals stack => locals.length < 0x10000 ∧ stack.length < 0x10000
  | _ => True

theorem reads_types {types : List CType} (run : types.mapM VerificationType.encode = .ok written) :
    List.Forall₂ (fun type bytes => Reads VerificationType.decode bytes type) types written :=
  (forall₂_of_mapM_ok run).imp fun _ _ => VerificationType.reads_encode

theorem toUInt16_toUInt8 (small : n ≤ 63) : n.toUInt8.toUInt16 = n := by
  have bound : n.toNat ≤ 63 := UInt16.le_iff_toNat_le.mp small
  rw [← UInt16.toNat_inj, UInt8.toNat_toUInt16, UInt16.toNat_toUInt8]
  omega

theorem tag_of_small (small : n ≤ 63) : ¬n.toUInt8 + 64 ≤ 63 ∧ n.toUInt8 + 64 ≤ 127 ∧
    n.toUInt8 + 64 - 64 = n.toUInt8 := by
  have bound : n.toNat ≤ 63 := UInt16.le_iff_toNat_le.mp small
  have tag : (n.toUInt8 + 64).toNat = n.toNat + 64 := by
    rw [UInt8.toNat_add, UInt16.toNat_toUInt8]
    have step : (64 : UInt8).toNat = 64 := rfl
    omega
  rw [UInt8.le_iff_toNat_le, UInt8.le_iff_toNat_le, tag]
  refine ⟨?_, ?_, UInt8.add_sub_cancel _ _⟩
  · change ¬n.toNat + 64 ≤ 63
    omega
  · change n.toNat + 64 ≤ 127
    omega

theorem reads_encode {frame : MapFrame} (short : frame.IsShort) (written : frame.encode = .ok bytes) :
    Reads decode bytes frame := by
  cases frame with
  | same delta =>
    simp only [encode] at written
    split at written
    · next small =>
      cases written
      have low : delta.toUInt8 ≤ 63 := by
        rw [UInt8.le_iff_toNat_le, UInt16.toNat_toUInt8]
        exact Nat.le_trans (Nat.mod_le _ _) (UInt16.le_iff_toNat_le.mp small)
      refine (reads_byte delta.toUInt8).bind ?_
      rw [if_pos low, toUInt16_toUInt8 small]
      exact reads_pure _
    · cases written
      refine (reads_byte 251).bind ?_
      exact (reads_word16 delta).map MapFrame.same
  | sameOne delta stack =>
    simp only [encode] at written
    obtain ⟨type, encoded, written⟩ := except_bind_ok.mp written
    split at written
    · next small =>
      cases written
      obtain ⟨above, below, back⟩ := tag_of_small small
      refine (reads_byte (delta.toUInt8 + 64)).bind ?_
      rw [if_neg above, if_pos below, back, toUInt16_toUInt8 small]
      exact (VerificationType.reads_encode encoded).map _
    · cases written
      refine (reads_byte 247).bind ((reads_word16 delta).bind ?_)
      exact (VerificationType.reads_encode encoded).map _
  | chop delta count =>
    simp only [encode] at written
    split at written
    · next few =>
      cases written
      have counts : count = 1 ∨ count = 2 ∨ count = 3 := by
        simp only [UInt8.le_iff_toNat_le, ← UInt8.toNat_inj] at few ⊢
        have one : (1 : UInt8).toNat = 1 := rfl
        have two : (2 : UInt8).toNat = 2 := rfl
        have three : (3 : UInt8).toNat = 3 := rfl
        omega
      refine (reads_byte (251 - count)).bind ?_
      rcases counts with rfl | rfl | rfl <;> exact (reads_word16 delta).map _
    · cases written
  | append delta locals =>
    simp only [encode] at written
    split at written
    · next few =>
      obtain ⟨types, encoded, written⟩ := except_bind_ok.mp written
      cases written
      obtain ⟨each, known, flat⟩ := except_bind_ok.mp encoded
      cases flat
      have all := (reads_manyOnto (reads_types known) []).map (MapFrame.append delta)
      have counts : locals.length = 1 ∨ locals.length = 2 ∨ locals.length = 3 := by omega
      refine (reads_byte (UInt8.ofNat (251 + locals.length))).bind ?_
      rcases counts with same | same | same <;>
        · rw [same] at all ⊢
          exact (reads_word16 delta).bind all
    · cases written
  | full delta locals stack =>
    simp only [encode] at written
    obtain ⟨localTypes, encodedLocals, written⟩ := except_bind_ok.mp written
    obtain ⟨stackTypes, encodedStack, written⟩ := except_bind_ok.mp written
    cases written
    obtain ⟨eachLocal, knownLocals, flat⟩ := except_bind_ok.mp encodedLocals
    cases flat
    obtain ⟨eachEntry, knownStack, flat⟩ := except_bind_ok.mp encodedStack
    cases flat
    have listed := reads_list (reads_types knownLocals) short.1
    have stacked := (reads_list (reads_types knownStack) short.2).map (MapFrame.full delta locals)
    simp only [List.append_assoc, List.cons_append]
    refine (reads_byte 255).bind ((reads_word16 delta).bind ?_)
    exact listed.bind stacked

end MapFrame

theorem Payload.reads_stackMap (short : ∀ frame ∈ table, frame.IsShort)
    (few : table.length < 0x10000) (written : (Payload.stackMap table).encode = .ok info) :
    Reads (Payload.decoder "StackMapTable") info (.stackMap table) := by
  obtain ⟨encoded, made, flat⟩ := except_bind_ok.mp written
  cases flat
  have each : List.Forall₂ (fun frame bytes => Reads MapFrame.decode bytes frame) table encoded := by
    have known := forall₂_of_mapM_ok made
    clear made few written
    induction known with
    | nil => exact .nil
    | cons first _ ih =>
      obtain ⟨here, others⟩ := List.forall_mem_cons.mp short
      exact .cons (MapFrame.reads_encode here first) (ih others)
  exact (reads_list each few).map Payload.stackMap

theorem Payload.decode_stackMap (short : ∀ frame ∈ table, frame.IsShort)
    (few : table.length < 0x10000) (written : (Payload.stackMap table).encode = .ok info) :
    Payload.decode "StackMapTable" info = .ok (.stackMap table) := by
  have whole := Payload.reads_stackMap short few written []
  rw [List.append_nil] at whole
  rw [Payload.decode, Decoder.all, whole]

theorem SlotSeq.eq_of_beq {s other : SlotSeq α} [BEq α] [LawfulBEq α] (same : (s == other) = true) :
    s.entries = other.entries :=
  LawfulBEq.eq_of_beq same

namespace Frame

variable {frame previous found : CFrame} {delta : UInt16}

/-- The locals and the stack have been built up from slot 0. -/
structure LaidOut {κ υ : Type} (frame : Frame κ υ) : Prop where
  locals : ∃ types, frame.locals = .ofList types
  stack : ∃ types, frame.stack = .ofList types

theorem LaidOut.ext (laid : frame.LaidOut) (also : found.LaidOut)
    (locals : found.locals.toList = frame.locals.toList)
    (stack : found.stack.toList = frame.stack.toList) : found = frame := by
  obtain ⟨⟨types, built⟩, types', built'⟩ := laid
  obtain ⟨⟨others, also⟩, others', also'⟩ := also
  rw [built, also, SlotSeq.toList_ofList, SlotSeq.toList_ofList] at locals
  rw [built', also', SlotSeq.toList_ofList, SlotSeq.toList_ofList] at stack
  cases frame
  cases found
  simp_all

theorem LaidOut.apply (laid : previous.LaidOut) {change : MapFrame}
    (applied : previous.apply change = .ok found) : found.LaidOut := by
  obtain ⟨types, built⟩ := laid.locals
  cases change with
  | same =>
    cases applied
    exact ⟨⟨types, built⟩, [], rfl⟩
  | sameOne _ entry =>
    cases applied
    exact ⟨⟨types, built⟩, [entry], rfl⟩
  | chop delta count =>
    simp only [Frame.apply] at applied
    split at applied
    · cases applied
      exact ⟨⟨_, rfl⟩, [], rfl⟩
    · cases applied
  | append delta more =>
    cases applied
    refine ⟨⟨types ++ more, ?_⟩, [], rfl⟩
    change previous.locals.pushAll more = _
    rw [built]
    exact List.foldl_append.symm
  | full =>
    cases applied
    exact ⟨⟨_, rfl⟩, _, rfl⟩

/-- Whatever their offsets are, the types in a frame are found again. -/
theorem apply_compress_types (frame previous : CFrame) (delta : UInt16) :
    ∃ found, previous.apply (frame.compress delta previous) = .ok found ∧
      found.locals.toList = frame.locals.toList ∧ found.stack.toList = frame.stack.toList := by
  have spelt : ∃ found, previous.apply (frame.toFull delta) = .ok found ∧
      found.locals.toList = frame.locals.toList ∧ found.stack.toList = frame.stack.toList :=
    ⟨_, rfl, SlotSeq.toList_ofList _, SlotSeq.toList_ofList _⟩
  have now := frame.locals.length_toList
  have before := previous.locals.length_toList
  unfold compress
  dsimp only
  split
  · next empty =>
    rw [empty] at spelt ⊢
    split
    · split
      · next fewer near =>
        split
        · next same =>
          refine ⟨_, rfl, ?_, rfl⟩
          rw [near.2, ← same, ← before, List.take_length]
        · have count : (UInt8.ofNat (previous.locals.size - frame.locals.size)).toNat =
              previous.locals.size - frame.locals.size :=
            UInt8.toNat_ofNat_of_lt' (by simp only [UInt8.size]; omega)
          simp only [Frame.apply, count]
          rw [if_pos (by omega), Nat.sub_sub_self fewer, ← near.2]
          exact ⟨_, rfl, SlotSeq.toList_ofList _, rfl⟩
      · exact spelt
    · split
      · next more near =>
        refine ⟨_, rfl, ?_, rfl⟩
        rw [SlotSeq.toList_pushAll, near.2, List.take_append_drop]
      · exact spelt
  · next entry single =>
    split
    · next same =>
      refine ⟨_, rfl, ?_, ?_⟩
      · rw [SlotSeq.toList, SlotSeq.toList, SlotSeq.eq_of_beq same]
      · rw [single, SlotSeq.toList_ofList]
    · exact spelt
  · exact spelt

theorem apply_compress (laid : frame.LaidOut) (before : previous.LaidOut) (delta : UInt16) :
    previous.apply (frame.compress delta previous) = .ok frame := by
  obtain ⟨found, applied, locals, stack⟩ := apply_compress_types frame previous delta
  rw [applied, laid.ext (before.apply applied) locals stack]

/-- The offsets count: a frame that does not start at slot 0 is not found again from one that does,
although both have the same types. -/
theorem apply_compress_shifted : ∃ frame previous : CFrame, frame.locals.Packed ∧
    previous.LaidOut ∧ frame.stack = previous.stack ∧
    ∀ delta found, previous.apply (frame.compress delta previous) = .ok found →
      (found == frame) = false := by
  refine ⟨⟨(SlotSeq.empty 1).push .integer, .empty 0⟩, ⟨.ofList [.integer], .empty 0⟩,
    (SlotSeq.packed_empty 1).push, ⟨⟨_, rfl⟩, [], rfl⟩, rfl, fun delta found applied => ?_⟩
  cases applied
  rfl

theorem isShort_compress (delta : UInt16)
    (locals : frame.locals.size < 0x10000) (stack : frame.stack.size < 0x10000) :
    (frame.compress delta previous).IsShort := by
  rw [← SlotSeq.length_toList] at locals stack
  unfold compress toFull
  dsimp only
  split
  · split
    · split
      · split <;> trivial
      · exact ⟨locals, stack⟩
    · split
      · trivial
      · exact ⟨locals, stack⟩
  · split
    · trivial
    · exact ⟨locals, stack⟩
  · exact ⟨locals, stack⟩

end Frame

end ClassForge
