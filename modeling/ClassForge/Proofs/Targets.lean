import ClassForge.Proofs.Switching

namespace ClassForge

variable {pos base pc : Nat} {target : Int} {opcode : UInt8} {code other : Bytes}

namespace Bytes

variable {places : List Nat}

def word16At? (code : Bytes) (pos : Nat) : Option Int16 :=
  match code[pos]?, code[pos + 1]? with
  | some high, some low => some (toWord16 high low).toInt16
  | _, _ => none

theorem word16At?_congr (same : Alike pos (pos + 2) code other) :
    word16At? other pos = word16At? code pos := by
  unfold word16At?
  rw [same pos (by omega) (by omega), same (pos + 1) (by omega) (by omega)]

def leads (code : Bytes) (pc : Nat) (places : List Nat) : List Int :=
  places.filterMap fun pos => (code.word32At? pos).map fun offset => (pc : Int) + offset.toInt

theorem mem_leads :
    target ∈ code.leads pc places ↔
      ∃ pos ∈ places, ∃ offset, code.word32At? pos = some offset ∧ target = pc + offset.toInt := by
  simp only [leads, List.mem_filterMap, Option.map_eq_some_iff]
  constructor
  · rintro ⟨pos, member, offset, found, rfl⟩
    exact ⟨pos, member, offset, found, rfl⟩
  · rintro ⟨pos, member, offset, found, rfl⟩
    exact ⟨pos, member, offset, found, rfl⟩

theorem leads_congr (same : ∀ pos ∈ places, Alike pos (pos + 4) code other) :
    other.leads pc places = code.leads pc places := by
  unfold leads
  refine List.filterMap_congr fun pos member => ?_
  rw [word32At?_congr (same pos member)]

/-- Places of the offsets of a table switch: the default, and one for every value. -/
def tablePlaces (pc : Nat) (low high : Int32) : List Nat :=
  switchBase pc ::
    (List.range (high.toInt - low.toInt + 1).toNat).map (switchBase pc + 12 + 4 * ·)

def lookupPlaces (pc : Nat) (pairs : Int32) : List Nat :=
  switchBase pc :: (List.range pairs.toInt.toNat).map (switchBase pc + 12 + 8 * ·)

def tableTargets (code : Bytes) (pc : Nat) : List Int :=
  match code.word32At? (switchBase pc + 4), code.word32At? (switchBase pc + 8) with
  | some low, some high => code.leads pc (tablePlaces pc low high)
  | _, _ => []

def lookupTargets (code : Bytes) (pc : Nat) : List Int :=
  match code.word32At? (switchBase pc + 4) with
  | some pairs => code.leads pc (lookupPlaces pc pairs)
  | none => []

def jumpTargets (code : Bytes) (pc : Nat) (opcode : UInt8) : List Int :=
  if Opcode.jumpLength opcode = 5 then code.leads pc [pc + 1]
  else ((code.word16At? (pc + 1)).map fun offset => (pc : Int) + offset.toInt).toList

/-- The positions that the instruction at a position can go to besides the one after it. -/
def targets (code : Bytes) (pc : Nat) : List Int :=
  match code[pc]? with
  | none => []
  | some opcode =>
    if opcode = Opcode.tableSwitch then code.tableTargets pc
    else if opcode = Opcode.lookupSwitch then code.lookupTargets pc
    else if Opcode.isJump opcode then code.jumpTargets pc opcode
    else []

section Congr

variable {code other : Bytes} {pc length : Nat}

theorem tableTargets_congr (known : code.tableSwitchLength? pc = some length)
    (same : Alike pc (pc + length) code other) : other.tableTargets pc = code.tableTargets pc := by
  have after := lt_switchBase pc
  obtain ⟨low, high, atLow, atHigh, _, total⟩ := tableSwitchLength?_eq_some.mp known
  unfold tableTargets
  rw [word32At?_congr fun i _ _ => same i (by omega) (by omega),
    word32At?_congr fun i _ _ => same i (by omega) (by omega), atLow, atHigh]
  refine leads_congr fun pos member i lower upper => same i ?_ ?_ <;>
    (simp only [tablePlaces, List.mem_cons, List.mem_map, List.mem_range] at member
     rcases member with rfl | ⟨place, inside, rfl⟩ <;> omega)

theorem lookupTargets_congr (known : code.lookupSwitchLength? pc = some length)
    (same : Alike pc (pc + length) code other) : other.lookupTargets pc = code.lookupTargets pc := by
  have after := lt_switchBase pc
  obtain ⟨pairs, atPairs, _, total⟩ := lookupSwitchLength?_eq_some.mp known
  unfold lookupTargets
  rw [word32At?_congr fun i _ _ => same i (by omega) (by omega), atPairs]
  refine leads_congr fun pos member i lower upper => same i ?_ ?_ <;>
    (simp only [lookupPlaces, List.mem_cons, List.mem_map, List.mem_range] at member
     rcases member with rfl | ⟨place, inside, rfl⟩ <;> omega)

theorem jumpTargets_congr (same : Alike pc (pc + Opcode.jumpLength opcode) code other) :
    other.jumpTargets pc opcode = code.jumpTargets pc opcode := by
  have bounds := Opcode.jumpLength_pos opcode
  unfold jumpTargets
  split
  · rename_i long
    refine leads_congr fun pos member i lower upper => ?_
    cases List.mem_singleton.mp member
    exact same i (by omega) (by omega)
  · rw [word16At?_congr fun i lower upper => same i (by omega) (by omega)]

/-- Where an instruction leads to depends on its own bytes only. -/
theorem targets_congr (known : code.instructionLength? pc = some length)
    (same : Alike pc (pc + length) code other) : other.targets pc = code.targets pc := by
  have positive := instructionLength?_pos known
  unfold targets
  rw [same pc (Nat.le_refl pc) (by omega)]
  cases found : code[pc]? with
  | none => rfl
  | some opcode =>
    have measured := known
    simp only [instructionLength?, found] at measured ⊢
    split_ifs with table lookup jumps
    · rw [if_pos table] at measured
      exact tableTargets_congr measured same
    · rw [if_neg table, if_pos lookup] at measured
      exact lookupTargets_congr measured same
    · rw [instructionLength?_of_isJump found jumps] at known
      cases known
      exact jumpTargets_congr same
    · rfl

end Congr

end Bytes

theorem JumpAt.targets_eq (jump : JumpAt code base pc opcode) :
    code.targets pc = code.jumpTargets pc opcode := by
  have excluded : ∀ special, Opcode.isJump special = false → opcode ≠ special := by
    rintro _ stays rfl
    rw [jump.isJump] at stays
    cases stays
  unfold Bytes.targets
  rw [jump.found]
  simp only [if_neg (excluded Opcode.tableSwitch rfl), if_neg (excluded Opcode.lookupSwitch rfl),
    jump.isJump, if_true]

def IsOffsetOperand (table : Bool) (i : Nat) : Prop := i = 0 ∨ 3 ≤ i ∧ (table = true ∨ i % 2 = 1)

namespace SwitchPlace

variable {place : SwitchPlace}

def IsOffset (place : SwitchPlace) (pos : Nat) : Prop :=
  ∃ i < place.count, IsOffsetOperand place.table i ∧ pos = place.base + 4 * i

theorem IsOffset.isSlot (offset : place.IsOffset pos) : place.IsSlot pos := by
  obtain ⟨i, inside, which, rfl⟩ := offset
  refine ⟨i, inside, ?_, rfl⟩
  unfold header
  rcases which with first | ⟨later, _⟩
  · exact .inl first
  · right
    split <;> omega

theorem InCode.mem_targets (inCode : place.InCode base code)
    (leads : target ∈ code.targets place.start) :
    ∃ pos offset, place.IsOffset pos ∧ code.word32At? pos = some offset ∧
      target = place.start + offset.toInt := by
  have length := inCode.length
  have operands := inCode.operands
  have after := inCode.start_lt
  unfold Bytes.targets at leads
  unfold Bytes.instructionLength? at length
  rw [inCode.opcode] at leads length
  cases form : place.table with
  | true =>
    simp only [form, if_true] at leads length
    obtain ⟨low, high, atLow, atHigh, _, total⟩ := Bytes.tableSwitchLength?_eq_some.mp length
    simp only [Bytes.tableTargets, atLow, atHigh] at leads
    obtain ⟨pos, member, offset, found, rfl⟩ := Bytes.mem_leads.mp leads
    refine ⟨pos, offset, ?_, found, rfl⟩
    simp only [Bytes.tablePlaces, List.mem_cons, List.mem_map, List.mem_range] at member
    rcases member with rfl | ⟨i, inside, rfl⟩
    · exact ⟨0, by omega, .inl rfl, by omega⟩
    · exact ⟨3 + i, by omega, .inr ⟨by omega, .inl form⟩, by omega⟩
  | false =>
    have differ : Opcode.lookupSwitch ≠ Opcode.tableSwitch := by decide
    simp only [form, Bool.false_eq_true, if_false, if_neg differ, if_true] at leads length
    obtain ⟨pairs, atPairs, _, total⟩ := Bytes.lookupSwitchLength?_eq_some.mp length
    simp only [Bytes.lookupTargets, atPairs] at leads
    obtain ⟨pos, member, offset, found, rfl⟩ := Bytes.mem_leads.mp leads
    refine ⟨pos, offset, ?_, found, rfl⟩
    simp only [Bytes.lookupPlaces, List.mem_cons, List.mem_map, List.mem_range] at member
    rcases member with rfl | ⟨i, inside, rfl⟩
    · exact ⟨0, by omega, .inl rfl, by omega⟩
    · exact ⟨3 + 2 * i, by omega, .inr ⟨by omega, .inr (by omega)⟩, by omega⟩

end SwitchPlace

end ClassForge
