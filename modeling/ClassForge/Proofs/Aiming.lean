import ClassForge.Proofs.Targets

namespace ClassForge

variable {place : SwitchPlace} {pos base target pc : Nat} {opcode : UInt8} {b : Buffer}
  {code : Bytes} {places : List SwitchPlace}

namespace SwitchPlace

theorem IsOffset.inCode (offset : place.IsOffset pos) (slotted : Slotted 0 places code)
    (member : place ∈ places) : place.InCode 0 code := by
  rcases slotted place member with early | inCode
  · obtain ⟨i, inside, _⟩ := offset
    omega
  · exact inCode

end SwitchPlace

namespace Bytes

theorem jumpTargets_short {offset : Int16} (short : Opcode.jumpLength opcode = 3)
    (found : code.word16At? (pc + 1) = some offset) :
    code.jumpTargets pc opcode = [(pc : Int) + offset.toInt] := by
  rw [jumpTargets, if_neg (by omega), found]
  rfl

theorem jumpTargets_long {offset : Int32} (long : Opcode.jumpLength opcode = 5)
    (found : code.word32At? (pc + 1) = some offset) :
    code.jumpTargets pc opcode = [(pc : Int) + offset.toInt] := by
  rw [jumpTargets, if_pos long]
  simp [leads, found]

theorem word16At?_ofWord16 (word : Int16) (rest : Bytes) :
    word16At? (ofWord16 word.toUInt16 ++ rest) 0 = some word := by
  simp only [word16At?, ofWord16, List.cons_append, List.nil_append, List.getElem?_cons_zero,
    List.getElem?_cons_succ, Nat.zero_add, toWord16_ofWord16]
  rfl

end Bytes

theorem SwitchPlace.InCode.unique {other : SwitchPlace} (inCode : place.InCode base code)
    (inCode' : other.InCode base code) (same : place.start = other.start) : place = other := by
  have opcode := inCode.opcode
  have length := inCode.length
  have operands := inCode.operands
  have after := inCode.start_lt
  have after' := inCode'.start_lt
  rw [same, inCode'.opcode] at opcode
  rw [same, inCode'.length] at length
  rw [same, ← inCode'.operands] at operands
  have count := Option.some.inj length
  have form : place.table = other.table := by
    cases left : place.table <;> cases right : other.table
    · rfl
    · simp [left, right, Opcode.tableSwitch, Opcode.lookupSwitch] at opcode
    · simp [left, right, Opcode.tableSwitch, Opcode.lookupSwitch] at opcode
    · rfl
  obtain ⟨_, _, _, _⟩ := place
  obtain ⟨_, _, _, _⟩ := other
  simp only at same operands form count after after'
  simp only [SwitchPlace.mk.injEq]
  exact ⟨form, same, operands, by omega⟩

/-- Every instruction but the one at the position has the same bytes in the other code. -/
def Bytes.SameBut (pc : Nat) (code other : Bytes) : Prop :=
  ∀ q length, Boundary code 0 q → q < code.length → q ≠ pc →
    code.instructionLength? q = some length → Alike q (q + length) code other

namespace Bytes.SameBut

variable {other : Bytes} (same : SameBut pc code other)

include same

theorem targets_eq {q : Nat} (jump : JumpAt code 0 q opcode) (differ : q ≠ pc) :
    other.targets q = code.targets q :=
  targets_congr jump.instructionLength?
    (same q _ jump.boundary jump.lt_length differ jump.instructionLength?)

theorem word32At?_eq (slotted : Slotted 0 places code) (member : place ∈ places)
    (offset : place.IsOffset pos) (differ : place.start ≠ pc) :
    other.word32At? pos = code.word32At? pos := by
  have inCode := offset.inCode slotted member
  have after := inCode.start_lt
  obtain ⟨i, inside, _, rfl⟩ := offset
  exact word32At?_congr fun j _ _ =>
    same _ _ inCode.boundary inCode.lt_length differ inCode.length j (by omega) (by omega)

end Bytes.SameBut

/-- The operands in the code agree with the log, and with the positions that have been entered. -/
structure Aims (wide : Bool) (log : List (Nat × Nat)) (entries : List Nat)
    (places : List SwitchPlace) (filled : List Nat) (code : Bytes) : Prop where
  aimed : ∀ entry ∈ log, (wide = true → entry.1 < 0x80000000 ∧ entry.2 < 0x80000000) →
    code.targets entry.1 = [(entry.2 : Int)]
  blank : ∀ pc opcode, JumpAt code 0 pc opcode → writeCount log pc = 0 →
    code.targets pc = [(pc : Int)]
  opened : ∀ place ∈ places, ∀ pos, place.IsOffset pos → pos ∉ filled →
    code.word32At? pos = some (-1)
  closed : ∀ place ∈ places, ∀ pos, place.IsOffset pos → pos ∈ filled →
    ∃ offset, ∃ target ∈ entries, code.word32At? pos = some offset ∧ 0 ≤ offset.toInt ∧
      (place.start : Int) + offset.toInt = (target : Nat)
  owned : ∀ pos ∈ filled, ∃ place ∈ places, place.IsSlot pos
  listed : ∀ pc, Boundary code 0 pc →
    (code[pc]? = some Opcode.tableSwitch ∨ code[pc]? = some Opcode.lookupSwitch) →
    ∃ place ∈ places, place.start = pc

namespace Aims

variable {wide needsWide : Bool} {log : List (Nat × Nat)} {entries : List Nat} {pc : Nat}
  {sites : Multiset Nat} {places : List SwitchPlace} {filled : List Nat} {code other : Bytes}

theorem empty (wide : Bool) : Aims wide [] [] [] [] [] where
  aimed := by simp
  blank pc opcode jump := absurd jump.lt_length (Nat.not_lt_zero pc)
  opened := by simp
  closed := by simp
  owned := by simp
  listed := by simp

theorem logged_ne (wired : Wired wide needsWide 0 (pc ::ₘ sites) log code)
    {entry : Nat × Nat} (member : entry ∈ log) : entry.1 ≠ pc := by
  intro same
  have never := wired.unwritten pc (Multiset.mem_cons_self pc sites) (Nat.zero_le pc)
  have written := writeCount_pos member
  rw [same] at written
  omega

variable (aims : Aims wide log entries places filled code)

include aims

theorem aimed_eq (wired : Wired wide needsWide 0 sites log code) (same : Bytes.SameBut pc code other)
    {entry : Nat × Nat} (member : entry ∈ log) (differ : entry.1 ≠ pc)
    (small : wide = true → entry.1 < 0x80000000 ∧ entry.2 < 0x80000000) :
    other.targets entry.1 = [(entry.2 : Int)] := by
  obtain ⟨_, jump⟩ := wired.logged entry member (Nat.zero_le _)
  rw [same.targets_eq jump differ, aims.aimed entry member small]

/-- Only the instruction at a jump that waits is another one, or it is gone. -/
theorem rewrite (more : List (Nat × Nat)) (wired : Wired wide needsWide 0 (pc ::ₘ sites) log code)
    (slotted : Slotted 0 places code) (jump : JumpAt code 0 pc opcode)
    (kept : Bytes.SameBut pc code other)
    (decoded : ∀ entry ∈ more, (wide = true → entry.1 < 0x80000000 ∧ entry.2 < 0x80000000) →
      other.targets entry.1 = [(entry.2 : Int)])
    (starts : ∀ q, Boundary other 0 q → q < other.length → Boundary code 0 q ∧
      other[q]? = code[q]? ∧ (q = pc → writeCount more q ≠ 0)) :
    Aims wide (log ++ more) entries places filled other := by
  have words : ∀ place ∈ places, ∀ pos, place.IsOffset pos →
      other.word32At? pos = code.word32At? pos := fun place member pos offset =>
    kept.word32At?_eq slotted member offset ((offset.inCode slotted member).start_ne jump)
  refine ⟨?_, ?_, ?_, ?_, aims.owned, ?_⟩
  · intro entry member small
    rcases List.mem_append.mp member with old | new
    · exact aims.aimed_eq wired kept old (logged_ne wired old) small
    · exact decoded entry new small
  · intro q op found unwritten
    obtain ⟨boundary, same, written⟩ := starts q found.boundary found.lt_length
    have old : JumpAt code 0 q op := ⟨boundary, same ▸ found.found, found.isJump⟩
    rw [writeCount_append] at unwritten
    rw [kept.targets_eq old fun equal => written equal (by omega), aims.blank q op old (by omega)]
  · intro place member pos offset fresh
    rw [words place member pos offset]
    exact aims.opened place member pos offset fresh
  · intro place member pos offset done
    rw [words place member pos offset]
    exact aims.closed place member pos offset done
  · intro q boundary form
    have inside : q < other.length := by
      rcases form with form | form <;> exact (List.getElem?_eq_some_iff.mp form).1
    obtain ⟨old, same, _⟩ := starts q boundary inside
    rw [same] at form
    exact aims.listed q old form

theorem write (wired : Wired wide needsWide 0 (pc ::ₘ sites) log code)
    (slotted : Slotted 0 places code) (size : other.length = code.length)
    (same : ∀ i, i ≤ pc ∨ pc + siteLength wide ≤ i → other[i]? = code[i]?)
    (decoded : (wide = true → pc < 0x80000000 ∧ target < 0x80000000) →
      other.targets pc = [(target : Int)]) :
    Aims wide (log ++ [(pc, target)]) entries places filled other := by
  have layout := wired.sameLayout (Multiset.mem_cons_self pc sites) size same
  obtain ⟨opcode, jump, length⟩ :=
    wired.jumps pc (Multiset.mem_cons_self pc sites) (Nat.zero_le pc)
  rw [← length] at same
  refine aims.rewrite _ wired slotted jump (fun q length boundary _ differ found => ?_) ?_
    fun q boundary _ => ?_
  · exact jump.boundary.untouched jump.instructionLength? (fun i away => same i (by omega)) boundary
      found differ
  · rintro entry member small
    cases List.mem_singleton.mp member
    exact decoded small
  · have old := layout.back q boundary
    exact ⟨old, layout.opcode q old, fun equal => by simp [equal]⟩

theorem take_of_last (wired : Wired wide needsWide 0 (pc ::ₘ sites) log code)
    (slotted : Slotted 0 places code) (last : pc + 3 = code.length) :
    Aims wide log entries places filled (code.take pc) := by
  obtain ⟨_, opcode, jump⟩ := wired.boundary_of_last (Multiset.mem_cons_self pc sites) last
  have positive := Opcode.jumpLength_pos opcode
  rw [← List.append_nil log]
  refine aims.rewrite [] wired slotted jump (fun q length boundary inside differ found i lower upper =>
    ?_) (by simp) fun q boundary inside => ?_
  · -- Every other instruction ends where the jump starts, or before that.
    rcases boundary.apart jump.boundary found jump.instructionLength? differ with before | after
    · exact List.getElem?_take_of_lt (by omega)
    · omega
  · rw [List.length_take] at inside
    exact ⟨boundary.of_take, List.getElem?_take_of_lt (by omega), by omega⟩

/-- An instruction is appended, with the targets that it comes with. -/
theorem extend {bytes : Bytes} (more : List (Nat × Nat)) (added : List SwitchPlace)
    (wired : Wired wide needsWide 0 sites log code) (slotted : Slotted 0 places code)
    (complete : (code ++ bytes).instructionLength? code.length = some bytes.length)
    (aimed : ∀ entry ∈ more, (code ++ bytes).targets entry.1 = [(entry.2 : Int)])
    (blank : ∀ opcode, bytes.head? = some opcode → Opcode.isJump opcode = true →
      writeCount more code.length = 0 → (code ++ bytes).targets code.length = [(code.length : Int)])
    (slots : ∀ place ∈ added, ∀ pos, place.IsOffset pos →
      code.length ≤ pos ∧ (code ++ bytes).word32At? pos = some (-1))
    (listed : bytes.head? = some Opcode.tableSwitch ∨ bytes.head? = some Opcode.lookupSwitch →
      ∃ place ∈ added, place.start = code.length) :
    Aims wide (log ++ more) entries (added ++ places) filled (code ++ bytes) := by
  have kept : Bytes.SameBut code.length code (code ++ bytes) := by
    intro q length boundary inside _ found i lower upper
    obtain ⟨_, measured, fits⟩ := boundary.instruction_le wired.tiled inside
    rw [found] at measured
    cases measured
    exact List.getElem?_append_left (by omega)
  have word : ∀ place ∈ places, ∀ pos, place.IsOffset pos →
      (code ++ bytes).word32At? pos = code.word32At? pos := by
    intro place member pos offset
    exact kept.word32At?_eq slotted member offset
      (Nat.ne_of_lt (offset.inCode slotted member).lt_length)
  refine ⟨?_, ?_, ?_, ?_, ?_, ?_⟩
  · intro entry member small
    rcases List.mem_append.mp member with old | new
    · obtain ⟨op, written⟩ := wired.logged entry old (Nat.zero_le _)
      exact aims.aimed_eq wired kept old (Nat.ne_of_lt written.lt_length) small
    · exact aimed entry new
  · intro q op found unwritten
    rw [writeCount_append] at unwritten
    rcases wired.jumpAt_append complete found with old | ⟨rfl, head⟩
    · rw [kept.targets_eq old (Nat.ne_of_lt old.lt_length), aims.blank q op old (by omega)]
    · exact blank op head found.isJump (by omega)
  · intro place member pos offset fresh
    rcases List.mem_append.mp member with new | old
    · exact (slots place new pos offset).2
    · rw [word place old pos offset]
      exact aims.opened place old pos offset fresh
  · intro place member pos offset done
    rcases List.mem_append.mp member with new | old
    · -- No operand of a new switch has been filled in.
      obtain ⟨owner, among, i, less, _, rfl⟩ := aims.owned pos done
      have late := (slots place new _ offset).1
      rcases slotted owner among with early | inCode
      · omega
      · have := inCode.end_le wired.tiled inCode.lt_length
        omega
    · rw [word place old pos offset]
      exact aims.closed place old pos offset done
  · intro pos done
    obtain ⟨place, member, slot⟩ := aims.owned pos done
    exact ⟨place, List.mem_append_right added member, slot⟩
  · intro q boundary form
    have cases {opcode : UInt8} (found : (code ++ bytes)[q]? = some opcode) :=
      wired.tiled.append_cases complete boundary found
    have either : (code[q]? = some Opcode.tableSwitch ∨ code[q]? = some Opcode.lookupSwitch) ∧
        Boundary code 0 q ∨ q = code.length ∧ (bytes.head? = some Opcode.tableSwitch ∨
          bytes.head? = some Opcode.lookupSwitch) := by
      rcases form with form | form <;> have := cases form <;> tauto
    rcases either with ⟨known, old⟩ | ⟨rfl, head⟩
    · obtain ⟨place, member, here⟩ := aims.listed q old known
      exact ⟨place, List.mem_append_right added member, here⟩
    · obtain ⟨place, member, here⟩ := listed head
      exact ⟨place, List.mem_append_left places member, here⟩

/-- An operand of a switch is filled in; an offset leads to a position that has been entered. -/
theorem of_filled_slot {word : Int32} (wired : Wired wide needsWide 0 sites log code)
    (slotted : Slotted 0 places code) (member : place ∈ places) (slot : place.IsSlot pos)
    (size : other.length = code.length) (same : ∀ i, i < pos ∨ pos + 4 ≤ i → other[i]? = code[i]?)
    (written : other.word32At? pos = some word) (leads : place.IsOffset pos → 0 ≤ word.toInt ∧
      ∃ target ∈ entries, (place.start : Int) + word.toInt = (target : Nat)) :
    Aims wide log entries places (pos :: filled) other := by
  have inCode : place.InCode 0 code := by
    obtain ⟨i, less, _⟩ := slot
    exact (slotted place member).resolve_left (by omega)
  have layout := inCode.fill slot size same
  have after := inCode.start_lt
  have inside : place.base ≤ pos ∧ pos + 4 ≤ place.base + 4 * place.count := by
    obtain ⟨i, less, _, rfl⟩ := slot
    omega
  have kept : Bytes.SameBut place.start code other := fun q length boundary _ differ found =>
    inCode.boundary.untouched inCode.length (fun i away => same i (by omega)) boundary found differ
  have words : ∀ place' ∈ places, ∀ pos', place'.IsOffset pos' → pos' ≠ pos →
      other.word32At? pos' = code.word32At? pos' := by
    intro place' member' pos' slot' differ
    by_cases equal : place'.start = place.start
    · cases (slot'.inCode slotted member').unique inCode equal
      -- Operands of one switch are whole words apart.
      refine Bytes.word32At?_congr fun i lower upper => same i ?_
      obtain ⟨j, _, _, rfl⟩ := slot
      obtain ⟨k, _, _, rfl⟩ := slot'
      omega
    · exact kept.word32At?_eq slotted member' slot' equal
  refine ⟨?_, ?_, ?_, ?_, ?_, ?_⟩
  · intro entry member small
    obtain ⟨op, jump⟩ := wired.logged entry member (Nat.zero_le _)
    exact aims.aimed_eq wired kept member (inCode.start_ne jump).symm small
  · intro q op found unwritten
    have jump := layout.symm.jumpAt found
    rw [kept.targets_eq jump (inCode.start_ne jump).symm, aims.blank q op jump unwritten]
  · intro place' member' pos' slot' fresh
    simp only [List.mem_cons, not_or] at fresh
    rw [words place' member' pos' slot' fresh.1]
    exact aims.opened place' member' pos' slot' fresh.2
  · intro place' member' pos' slot' done
    by_cases here : pos' = pos
    · subst here
      have start : place' = place := by
        have inCode' := slot'.inCode slotted member'
        by_contra other'
        -- Different switches take different bytes.
        have differ : place'.start ≠ place.start := fun equal =>
          other' (inCode'.unique inCode equal)
        have apart := inCode'.boundary.apart inCode.boundary inCode'.length inCode.length differ
        have after' := inCode'.start_lt
        obtain ⟨j, less, _, rfl⟩ := slot'
        omega
      cases start
      obtain ⟨positive, target, entered, equal⟩ := leads slot'
      exact ⟨word, target, entered, written, positive, equal⟩
    · rw [words place' member' pos' slot' here]
      exact aims.closed place' member' pos' slot' ((List.mem_cons.mp done).resolve_left here)
  · intro pos' done
    rcases List.mem_cons.mp done with rfl | old
    · exact ⟨place, member, slot⟩
    · exact aims.owned pos' old
  · intro q boundary form
    have old := layout.back q boundary
    rw [layout.opcode q old] at form
    exact aims.listed q old form

theorem mono {more : List Nat} (grows : ∀ p ∈ entries, p ∈ more) :
    Aims wide log more places filled code :=
  { aims with
    closed := fun place member pos offset done => by
      obtain ⟨word, target, entered, rest⟩ := aims.closed place member pos offset done
      exact ⟨word, target, grows target entered, rest⟩ }

end Aims

namespace Buffer

theorem getElem?_overwrite (bytes : Bytes) {i : Nat} (inside : pos + bytes.length ≤ b.code.size)
    (less : i < bytes.length) : (b.overwrite pos bytes).bytes[pos + i]? = bytes[i]? := by
  rw [bytes_overwrite, if_pos ⟨by omega, by omega, by omega⟩, Nat.add_sub_cancel_left]

theorem word16At?_overwrite (word : Int16) (inside : pos + 2 ≤ b.code.size) :
    (b.overwrite pos (Bytes.ofWord16 word.toUInt16)).bytes.word16At? pos = some word := by
  have byte {i : Nat} (less : i < 2) := getElem?_overwrite (b := b)
    (Bytes.ofWord16 word.toUInt16) inside less
  rw [← Bytes.word16At?_ofWord16 word [], List.append_nil, Bytes.word16At?, Bytes.word16At?,
    ← byte (by decide : 0 < 2), ← byte (by decide : 1 < 2)]
  rfl

theorem word32At?_overwrite (word : Int32) (inside : pos + 4 ≤ b.code.size) :
    (b.overwrite pos (Bytes.ofWord32 word.toUInt32)).bytes.word32At? pos = some word := by
  have byte {i : Nat} (less : i < 4) := getElem?_overwrite (b := b)
    (Bytes.ofWord32 word.toUInt32) inside less
  rw [← Bytes.word32At?_ofWord32 word [], List.append_nil, Bytes.word32At?, Bytes.word32At?,
    ← byte (by decide : 0 < 4), ← byte (by decide : 1 < 4), ← byte (by decide : 2 < 4),
    ← byte (by decide : 3 < 4)]
  rfl

end Buffer

namespace Asm

variable {ctx : Context}

theorem targets_patched (jump : JumpAt b.bytes 0 pc opcode)
    (tiled : Boundary b.bytes 0 b.bytes.length)
    (length : Opcode.jumpLength opcode = siteLength ctx.wide)
    (layout : SameLayout 0 b.bytes (b.overwrite (pc + 1) (offsetBytes ctx pc target)).bytes)
    (fits : ctx.wide = true ∨ InReach pc target)
    (small : ctx.wide = true → pc < 0x80000000 ∧ target < 0x80000000) :
    (b.overwrite (pc + 1) (offsetBytes ctx pc target)).bytes.targets pc = [(target : Int)] := by
  have inside := jump.end_le tiled jump.lt_length
  rw [Buffer.length_bytes, length] at inside
  rw [(layout.jumpAt jump).targets_eq]
  cases wide : ctx.wide with
  | false =>
    simp only [siteLength, wide, Bool.false_eq_true, if_false] at inside length
    obtain ⟨lower, upper⟩ := fits.resolve_left (by simp [wide])
    have found := Buffer.word16At?_overwrite (b := b) (Int16.ofInt ((target : Int) - pc))
      (show pc + 1 + 2 ≤ b.code.size by omega)
    rw [show offsetBytes ctx pc target = Bytes.ofWord16 (Int16.ofInt ((target : Int) - pc)).toUInt16 by
      simp [offsetBytes, wide], Bytes.jumpTargets_short length found,
      Int16.toInt_ofInt_of_le (by omega) (by omega)]
    congr 1
    omega
  | true =>
    simp only [siteLength, wide, if_true] at inside length
    obtain ⟨low, high⟩ := small wide
    have found := Buffer.word32At?_overwrite (b := b) (Int32.ofInt ((target : Int) - pc))
      (show pc + 1 + 4 ≤ b.code.size by omega)
    rw [show offsetBytes ctx pc target = Bytes.ofWord32 (Int32.ofInt ((target : Int) - pc)).toUInt32 by
      simp [offsetBytes, wide], Bytes.jumpTargets_long length found,
      Int32.toInt_ofInt_of_le (by omega) (by omega)]
    congr 1
    omega

theorem aims_patch {sites : Multiset Nat} {entries : List Nat} {log : List (Nat × Nat)}
    {filled : List Nat} {b' : Buffer} (aims : Aims ctx.wide log entries places filled b.bytes)
    (wired : Wired ctx.wide b.needsWide 0 (pc ::ₘ sites) log b.bytes)
    (slotted : Slotted 0 places b.bytes) (run : patch pc target ctx b = .ok () b') :
    Aims ctx.wide (log ++ writes ctx pc target) entries places filled b'.bytes := by
  have length := length_offsetBytes ctx pc target
  have self := Multiset.mem_cons_self pc sites
  rcases patch_ok run with ⟨fits, rfl⟩ | ⟨narrow, beyond, rfl⟩
  · have same : ∀ i, i ≤ pc ∨ pc + siteLength ctx.wide ≤ i →
        (b.overwrite (pc + 1) (offsetBytes ctx pc target)).bytes[i]? = b.bytes[i]? := by
      intro i away
      rw [Buffer.bytes_overwrite, if_neg (by omega)]
    obtain ⟨opcode, jump, long⟩ := wired.jumps pc self (Nat.zero_le pc)
    rw [writes, if_pos fits]
    exact aims.write wired slotted (by simp) same
      (targets_patched jump wired.tiled long (wired.sameLayout self (by simp) same) fits)
  · rw [writes, if_neg (by simp [narrow, beyond]), List.append_nil]
    exact aims

end Asm

end ClassForge
