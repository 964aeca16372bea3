import ClassForge.Proofs.Session

namespace ClassForge

/-- Code that is appended, with the pool after it, the jumps in it that wait, the offset in it that is
already right, whether the code goes on after it, the switch in it and what makes it complete. -/
structure Addition where
  bytes : Bytes
  pool : Pool
  sites : Multiset Nat := 0
  log : List (Nat × Nat) := []
  goes : Bool := true
  places : List SwitchPlace := []
  whole : Prop := True

namespace Addition

/-- What can be appended: an instruction, a switch, or a jump with a jump over it if it is wide. -/
inductive Fits (wide : Bool) (code : Bytes) (pool : Pool) : Addition → Prop
  | plain {instruction : Instruction} {bytes : Bytes} {later : Pool} :
      instruction.encode pool = .ok bytes later →
      Fits wide code pool { bytes, pool := later, goes := !instruction.isTerminal }
  | switch (table : Bool) (operands : List Int32) : Fits wide code pool
      { bytes := .ofSwitch table code.length operands, pool
        places := [⟨table, code.length, Bytes.switchBase code.length, operands.length⟩]
        whole := SwitchOperands table operands }
  | jump {opcode : UInt8} {bytes : Bytes} {back : Nat} : IsShortJump opcode →
      Asm.jumpBytes wide opcode = some (bytes, back) → Fits wide code pool
      { bytes, pool, sites := {code.length + bytes.length - back}
        log := Asm.skips bytes back code.length, goes := decide (opcode ≠ Opcode.goto) }

variable {wide : Bool} {code : Bytes} {pool : Pool} {new : Addition}

section

variable (fits : new.Fits wide code pool)

include fits

theorem Fits.ne_nil : new.bytes ≠ [] := by
  cases fits with
  | plain encoded =>
    rintro rfl
    cases (Instruction.isPlain_encode encoded).complete
  | switch => exact List.cons_ne_nil _ _
  | jump _ chosen =>
    rintro rfl
    rcases Asm.jumpBytes_cases chosen with ⟨_, none, _⟩ | ⟨_, _, ⟨none, _⟩ | ⟨none, _⟩⟩ |
      ⟨_, _, _, _, _, _, none⟩ <;> cases none

theorem Fits.head_ne (other : new.sites = 0 ∨ new.goes = true) :
    new.bytes.head? ≠ some Opcode.goto := by
  cases fits with
  | plain encoded => exact fun head => nomatch (Instruction.isPlain_encode encoded).noJump _ head
  | switch table =>
    cases table <;> simp [Bytes.ofSwitch, Opcode.tableSwitch, Opcode.lookupSwitch, Opcode.goto]
  | jump valid chosen =>
    have noGoto := of_decide_eq_true (other.resolve_left (by simp))
    rcases Asm.jumpBytes_cases chosen with ⟨_, rfl, _⟩ | ⟨_, _, ⟨rfl, _⟩ | ⟨rfl, _⟩⟩ |
      ⟨_, _, _, _, negated, known, rfl⟩
    · simpa using noGoto
    · dsimp only
      decide
    · dsimp only
      decide
    · simpa using (valid.opposite negated known).2.2

theorem Fits.lands {entry : Nat × Nat} (member : entry ∈ new.log) :
    entry.2 = (code ++ new.bytes).length ∧ new.goes = true := by
  cases fits with
  | plain | switch => cases member
  | jump valid chosen =>
    unfold Asm.skips at member
    split at member
    · cases member
    rename_i long
    cases List.mem_singleton.mp member
    rw [List.length_append]
    rcases Asm.jumpBytes_cases chosen with ⟨_, rfl, rfl⟩ | ⟨_, rfl, ⟨rfl, _⟩ | ⟨rfl, _⟩⟩ |
      ⟨_, _, noGoto, _⟩
    · exact absurd rfl long
    · exact absurd rfl long
    · exact absurd rfl long
    · exact ⟨rfl, decide_eq_true noGoto⟩

theorem Fits.wired {needsWide : Bool} {base : Nat} {sites : Multiset Nat} {log : List (Nat × Nat)}
    (whole : new.whole) (wired : Wired wide needsWide base sites log code) :
    Wired wide needsWide base (new.sites + sites) (log ++ new.log) (code ++ new.bytes) := by
  cases fits with
  | plain encoded =>
    simpa using wired.appendNext ((Instruction.isPlain_encode encoded).isNext code)
  | switch => simpa using wired.appendNext (SwitchOperands.isNext code whole)
  | jump valid chosen => exact Asm.wired_jump valid chosen wired

end

end Addition

/-- Code is appended to that of a buffer. A jump to its end makes sure that the end stays. -/
structure Asm.Adds (ctx : Context) (b b' : Buffer) (new : Addition) : Prop
    extends Grows ctx b b' new.bytes new.pool new.goes (Multiset.card new.sites) where
  fits : new.Fits ctx.wide b.bytes b.pool
  marks : new.log ≠ [] → b'.fixed = true ∧ b'.frameDue = ctx.settings.stackMaps

namespace Buffer.Core

/-- The waiting jumps of a buffer are the pending ones and the rest, and their number is right. -/
structure Carries (wide : Bool) (base : Nat) (rest : Multiset Nat) (log : List (Nat × Nat))
    (core : Core) : Prop where
  wired : Wired wide core.needsWide base (core.pending.pcs + rest) log core.bytes
  count : core.unresolved = Multiset.card (core.pending.pcs + rest)

variable {ctx : Context} {wide : Bool} {base : Nat} {rest : Multiset Nat}
  {log more : List (Nat × Nat)} {b b' : Buffer}

namespace Carries

variable {core : Core} {chain : Chain}

theorem lands {target : Nat} (carries : b.core.Carries ctx.wide base (chain.pcs + rest) log)
    (lands : Asm.Lands ctx chain target b b' more) :
    b'.core.Carries ctx.wide base rest (log ++ more) := by
  obtain ⟨samePending, fewer, _⟩ := lands.frame
  have count := carries.count
  rw [add_left_comm, Multiset.card_add, Chain.card_pcs] at count
  refine ⟨?_, ?_⟩
  · have wired := carries.wired
    rw [add_left_comm] at wired
    change Wired ctx.wide b'.needsWide base (b'.pending.pcs + rest) (log ++ more) b'.bytes
    rw [samePending]
    obtain ⟨merged, b1, resolved, rfl⟩ := lands
    have settled := resolved.wired wired
    cases merged <;> exact settled
  · change b'.unresolved = Multiset.card (b'.pending.pcs + rest)
    change b.unresolved = _ at count
    rw [samePending, fewer, count]
    exact Nat.add_sub_cancel_left _ _

theorem relieve (carries : core.Carries wide base rest log) :
    Carries wide base (core.pending.pcs + rest) log { core with pending := [] } := by
  refine ⟨?_, ?_⟩
  · simpa using carries.wired
  · simpa using carries.count

theorem flushes (carries : b.core.Carries ctx.wide base rest log)
    (flushes : Asm.Flushes ctx b b' more) : b'.core.Carries ctx.wide base rest (log ++ more) :=
  lands carries.relieve flushes

theorem split {kept : Chain} {taken : Multiset Nat} (carries : core.Carries wide base rest log)
    (split : core.pending.pcs = kept.pcs + taken) :
    Carries wide base (taken + rest) log { core with pending := kept } := by
  have total : core.pending.pcs + rest = kept.pcs + (taken + rest) := by rw [split, add_assoc]
  exact ⟨total ▸ carries.wired, total ▸ carries.count⟩

/-- An instruction at the end brings its own jumps with it and leaves the others in order. -/
theorem adds {new : Addition} (carries : b.core.Carries ctx.wide base rest log) (whole : new.whole)
    (adds : Asm.Adds ctx b b' new) :
    b'.core.Carries ctx.wide base (new.sites + rest) (log ++ new.log) := by
  rw [adds.core]
  refine ⟨?_, ?_⟩
  · rw [add_left_comm]
    exact adds.fits.wired whole carries.wired
  · change b.unresolved + _ = _
    rw [add_left_comm, Multiset.card_add, ← carries.count]
    exact add_comm _ _

theorem scopesEnd (carries : b.core.Carries ctx.wide base rest log)
    (ended : Asm.ScopesEnd ctx b b' more) : b'.core.Carries ctx.wide base rest (log ++ more) := by
  rcases ended with ⟨only, rfl⟩ | ⟨c, d, before, flushes, only⟩
  · rw [only.core_eq, List.append_nil]
    exact carries
  · rw [← before.core_eq] at carries
    have flushed := carries.flushes flushes
    rw [← Asm.core_marked ctx] at flushed
    rw [only.core_eq]
    exact ⟨flushed.wired, flushed.count⟩

end Carries

end Buffer.Core

end ClassForge
