import ClassForge.Proofs.Finishing

namespace ClassForge

namespace Asm

variable {e : Error}
variable {α β : Type} {ctx : Context} {b b' : Buffer} {f : α → Asm β}

def WithinLimits (b : Buffer) : Prop :=
  b.code.size ≤ maxCodeLength ∧ b.maxLocals ≤ maxLocalCount ∧ b.maxStack ≤ maxStackDepth

instance (b : Buffer) : Decidable (WithinLimits b) := inferInstanceAs (Decidable (_ ∧ _ ∧ _))

theorem checkLimits_ok {y : Unit} :
    checkLimits ctx b = .ok y b' ↔ WithinLimits b ∧ b = b' := by
  unfold checkLimits WithinLimits
  simp only [bind_ok, get_ok, ite_ok, throw_ok, false_and, exists_false, and_false, false_or,
    pure_ok, Nat.not_lt, gt_iff_lt]
  constructor
  · rintro ⟨_, _, ⟨rfl, rfl⟩, code, locals, stack, _, rfl⟩
    exact ⟨⟨code, locals, stack⟩, rfl⟩
  · rintro ⟨⟨code, locals, stack⟩, rfl⟩
    exact ⟨b, b, ⟨rfl, rfl⟩, code, locals, stack, trivial, rfl⟩

theorem bind_error {x : Asm α} :
    (x >>= f) ctx b = .error e b' ↔
      x ctx b = .error e b' ∨ ∃ a between, x ctx b = .ok a between ∧ f a ctx between = .error e b' := by
  change EStateM.bind (x ctx) (fun a => f a ctx) b = _ ↔ _
  unfold EStateM.bind
  cases x ctx b with
  | error early between => simp
  | ok a between => simp

theorem finish_reports (within : WithinLimits b) (positive : 0 < b.unresolved) :
    finish ctx b = .error (.machine b.code.size (.unresolvedJumps b.unresolved)) b := by
  have checked : checkLimits ctx b = .ok () b := checkLimits_ok.mpr ⟨within, rfl⟩
  unfold finish
  refine bind_error.mpr (.inr ⟨(), b, checked, bind_error.mpr (.inr ⟨b, b, rfl, ?_⟩)⟩)
  rw [if_pos positive]
  exact bind_error.mpr (.inl rfl)

/-- The end reports unresolved jumps if there are any and the body is within the limits, and in no
other case. -/
theorem finish_unresolved {n : Nat} :
    (∃ pc b', finish ctx b = .error (.machine pc (.unresolvedJumps n)) b') ↔
      WithinLimits b ∧ b.unresolved = n ∧ 0 < n := by
  constructor
  · rintro ⟨pc, b', failed⟩
    by_cases within : WithinLimits b
    · by_cases resolved : b.unresolved = 0
      · exact ((draws_finish resolved).tameAt _ _ failed).elim
      · rw [finish_reports within (by omega)] at failed
        cases failed
        exact ⟨within, rfl, by omega⟩
    · rcases bind_error.mp failed with limited | ⟨_, _, checked, _⟩
      · exact (draws_checkLimits.tameAt _ _ limited).elim
      · exact absurd (checkLimits_ok.mp checked).1 within
  · rintro ⟨within, rfl, positive⟩
    exact ⟨_, _, finish_reports within positive⟩

theorem finish_ok {code : Code} (run : finish ctx b = .ok code b') :
    WithinLimits b ∧ b.unresolved = 0 ∧ code.code = b.bytes := by
  unfold finish at run
  simp only [bind_ok, checkLimits_ok, get_ok] at run
  obtain ⟨_, _, ⟨within, rfl⟩, _, _, ⟨rfl, rfl⟩, run⟩ := run
  refine ⟨within, ?_⟩
  rcases ite_ok.mp run with ⟨_, run⟩ | ⟨none, run⟩
  · simp only [bind_ok, fault_ok, false_and, exists_false] at run
  · simp only [bind_ok, pure_ok] at run
    obtain ⟨_, _, _, _, _, _, _, _, _, _, _, _, rfl, _⟩ := run
    exact ⟨by omega, rfl⟩

theorem finish_finished {code : Code} (run : finish ctx b = .ok code b') :
    ∃ later, b' = { b with pool := later } ∧ b.pool.Stocked later ∧ Finished ctx b code later :=
  (draws_finish (finish_ok run).2.1).ok run

end Asm

namespace Session

variable {ctx : Context} {pool : Pool} {s : Session}

theorem Reach.wired (reach : Reach ctx pool s) :
    Wired ctx.wide s.buffer.needsWide 0 s.sites s.written s.buffer.bytes :=
  reach.accounted.carries.wired

/-- In every session the unresolved jumps have distinct positions, each of them is a jump in the
code, and the buffer knows their number. No call finds a position without a jump. The end reports the
unresolved jumps as long as the limits are kept, and in a finished body whose offsets all fit every
jump has had its offset written once. -/
theorem Reach.jump_graph {ctx : Context} {pool : Pool} {s : Session} (reach : Reach ctx pool s) :
    s.sites.Nodup ∧
    (∀ pc ∈ s.sites, ∃ opcode, s.buffer.bytes[pc]? = some opcode ∧ Opcode.isJump opcode = true ∧
      pc + Opcode.jumpLength opcode ≤ s.buffer.code.size) ∧
    s.buffer.unresolved =
      Multiset.card (s.buffer.pending.pcs + s.held) + Multiset.card s.discarded ∧
    (∀ {α : Type} (call : Call α) (e : Error) (b : Buffer), call.takes ≤ s.held →
      call.perform ctx s.buffer = .error e b → ∀ at_ pc, e ≠ .machine at_ (.notABranch pc)) ∧
    (∀ n, (∃ pc b, Asm.finish ctx s.buffer = .error (.machine pc (.unresolvedJumps n)) b) ↔
      Asm.WithinLimits s.buffer ∧ Multiset.card s.sites = n ∧ 0 < n) ∧
    ∀ code b, Asm.finish ctx s.buffer = .ok code b → s.buffer.needsWide = false →
      Boundary code.code 0 code.code.length ∧
      ∀ pc opcode, JumpAt code.code 0 pc opcode → writeCount s.written pc = 1 := by
  have wired := reach.wired
  have count : s.buffer.unresolved = Multiset.card s.sites := reach.accounted.carries.count
  refine ⟨wired.distinct, ?_, ?_, ?_, ?_, ?_⟩
  · intro pc waiting
    obtain ⟨opcode, jump, _⟩ := wired.jumps pc waiting (Nat.zero_le pc)
    have inside := jump.end_le wired.tiled jump.lt_length
    rw [Buffer.length_bytes] at inside
    exact ⟨opcode, jump.found, jump.isJump, inside⟩
  · rw [count, sites, ← add_assoc, Multiset.card_add]
  · rintro α call e b owns failed at_ pc rfl
    exact reach.tameAt owns _ _ failed
  · intro n
    rw [Asm.finish_unresolved, count]
  · intro code b finished short
    obtain ⟨_, resolved, same⟩ := Asm.finish_ok finished
    rw [same]
    refine ⟨wired.tiled, fun pc opcode jump => ?_⟩
    have none : pc ∉ s.sites := by
      have empty : s.sites = 0 := Multiset.card_eq_zero.mp (count.symm.trans resolved)
      rw [empty]
      exact Multiset.notMem_zero pc
    rcases wired.settled pc opcode jump none with once | ⟨long, _⟩
    · exact once
    · rw [short] at long
      cases long

/-- A buffer that emitting `nop` only makes longer. -/
structure Idle (b : Buffer) : Prop where
  alive : b.alive = true
  pending : b.pending = []
  line : b.pendingLine = none
  frame : b.frameDue = false

theorem Idle.emit_nop (ctx : Context) {b : Buffer} (idle : Idle b) :
    ∃ b', Asm.emit .nop ctx b = .ok () b' ∧ Idle b' ∧ b'.code.size = b.code.size + 1 := by
  obtain ⟨pool, code, state, alive, needsWide, fixed, pending, unresolved, frameDue, pendingLine⟩ := b
  obtain ⟨rfl, rfl, rfl, rfl⟩ := idle
  refine ⟨_, rfl, ⟨rfl, rfl, rfl, rfl⟩, ?_⟩
  exact Array.size_push _

theorem Reach.nops (reach : Reach ctx pool s) (idle : Idle s.buffer) (count : Nat) :
    ∃ s', Reach ctx pool s' ∧ Idle s'.buffer ∧ s'.buffer.code.size = s.buffer.code.size + count ∧
      s'.held = s.held ∧ s'.discarded = s.discarded := by
  induction count with
  | zero => exact ⟨s, reach, idle, rfl, rfl, rfl⟩
  | succ count ih =>
    obtain ⟨t, reached, idle, size, held, discarded⟩ := ih
    obtain ⟨b, emitted, idle, longer⟩ := Idle.emit_nop ctx idle
    obtain ⟨log, reached⟩ := reached.perform (.emit .nop) (permits_of_plain rfl rfl trivial) emitted
    refine ⟨_, reached, idle, ?_, ?_, ?_⟩
    · change b.code.size = _
      omega
    · simpa [after, Call.takes, Call.gives] using held
    · simpa [after, Call.discards] using discarded

def bareContext : Context := ⟨.empty, .object, ⟨false, false, false⟩, false⟩

theorem exists_unresolved : ∃ s, Reach bareContext .empty s ∧ Idle s.buffer ∧
    s.buffer.code.size = 3 ∧ s.held = {0} ∧ s.discarded = 0 := by
  have begins : Reach bareContext .empty (start .empty) := .start
  obtain ⟨log, reached⟩ := begins.perform .jsr (permits_of_plain rfl rfl trivial) rfl
  exact ⟨_, reached, ⟨rfl, rfl, rfl, rfl⟩, rfl, rfl, rfl⟩

/-- Beyond the limits an unresolved jump is not what the end reports. -/
theorem oversized_not_reported : ∃ s, Reach bareContext .empty s ∧ Multiset.card s.sites = 1 ∧
    ∀ pc n b, Asm.finish bareContext s.buffer ≠ .error (.machine pc (.unresolvedJumps n)) b := by
  obtain ⟨s, reach, idle, size, held, discarded⟩ := exists_unresolved
  obtain ⟨t, reached, idle, longer, sameHeld, sameDiscarded⟩ := reach.nops idle 65533
  refine ⟨t, reached, ?_, ?_⟩
  · rw [sites, idle.pending, sameHeld, held, sameDiscarded, discarded]
    rfl
  · intro pc n b reported
    have within := (Asm.finish_unresolved.mp ⟨pc, b, reported⟩).1.1
    rw [longer, size] at within
    exact absurd within (by decide)

/-- A subroutine call that is never placed is reported. -/
theorem jump_graph_unresolved : ∃ s, Reach bareContext .empty s ∧
    ∃ pc b, Asm.finish bareContext s.buffer = .error (.machine pc (.unresolvedJumps 1)) b := by
  have begins : Reach bareContext .empty (start .empty) := .start
  obtain ⟨log, reached⟩ := begins.perform .jsr (permits_of_plain rfl rfl trivial) rfl
  obtain ⟨_, _, _, _, reports, _⟩ := reached.jump_graph
  refine ⟨_, reached, (reports 1).mpr ⟨⟨?_, ?_, ?_⟩, rfl, Nat.one_pos⟩⟩ <;>
    exact Nat.le_of_ble_eq_true rfl

end Session

end ClassForge
