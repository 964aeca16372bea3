import ClassForge.Proofs.Session

namespace ClassForge

namespace Asm

variable {instruction : Instruction} {pc : Nat}
variable {ctx : Context} {b b' : Buffer}

theorem dead_of_emit (ends : instruction.isTerminal = true)
    (run : emit instruction ctx b = .ok () b') : b'.isAlive = false := by
  rcases emit_core run with ⟨dead, rfl⟩ | ⟨c, _, bytes, later, flushes, _, grows⟩
  · exact dead
  · have dead : b'.alive = !instruction.isTerminal := congrArg Buffer.Core.alive grows.core
    have none : b'.pending = [] := (congrArg Buffer.Core.pending grows.core).trans flushes.pending_eq
    simp [Buffer.isAlive, dead, ends, none]

theorem alive_of_emit (alive : b.isAlive = true) (goes : instruction.isTerminal = false)
    (run : emit instruction ctx b = .ok () b') : b'.isAlive = true := by
  rcases emit_core run with ⟨dead, _⟩ | ⟨c, _, bytes, later, flushes, _, grows⟩
  · rw [alive] at dead
    cases dead
  · have on : b'.alive = !instruction.isTerminal := congrArg Buffer.Core.alive grows.core
    simp [Buffer.isAlive, on, goes]

theorem dead_of_goto {chain : Chain} (run : branch .goto ctx b = .ok chain b') :
    b'.isAlive = false := by
  rcases branch_ok run with ⟨rfl, _, silent⟩ | ⟨opcode, pc, b1, known, alive, jumped, _, rfl⟩
  · exact silent.resolve_left nofun
  · cases known
    obtain ⟨c, _, bytes, back, flushes, _, _, grows, _⟩ := emitJump_core alive jumped
    have stopped : b1.alive = false := congrArg Buffer.Core.alive grows.core
    have none : b1.pending = [] := (congrArg Buffer.Core.pending grows.core).trans flushes.pending_eq
    simp [Buffer.isAlive, stopped, none]

/-- Asking for the position in dead code does not make it reachable. -/
theorem position_of_dead (dead : b.isAlive = false) (run : position ctx b = .ok pc b') :
    pc = b.code.size ∧ b'.isAlive = false := by
  obtain ⟨b1, _, flushes, rfl, rfl⟩ := position_ok run
  obtain ⟨rfl, _⟩ := flushes.of_nil (pending_nil_of_dead dead)
  rw [marked_eq]
  exact ⟨rfl, dead⟩

theorem position_again (none : b.pending = []) (run : position ctx b = .ok pc b') :
    pc = b.code.size := by
  obtain ⟨b1, _, flushes, rfl, rfl⟩ := position_ok run
  obtain ⟨rfl, _⟩ := flushes.of_nil none
  rfl

theorem emit_of_flushed {b1 : Buffer} (flushed : resolvePending ctx b = .ok () b1)
    (run : emit instruction ctx b1 = .ok () b') : emit instruction ctx b = .ok () b' := by
  obtain ⟨goes, c, began, rest⟩ := bind_ok.mp run
  obtain ⟨_, d, again, begins⟩ := bind_ok.mp began
  obtain ⟨log, flushes⟩ := resolvePending_ok flushed
  obtain ⟨more, flushes'⟩ := resolvePending_ok again
  obtain ⟨rfl, _⟩ := flushes'.of_nil flushes.pending_eq
  exact bind_ok.mpr ⟨goes, c, bind_ok.mpr ⟨(), d, flushed, begins⟩, rest⟩

theorem position_pending (run : position ctx b = .ok pc b') : b'.pending = [] := by
  obtain ⟨b1, _, flushes, rfl, rfl⟩ := position_ok run
  exact (congrArg Buffer.Core.pending (core_marked ctx b1)).trans flushes.pending_eq

theorem isAlive_of_note (change : Note) (quiet : change ≠ .beginBody ∧ change ≠ .markDead)
    (run : change.perform ctx b = .ok () b') : b'.isAlive = b.isAlive := by
  cases Note.does_of_perform run with
  | beginBody => exact absurd rfl quiet.1
  | markDead => exact absurd rfl quiet.2
  | markLine =>
    rw [marked_eq]
    rfl
  | _ => rfl

theorem endScopes_dead {first : UInt16} (dead : b.isAlive = false)
    (run : endScopes first ctx b = .ok () b') :
    b'.isAlive = false ∧ b'.code.size = b.code.size := by
  obtain ⟨_, ⟨only, _⟩ | ⟨b0, b1, before, flushes, after⟩⟩ := endScopes_ok run
  · rw [only]
    exact ⟨dead, rfl⟩
  · have dead : b0.isAlive = false := by
      rw [before]
      exact dead
    obtain ⟨rfl, _⟩ := flushes.of_nil (pending_nil_of_dead dead)
    rw [marked_eq] at after
    rw [after]
    exact ⟨dead, congrArg (·.code.size) before⟩

end Asm

end ClassForge
