import ClassForge.Proofs.JumpGraph
import ClassForge.Proofs.Merging

namespace ClassForge

namespace State

theorem local?_undefine (state : State) (register other : UInt16) :
    (state.undefine other).local? register =
      if other = register then none else state.local? register := by
  unfold local? undefine
  rw [Array.getElem?_setIfInBounds]
  by_cases same : other = register
  · subst same
    split <;> simp_all
  · have differ : other.toNat ≠ register.toNat := fun equal => same (UInt16.toNat_inj.mp equal)
    rw [if_neg differ, if_neg same]

end State

namespace Asm

variable {pc target start count : Nat} {merged merged' : Option State} {state : State}
  {chain : Chain} {log : List (Nat × Nat)}
variable {ctx : Context} {b b' : Buffer} {register : UInt16} {type : VType}

theorem patch_frame (run : patch pc target ctx b = .ok () b') :
    b'.code.size = b.code.size ∧ b'.alive = b.alive ∧ b'.state = b.state := by
  rcases patch_ok run with ⟨_, rfl⟩ | ⟨_, _, rfl⟩
  · exact ⟨Buffer.size_overwrite _ _, rfl, rfl⟩
  · exact ⟨rfl, rfl, rfl⟩

/-- A register that is defined after jumps have landed at a position that is reached otherwise,
too, was defined there before and at every one of the jumps. -/
theorem Resolves.carried (resolved : Resolves ctx target merged chain b merged' b' log)
    (met : merged = some state) (above : b.code.size ≤ target) (alive : b.alive = true)
    (pinned : b.fixed = true) (found : (merged'.getD b'.state).local? register = some type) :
    state.local? register = some type ∧ ∀ site ∈ chain, site.state.local? register = some type := by
  induction resolved generalizing state with
  | done =>
    subst met
    exact ⟨found, nofun⟩
  | dropLast drop | dropMore drop => exact absurd pinned (by simp [drop.2.2.2])
  | fill keep isJump patched agree arrived _ ih =>
    subst met
    obtain ⟨size, reached, _⟩ := patch_frame patched
    rcases arrive_ok arrived with ⟨away, _⟩ | ⟨_, _, ⟨joined, join, rfl⟩, rfl⟩ | ⟨_, dead, _⟩
    · exact absurd (size.trans (landing_of_le above).symm) away
    · obtain ⟨atJoin, others⟩ := ih rfl (size.symm ▸ above) (reached.trans alive) rfl found
      obtain ⟨atSite, before⟩ := (State.local?_join join).mp atJoin
      exact ⟨before, List.forall_mem_cons.mpr ⟨atSite, others⟩⟩
    · rw [reached, alive] at dead
      cases dead

theorem Resolves.carried_first {site : JumpSite} {b1 : Buffer} (here : b.code.size = pc)
    (above : pc ≤ target) (gone : b.state.local? register = none)
    (arrived : arrive site pc none ctx b = .ok merged b1)
    (resolved : Resolves ctx target merged chain b1 merged' b' log)
    (found : (merged'.getD b'.state).local? register = some type) :
    b.alive = false ∧ ∀ other ∈ site :: chain, other.state.local? register = some type := by
  subst here
  rcases arrive_ok arrived with ⟨away, _⟩ | ⟨_, alive, ⟨joined, join, rfl⟩, rfl⟩ |
    ⟨_, dead, rfl, rfl⟩
  · exact absurd rfl away
  · obtain ⟨atJoin, _⟩ := resolved.carried rfl above alive rfl found
    obtain ⟨_, before⟩ := (State.local?_join join).mp atJoin
    rw [Option.getD_none, gone] at before
    cases before
  · obtain ⟨atSite, others⟩ := resolved.carried rfl above rfl rfl found
    exact ⟨dead, List.forall_mem_cons.mpr ⟨atSite, others⟩⟩

/-- A register that jumps have brought to where it was not defined is defined at all of them, and
nothing else leads there. -/
theorem Resolves.brought (resolved : Resolves ctx target none chain b merged b' log)
    (above : b.code.size ≤ target) (gone : b.state.local? register = none)
    (found : (merged.getD b'.state).local? register = some type) :
    b.alive = false ∧ chain ≠ [] ∧ ∀ site ∈ chain, site.state.local? register = some type := by
  have lands : landing b ctx.wide target = b.code.size := landing_of_le above
  cases resolved with
  | done | dropLast => exact absurd (gone.symm.trans found) nofun
  | dropMore drop arrived resolved =>
    have here : (b.retract 3).code.size = landing b ctx.wide target - 3 := by
      rw [Buffer.size_retract, lands]
    obtain ⟨dead, all⟩ := Resolves.carried_first here (by omega) gone arrived resolved found
    exact ⟨dead, List.cons_ne_nil _ _, all⟩
  | fill keep isJump patched agree arrived resolved =>
    obtain ⟨size, reached, same⟩ := patch_frame patched
    obtain ⟨dead, all⟩ := Resolves.carried_first (size.trans lands.symm) (by omega)
      (same.symm ▸ gone) arrived resolved found
    exact ⟨reached.symm.trans dead, List.cons_ne_nil _ _, all⟩

/-- The register is defined in the state only if nothing but the jumps that wait in the buffer
leads to the current position, and all of them have it. -/
def Forgotten (b : Buffer) (register : UInt16) (state : State) : Prop :=
  ∀ type, state.local? register = some type →
    b.alive = false ∧ b.pending ≠ [] ∧ ∀ site ∈ b.pending, site.state.local? register = some type

theorem forgotten_of_none (gone : state.local? register = none) :
    Forgotten b register state := fun _ found => absurd (gone.symm.trans found) nofun

theorem Forgotten.undefine (forgotten : Forgotten b register state) (other : UInt16) :
    Forgotten b register (state.undefine other) := by
  intro type found
  rw [State.local?_undefine] at found
  split at found
  · cases found
  · exact forgotten type found

theorem Forgotten.eq_none (forgotten : Forgotten b register state) (alive : b.alive = true) :
    state.local? register = none := by
  cases found : state.local? register with
  | none => rfl
  | some type => exact absurd alive (by simp [(forgotten type found).1])

theorem Flushes.forgotten (flushes : Flushes ctx b b' log) (gone : b.state.local? register = none) :
    Forgotten b register b'.state := by
  obtain ⟨merged, b1, resolved, rfl⟩ := flushes
  intro type found
  refine resolved.brought (le_rfl) gone ?_
  cases merged <;> exact found

/-- Scopes are ending in `c`: the position is as it was in `b`, or the waiting jumps have landed. -/
inductive Ending (b c : Buffer) : Prop
  | waiting (pending : c.pending = b.pending) (alive : c.alive = b.alive)
  | landed (pending : c.pending = [])

/-- The scope of the register, which was in use in `b`, has ended in `c`. -/
inductive Ended (b : Buffer) (register : UInt16) (c : Buffer) : Prop
  | waiting (pending : c.pending = b.pending) (alive : c.alive = b.alive)
      (gone : c.state.local? register = none)
  | landed (pending : c.pending = []) (forgotten : Forgotten b register c.state)

variable {c c' : Buffer}

theorem Ended.ending (ended : Ended b register c) : Ending b c := by
  cases ended with
  | waiting pending alive => exact .waiting pending alive
  | landed pending => exact .landed pending

theorem Ended.settle (ended : Ended b register c) (flushes : Flushes ctx c c' log) :
    Forgotten b register c'.state := by
  cases ended with
  | waiting pending alive gone =>
    have forgotten := flushes.forgotten gone
    unfold Forgotten at forgotten ⊢
    rwa [pending, alive] at forgotten
  | landed pending forgotten => exact (flushes.of_nil pending).1 ▸ forgotten

/-- What the end of a scope does: it forgets the register, and the position may be asked for
before. -/
theorem endScope_state (run : endScope register ctx c = .ok () c') :
    (c'.pending = c.pending ∧ c'.alive = c.alive ∧ c'.state = c.state.undefine register) ∨
      ∃ d log, Flushes ctx { c with locals := c.locals.setIfInBounds register.toNat none } d log ∧
        c'.pending = [] ∧ c'.state = d.state.undefine register := by
  obtain ⟨e, rfl | ⟨pc, between, ranges, asked, rfl⟩, rfl⟩ := endScope_eq run
  · exact .inl ⟨rfl, rfl, rfl⟩
  · obtain ⟨d, log, flushes, rfl, rfl⟩ := position_ok asked
    have after : (marked ctx d).pending = [] ∧ (marked ctx d).state = d.state := by
      rcases marked_cases ctx d with same | same | ⟨line, _, same⟩ <;>
        exact ⟨by rw [same]; exact flushes.pending_eq, by rw [same]⟩
    exact .inr ⟨d, log, flushes, after.1, congrArg (·.undefine register) after.2⟩

theorem Ending.endScope (ending : Ending b c) (run : endScope register ctx c = .ok () c') :
    Ended b register c' := by
  have gone (state : State) : (state.undefine register).local? register = none := by
    rw [State.local?_undefine, if_pos rfl]
  rcases endScope_state run with ⟨pending, alive, state⟩ | ⟨d, log, _, pending, state⟩
  · cases ending with
    | waiting pending0 alive0 =>
      exact .waiting (pending.trans pending0) (alive.trans alive0) (state ▸ gone _)
    | landed pending0 =>
      exact .landed (pending.trans pending0) (forgotten_of_none (state ▸ gone _))
  · exact .landed pending (forgotten_of_none (state ▸ gone _))

theorem Ended.endScope {other : UInt16} (ended : Ended b register c)
    (run : endScope other ctx c = .ok () c') : Ended b register c' := by
  rcases endScope_state run with ⟨pending, alive, state⟩ | ⟨d, log, flushes, pending, state⟩
  · cases ended with
    | waiting pending0 alive0 gone =>
      refine .waiting (pending.trans pending0) (alive.trans alive0) ?_
      rw [state, State.local?_undefine, gone, ite_self]
    | landed pending0 forgotten =>
      exact .landed (pending.trans pending0) (state ▸ forgotten.undefine other)
  · have cleared : Ended b register
        { c with locals := c.locals.setIfInBounds other.toNat none } := by
      cases ended with
      | waiting pending0 alive0 gone => exact .waiting pending0 alive0 gone
      | landed pending0 forgotten => exact .landed pending0 forgotten
    exact .landed pending (state ▸ (cleared.settle flushes).undefine other)

theorem Ended.endScopesFrom (ended : Ended b register c)
    (run : endScopesFrom start count ctx c = .ok () c') : Ended b register c' := by
  induction count generalizing start c with
  | zero => exact (pure_ok.mp run).2 ▸ ended
  | succ count ih =>
    obtain ⟨_, c1, one, rest⟩ := bind_ok.mp run
    exact ih (ended.endScope one) rest

theorem Ending.endScopesFrom (ending : Ending b c)
    (run : endScopesFrom start count ctx c = .ok () c') (lower : start ≤ register.toNat)
    (upper : register.toNat < start + count) : Ended b register c' := by
  induction count generalizing start c with
  | zero => omega
  | succ count ih =>
    obtain ⟨_, c1, one, rest⟩ := bind_ok.mp run
    have ended := ending.endScope one
    by_cases here : start = register.toNat
    · rw [here, UInt16.ofNat_toNat] at ended
      exact ended.endScopesFrom rest
    · exact ih ended.ending rest (by omega) (by omega)

/-- When scopes end, each of their registers is forgotten at the current position, for named
variables and temporaries alike. Only where nothing but waiting jumps leads, and every one of them
has the register, does it keep the type that it has there. -/
theorem forgotten_endScopes {first : UInt16} (ended : endScopes first ctx b = .ok () c)
    (settled : resolvePending ctx c = .ok () b') (lower : first ≤ register)
    (upper : register.toNat < b.nextRegister) : Forgotten b register b'.state := by
  unfold endScopes at ended
  simp only [bind_ok, get_ok, modify_ok] at ended
  obtain ⟨_, _, ⟨rfl, rfl⟩, _, _, rfl, run⟩ := ended
  have begins : Ending b { b with nextRegister := first.toNat } := .waiting rfl rfl
  obtain ⟨log, flushes⟩ := resolvePending_ok settled
  have low : first.toNat ≤ register.toNat := UInt16.le_iff_toNat_le.mp lower
  exact (begins.endScopesFrom run low (by omega)).settle flushes

/-- A temporary is in use, and a jump past the last instruction waits. -/
def temporaryInUse : Buffer :=
  let state : State := ⟨.empty 0, #[.defined .integer], []⟩
  { Buffer.empty .empty with
    code := #[0x99, 0, 0, 0], state, pending := [⟨0, state⟩], unresolved := 1, nextRegister := 1
    locals := #[some ⟨.integer, none, none⟩] }

/-- The jump has the temporary, but the position is reached from the instruction before, too. -/
theorem forgotten_temporaryInUse : ∃ c b',
    endScopes 0 Session.bareContext temporaryInUse = .ok () c ∧
      resolvePending Session.bareContext c = .ok () b' ∧ 0 < temporaryInUse.nextRegister ∧
      Forgotten temporaryInUse 0 b'.state ∧ b'.state.local? 0 = none := by
  have ends : endScopes 0 Session.bareContext temporaryInUse = .ok () _ := rfl
  refine ⟨_, _, ends, rfl, by decide, ?_⟩
  have forgotten := forgotten_endScopes ends rfl (UInt16.le_refl 0) (by decide)
  exact ⟨forgotten, forgotten.eq_none rfl⟩

/-- A jump past a return leaves the scope of a temporary. -/
def jumpOutOfScope : Asm Unit := do
  let register ← newLocal .integer none
  emit (.pushInt 1)
  emit (.store (.num .int) register)
  emit (.pushInt 1)
  let jump ← branch (.ifZero .eq)
  emit .returnVoid
  resolve jump
  endScopes register
  resolvePending

/-- The register comes back with the only jump that leads there. -/
theorem register_kept_by_jump :
    (match jumpOutOfScope Session.bareContext (Buffer.empty .empty) with
      | .ok _ b => (b.nextRegister, b.alive, b.state.local? 0)
      | .error _ _ => (0, false, none)) = (0, true, some .integer) := by
  decide +kernel

end Asm

end ClassForge
