import ClassForge.Proofs.WideValues

namespace ClassForge

open Buffer (Gauge)
open Buffer.Gauge (Notes Level)

namespace Asm

variable {ctx : Context} {b b' : Buffer} {register : UInt16}

theorem local?_assigned {type : VType} (known : b.gauge.types register.toNat = some type) :
    (assigned register b).state.local? register = some type := by
  have found : ∃ var, b.locals.getD register.toNat none = some var ∧ var.type = type := by
    obtain ⟨var, joined, same⟩ := Option.map_eq_some_iff.mp known
    exact ⟨var, by rw [Array.getD_eq_getD_getElem?, Option.join_eq_some_iff.mp joined]; rfl, same⟩
  obtain ⟨var, found, rfl⟩ := found
  have defined : (b.state.setLocal register var.type).locals[register.toNat]? =
      some (.defined var.type) := by
    rw [State.getElem?_setLocal (by nofun)]
    exact .inl ⟨rfl, rfl⟩
  simp only [assigned, found, State.local?, defined]

theorem newLocal_error {type : VType} {debug : Option LocalDebug} {cause : Error}
    (run : newLocal type debug ctx b = .error cause b') :
    b'.gauge = b.gauge := by
  change (if b.nextRegister + type.width > maxLocalCount then _ else _ : Asm UInt16) ctx
    { b with nextRegister := b.nextRegister + type.width } = _ at run
  split at run
  · cases run
    rfl
  · cases run

end Asm

/-- What becomes of a buffer: the buffers that it has been, latest first, and the numbers of registers
that have been in use. A register that cannot be allocated is not the end. -/
inductive History (ctx : Context) (pool : Pool) : List Buffer → List Nat → Buffer → Prop
  | start : History ctx pool [.empty pool] [] (.empty pool)
  | call {past : List Buffer} {used : List Nat} {b b' : Buffer} {α : Type} {answer : α}
      (call : Call α) : History ctx pool past used b → call.InOrder State.Neat False →
      call.perform ctx b = .ok answer b' →
      History ctx pool (b' :: call.pauses ctx b ++ past) (call.claims b' ++ used) b'
  | refuse {past : List Buffer} {used : List Nat} {b b' : Buffer} {type : VType}
      {debug : Option LocalDebug} {cause : Error} : History ctx pool past used b →
      Asm.newLocal type debug ctx b = .error cause b' → History ctx pool (b' :: past) used b'

namespace History

variable {ctx : Context} {pool : Pool} {past : List Buffer} {used : List Nat} {b b' : Buffer}

/-- The marks are the maxima of what has been, and have never been lower. -/
structure Exact (ctx : Context) (past : List Buffer) (used : List Nat) (b : Buffer) : Prop where
  level : b.gauge.Level State.Neat ctx
  stack : b.maxStack = (past.map (·.state.depth)).foldr max 0
  locals : b.maxLocals = used.foldr max 0
  highest : ∀ c ∈ past, c.maxStack ≤ b.maxStack ∧ c.maxLocals ≤ b.maxLocals
  ordered : past.Pairwise fun later earlier =>
    earlier.maxStack ≤ later.maxStack ∧ earlier.maxLocals ≤ later.maxLocals

theorem le_foldr_max (claimed : List Nat) (n : Nat) : n ≤ claimed.foldr max n := by
  induction claimed with
  | nil => exact le_rfl
  | cons m _ ih => exact ih.trans (le_max_right m _)

theorem Exact.step {claimed : List Nat} (exact : Exact ctx past used b)
    (notes : Notes State.Neat ctx claimed b.gauge b'.gauge) :
    Exact ctx (b' :: past) (claimed ++ used) b' := by
  have stack : b'.maxStack = max b.maxStack b'.state.depth := notes.stack
  have locals : b'.maxLocals = claimed.foldr max b.maxLocals := notes.locals
  have higher : ∀ c ∈ past, c.maxStack ≤ b'.maxStack ∧ c.maxLocals ≤ b'.maxLocals := by
    intro c member
    obtain ⟨below, below'⟩ := exact.highest c member
    rw [stack, locals]
    exact ⟨below.trans (le_max_left _ _), below'.trans (le_foldr_max _ _)⟩
  refine ⟨notes.level, ?_, ?_, List.forall_mem_cons.mpr ⟨⟨le_rfl, le_rfl⟩, higher⟩,
    List.pairwise_cons.mpr ⟨higher, exact.ordered⟩⟩
  · rw [stack, exact.stack, max_comm]
    rfl
  · rw [locals, exact.locals, List.foldr_append]

theorem exact (history : History ctx pool past used b) : Exact ctx past used b := by
  induction history with
  | start =>
    exact ⟨Buffer.level_empty ctx pool, rfl, rfl, by simp, List.pairwise_singleton _ _⟩
  | call call _ fits run ih =>
    rcases call.gauges_of_perform ih.level fits run with ⟨same, notes⟩ | ⟨c, same, paused, notes⟩
    · rw [same]
      exact ih.step notes
    · rw [same]
      exact (ih.step paused).step notes
  | refuse _ run ih =>
    exact ih.step (Asm.newLocal_error run ▸ ih.level.notes : Notes _ _ [] _ _)

theorem store_notes {kind : Kind} {register : UInt16} {var : LocalVar}
    (level : b.gauge.Level State.Neat ctx) (alive : b.isAlive = true) (known : b.locals[register.toNat]? = some (some var))
    (run : Asm.emit (.store kind register) ctx b = .ok () b') :
    b'.state.local? register = some var.type ∧
      register.toNat + var.type.width ≤ b'.maxLocals := by
  obtain ⟨c, log, flushes, ⟨dead, _⟩ | ⟨_, bytes, pool, state, _, _, rfl⟩⟩ := Asm.emit_ok run
  · rw [flushes.alive_eq, alive] at dead
    cases dead
  obtain ⟨notes, types⟩ := flushes.notes level
  have like := Asm.like_begun ctx c
  have kept : (Asm.begun ctx c).gauge.types register.toNat = some var.type := by
    rw [like.same, types]
    simp only [Buffer.gauge, known]
    rfl
  have room := (like.level notes.level).room register.toNat var.type kept
  refine ⟨Asm.local?_assigned kept, ?_⟩
  change _ ≤ (Asm.assigned register _).gauge.maxLocals
  rw [(Asm.gauge_assigned register _).1]
  exact room

end History

/-- After any calls, a buffer's marks are the largest depth that its stack has had and the largest
number of registers that have been in use. They never go down, and what a store defines lies below
them. Chains that calls hand out can be used in calls. -/
theorem History.marks_exact {ctx : Context} {pool : Pool} {past : List Buffer} {used : List Nat}
    {b : Buffer} (history : History ctx pool past used b) :
    b.maxStack = (past.map (·.state.depth)).foldr max 0 ∧ b.maxLocals = used.foldr max 0 ∧
      (past.Pairwise fun later earlier =>
        earlier.maxStack ≤ later.maxStack ∧ earlier.maxLocals ≤ later.maxLocals) ∧
      (∀ (kind : Kind) (register : UInt16) (var : LocalVar) (b' : Buffer), b.isAlive = true →
        b.locals[register.toNat]? = some (some var) →
        Asm.emit (.store kind register) ctx b = .ok () b' →
        b'.state.local? register = some var.type ∧
          register.toNat + var.type.width ≤ b'.maxLocals) ∧
      b.state.Neat ∧ ∀ (α : Type) (call : Call α) (answer : α) (b' : Buffer),
        call.InOrder State.Neat False → call.perform ctx b = .ok answer b' → ∀ site ∈ call.answers answer, site.state.Neat := by
  have exact := history.exact
  exact ⟨exact.stack, exact.locals, exact.ordered,
    fun _ _ _ _ alive known run => History.store_notes exact.level alive known run,
    exact.level.state, fun _ _ _ _ fits run => Call.answers_fit exact.level fits run⟩

theorem History.marks_exact_store : ∃ past used b b',
    History Session.bareContext .empty past used b ∧ past.length = 4 ∧ used = [1] ∧
      b.maxStack = 1 ∧ b.maxLocals = 1 ∧
      Asm.emit (.store (.num .int) 0) Session.bareContext b = .ok () b' ∧
      b'.state.local? 0 = some .integer ∧ 1 ≤ b'.maxLocals := by
  have begins : History Session.bareContext .empty [.empty .empty] [] (.empty .empty) := .start
  have history := begins.call (.newLocal .integer none)
    (fun _ member => absurd member (Multiset.notMem_zero _)) rfl |>.call (.emit (.pushInt 1)) False.elim rfl
  obtain ⟨stack, locals, _, stores, _⟩ := history.marks_exact
  exact ⟨_, _, _, _, history, rfl, rfl, stack, locals, rfl,
    stores (.num .int) 0 ⟨.integer, none, none⟩ _ rfl rfl rfl⟩

end ClassForge
