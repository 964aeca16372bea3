import ClassForge.Proofs.Blanks
import ClassForge.Proofs.Bodies
import ClassForge.Proofs.CodeArray
import ClassForge.Proofs.Pinning

namespace ClassForge

variable {target p : Nat} {chain : Chain}

/-- Besides the pending jumps exactly the given ones wait for their targets. The switches are in the
code, and so are the positions that can be relied on. -/
structure Waits (ctx : Context) (b : Buffer) (sites : Multiset JumpSite) (marks : Landmarks) :
    Prop where
  carries : ∃ log, b.core.Carries ctx.wide 0 (sites.map JumpSite.pc) log
  blank : b.core.Blank (sites.map JumpSite.pc)
  slotted : Slotted 0 marks.places b.bytes
  pinned : ∀ p ∈ marks.floors, b.Pinned 0 p

theorem Asm.Trims.le_size {ctx : Context} {base : Nat} {b b' : Buffer}
    (trims : Trims ctx base target chain b b') (pinned : b.Pinned base p) : p ≤ b'.code.size := by
  have bound := pinned.boundary.le_length
  rw [Buffer.length_bytes] at bound
  cases trims with
  | keep none same mark =>
    have sameSize := same.size
    rw [Buffer.length_bytes, Buffer.length_bytes] at sameSize
    omega
  | drop elides long jump same mark =>
    have sameSize := same.size
    rw [List.length_take, Buffer.length_bytes, Buffer.length_bytes] at sameSize
    have differ := pinned.ne_size elides
    rw [← Buffer.length_bytes] at long jump
    have before := Reworked.le_of_lt long jump pinned.boundary (by rw [Buffer.length_bytes]; omega)
    rw [Buffer.length_bytes] at before
    omega

namespace Waits

variable {sites : Multiset JumpSite}
variable {ctx : Context} {b b' : Buffer} {rest : Multiset JumpSite} {marks : Landmarks} {α : Type}
  {call : Call α} {answer : α}

def session (b : Buffer) (held : Multiset Nat) (places : List SwitchPlace) (log : List (Nat × Nat)) :
    Session :=
  ⟨b, held, 0, [], [], places, [], log⟩

theorem accounted (waits : Waits ctx b (call.sites + rest) marks) :
    ∃ log, (session b (call.takes + rest.map JumpSite.pc) marks.places log).Accounted ctx 0 := by
  obtain ⟨log, carries⟩ := waits.carries
  rw [Multiset.map_add, Call.map_sites] at carries
  exact ⟨log, (add_zero (call.takes + _)).symm ▸ carries, waits.slotted⟩

theorem firm (waits : Waits ctx b (chain.sites + rest) marks) (known : target ∈ marks.floors)
    (latest : p ≤ target) : ¬(Call.resolveTo chain target).Loosens ctx b b' p := by
  rintro ⟨_, ⟨site, first, drop⟩, _, last⟩
  have ends : site.pc + 3 = b.code.size := drop.pc_eq
  obtain ⟨_, _, lands, loose⟩ := drop
  have pinned := waits.pinned target known
  have bound := pinned.boundary.le_length
  rw [Buffer.length_bytes] at bound
  have inside : target < b.code.size := by
    refine Nat.lt_of_le_of_ne bound fun same => ?_
    rw [pinned.fixed same] at loose
    cases loose
  change Asm.landing b ctx.wide target = b.code.size at lands
  rw [Asm.landing, if_neg (by omega)] at lands
  by_cases follows : (!ctx.wide && b.code.getD target 0 == Opcode.goto) = true
  · rw [if_pos follows] at lands
    simp only [Bool.and_eq_true, Bool.not_eq_true', beq_iff_eq] at follows
    obtain ⟨log, carries⟩ := waits.carries
    have less : target < b.bytes.length := by rwa [Buffer.length_bytes]
    have jump : JumpAt b.bytes 0 target Opcode.goto := by
      refine ⟨pinned.boundary, ?_, rfl⟩
      have read := follows.2
      rw [Buffer.getD_code, List.getElem?_eq_getElem less, Option.getD_some] at read
      rw [List.getElem?_eq_getElem less, read]
    have fits := jump.end_le carries.wired.tiled less
    have short : Opcode.jumpLength Opcode.goto = 3 := rfl
    rw [Buffer.core_bytes, Buffer.length_bytes] at fits
    -- The jump is the one at the target, and so it leads to itself.
    have same : site.pc = target := by omega
    have waiting : site.pc ∈ b.core.pending.pcs + (chain.sites + rest).map JumpSite.pc := by
      rw [Multiset.map_add, Chain.map_sites, Multiset.mem_add, Multiset.mem_add]
      exact .inr (.inl (Multiset.mem_map_of_mem JumpSite.pc (Multiset.mem_coe.mpr (List.mem_of_mem_head? first))))
    obtain ⟨high, low⟩ := waits.blank site.pc waiting
    have still : b.offset16 (target + 1) = 0 := by
      rw [Buffer.core_bytes, same] at high low
      rw [Buffer.offset16, Buffer.getD_code, Buffer.getD_code, high, low]
      rfl
    rw [still] at lands
    omega
  · rw [if_neg follows] at lands
    omega

theorem perform {D : Discipline} (waits : Waits ctx b (call.sites + rest) marks)
    (ready : call.Ready D marks b) (exact : D.exact) (complete : call.Complete)
    (run : call.perform ctx b = .ok answer b') :
    Waits ctx b' (call.answers answer + rest) (call.marks marks answer) := by
  obtain ⟨log, accounted⟩ := waits.accounted
  have slots : ∀ pos ∈ call.fills, ∃ place ∈ marks.places, place.IsSlot pos := by
    cases call with
    | putWord pc value =>
      intro pos member
      cases List.mem_singleton.mp member
      exact ready
    | _ => exact fun _ member => absurd member List.not_mem_nil
  have permits : (session b (call.takes + rest.map JumpSite.pc) marks.places log).Permits call :=
    ⟨Multiset.le_add_right _ _, slots, complete⟩
  obtain ⟨more, logs⟩ := call.exists_logs run
  have carries := accounted.carries_step permits run logs
  have after := accounted.step (.call call permits run logs)
  have held : call.takes + rest.map JumpSite.pc - call.takes + call.gives answer +
      (0 + call.discards) = (call.answers answer + rest).map JumpSite.pc := by
    rw [add_tsub_cancel_left, Multiset.map_add, Call.map_answers, add_comm]
    cases call with
    | discard chain => exact ready.elim
    | _ => simp [Call.discards, add_comm]
  refine ⟨⟨_, held ▸ carries⟩, ?_, after.slotted, fun p member => ?_⟩
  · rw [Multiset.map_add, Call.map_answers]
    have blank := waits.blank
    rw [Multiset.map_add, Call.map_sites] at blank
    obtain ⟨_, before⟩ := waits.carries
    rw [Multiset.map_add, Call.map_sites] at before
    exact Call.blank blank before waits.slotted slots run
  · rcases List.mem_append.mp member with new | old
    · obtain ⟨rfl, fixed⟩ := call.observes_eq run new
      refine ⟨?_, fun _ => fixed⟩
      have tiled := carries.wired.tiled
      rw [Buffer.core_bytes, Buffer.length_bytes] at tiled
      exact tiled
    · refine (waits.pinned p old).alters (accounted.alters permits run) fun loosens => ?_
      cases call with
      | resolveTo chain target =>
        obtain ⟨known, latest⟩ := ready.2 exact
        exact waits.firm known (latest p old) loosens
      | resolvePending => exact ready
      | _ => cases loosens.1

theorem le_of_jsr (waits : Waits ctx b sites marks) (run : Asm.jsr ctx b = .ok chain b') :
    ∀ site ∈ chain, ∀ p ∈ marks.floors, p ≤ site.pc := by
  intro site member p floor
  rcases Asm.jsr_ok run with ⟨_, _, rfl⟩ | ⟨pc, alive, jumped, rfl⟩
  · cases member
  cases List.mem_singleton.mp member
  obtain ⟨c, _, bytes, back, flushes, chosen, place, _⟩ := Asm.emitJump_core alive jumped
  obtain ⟨log, carries⟩ := waits.carries
  have stays := (flushes.trims carries).le_size (waits.pinned p floor)
  have fits := Asm.length_of_jumpBytes chosen
  change p ≤ pc
  omega

theorem le_of_observed {pc : Nat} (waits : Waits ctx b' sites marks)
    (run : call.perform ctx b = .ok answer b') (known : pc ∈ call.observes answer) :
    ∀ p ∈ marks.floors, p ≤ pc := by
  intro p floor
  rw [(call.observes_eq run known).1, ← Buffer.length_bytes]
  exact (waits.pinned p floor).boundary.le_length

end Waits

/-- No jump is lost, and none is used twice. -/
def Discipline.linear : Discipline where
  holds := Waits
  fits _ := True
  rooms := False
  tame := Error.IsTame
  exact := True

theorem Error.IsPlain.isTame {e : Error} (plain : e.IsPlain) : e.IsTame := by
  cases e <;> trivial

instance : Discipline.linear.Lawful where
  perform call ctx b b' answer rest marks ready complete waits run := by
    have after := Waits.perform waits ready trivial complete run
    have kept : Waits ctx b' (call.answers answer + rest) marks :=
      ⟨after.carries, after.blank, fun place member => after.slotted place (List.mem_append_right _ member),
        fun p member => after.pinned p (List.mem_append_right _ member)⟩
    refine ⟨call.answers answer, ?_, after⟩
    cases call with
    | branch jump | merge chain other => exact ⟨rfl, fun _ _ => trivial⟩
    | jsr => exact ⟨⟨rfl, fun _ _ => trivial⟩, fun _ => Waits.le_of_jsr waits run⟩
    | position | entryPoint | entryPointWith state pushed =>
      exact ⟨rfl, fun _ => kept.le_of_observed run (.head _)⟩
    | newLocal type debug => exact ⟨rfl, Asm.newLocal_room run⟩
    | _ => rfl
  fails call ctx b e b' rest marks ready waits failed := by
    obtain ⟨log, accounted⟩ := Waits.accounted waits
    exact accounted.tameAt (Multiset.le_add_right _ _) _ _ failed
  forget places floors waits :=
    ⟨waits.carries, waits.blank, fun place member => waits.slotted place (List.mem_append_right _ member),
      fun p member => waits.pinned p (List.mem_append_right _ member)⟩
  looks _ := trivial
  inside _ ctx b rest marks chain waits site member := by
    obtain ⟨log, carries⟩ := Waits.carries waits
    have waiting : site.pc ∈ b.core.pending.pcs + (chain.sites + rest).map JumpSite.pc := by
      rw [Multiset.mem_add]
      exact .inr (Multiset.mem_map_of_mem _ (Multiset.mem_add.mpr (.inl (Multiset.mem_coe.mpr member))))
    obtain ⟨_, jump, _⟩ := carries.wired.jumps site.pc waiting (Nat.zero_le _)
    have inside := jump.lt_length
    rwa [Buffer.core_bytes, Buffer.length_bytes] at inside
  undefines chain register waits := by
    have same : (chain.undefineFrom register).pcs = chain.pcs := by
      simp [Chain.pcs, Chain.undefineFrom, Function.comp_def]
    refine ⟨?_, ?_, waits.slotted, waits.pinned⟩
    · rw [Multiset.map_add, Chain.map_sites, same]
      simpa using waits.carries
    · rw [Multiset.map_add, Chain.map_sites, same]
      simpa using waits.blank
  undefined _ _ := trivial
  loses light := absurd trivial light
  plain := Error.IsPlain.isTame
  slack light := absurd trivial light
  leftovers _ _ := trivial

namespace Lowering

variable {mc : MethodContext} {ctx : Context} {method : MethodDecl} {body : Stmt} {pool : Pool}
  {y : Unit} {σ : MethodState} {b : Buffer}

theorem waits_empty (ctx : Context) (pool : Pool) : Waits ctx (.empty pool) 0 ⟨[], []⟩ where
  carries := ⟨[], Wired.empty _ _, rfl⟩
  blank pc member := absurd member (Multiset.notMem_zero pc)
  slotted _ member := absurd member List.not_mem_nil
  pinned _ member := absurd member List.not_mem_nil

theorem linear_genMethod (method : MethodDecl) (proper : body.Proper) (mc : MethodContext)
    (ctx : Context) (pool : Pool) :
    Asm.ObeysAt .linear ctx (.empty pool) ⟨[], []⟩ 0 (genMethod method body mc {})
      fun _ given => given = 0 := by
  have whole : SpendsAt .linear ctx (.empty pool) ⟨[], []⟩ (Orderly .linear [] [])
      (Orderly .linear [] []) 0 (genMethod method body) :=
    spendsAt_genMethod method body fun _ => proper
  refine (whole mc {} nofun .nil).imp fun found given gave => ?_
  obtain ⟨_, kept, own, rfl, rfl⟩ := gave
  cases records : found.2.records with
  | nil => simp [MethodState.sites, records, recordSites]
  | cons record outer =>
    rw [records] at kept
    cases kept

theorem unresolved_genMethod (proper : body.Proper)
    (run : genMethod method body mc {} ctx (.empty pool) = .ok (y, σ) b) : b.unresolved = 0 := by
  have start : Waits ctx (.empty pool) (0 + 0) ⟨[], []⟩ := waits_empty ctx pool
  obtain ⟨given, rfl, waits⟩ := (linear_genMethod method proper mc ctx pool).ok run start
  obtain ⟨log, carries⟩ := Waits.carries waits
  obtain ⟨_, _, _, dead, _⟩ := genMethod_ok run
  have count : b.unresolved = Multiset.card (b.pending.pcs + 0) := carries.count
  rw [count, Asm.pending_nil_of_dead dead]
  rfl

theorem tameAt_attempt (settings : Settings) (method : MethodDecl) (proper : body.Proper)
    (ctx : Context) (pool : Pool) :
    Asm.TameAt ctx (.empty pool) (attempt settings method body) := by
  have start : Waits ctx (.empty pool) (0 + 0) ⟨[], []⟩ := waits_empty ctx pool
  refine Asm.TameAt.bind ?_ fun _ b lowered => Asm.tameAt_get.bind fun buffer _ looked => ?_
  · intro e b' failed
    exact (linear_genMethod method proper _ ctx pool).tame (Asm.map_error.mp failed) start
  obtain ⟨⟨y, σ⟩, ran⟩ := Asm.discard_ok.mp lowered
  obtain ⟨rfl, rfl⟩ := Asm.get_ok.mp looked
  refine .ite (fun _ => .pure _) fun _ => (Asm.tameAt_modify _).bind fun _ c compressed => ?_
  have same : c.unresolved = b.unresolved := by
    cases Asm.modify_ok.mp compressed
    rfl
  exact (Asm.draws_finish (same.trans (unresolved_genMethod proper ran))).tameAt.bind fun _ _ _ => .pure _

end Lowering

namespace Build

variable {α : Type}

theorem bind_error {β : Type} {x : Build α} {f : α → Build β} {pool pool' : Pool} {e : Error} :
    (x >>= f) pool = .error e pool' ↔ x pool = .error e pool' ∨
      ∃ a between, x pool = .ok a between ∧ f a between = .error e pool' := by
  change EStateM.bind x f pool = _ ↔ _
  unfold EStateM.bind
  cases x pool with
  | error early between => simp
  | ok a between =>
    refine ⟨fun late => .inr ⟨a, between, rfl, late⟩, ?_⟩
    rintro (early | ⟨_, _, same, late⟩)
    · cases early
    · cases same
      exact late

variable {hierarchy : ClassGraph} {settings : Settings} {thisClass : BinaryName}
  {method : MethodDecl} {body : Stmt} {pool pool' : Pool} {e : Error}

theorem forM_error {f : α → Build Unit}
    (each : ∀ {a pool e pool'}, f a pool = .error e pool' → Error.IsPlain e) {items : List α}
    (failed : items.forM f pool = .error e pool') : e.IsPlain := by
  induction items generalizing pool with
  | nil => cases failed
  | cons item rest ih =>
    rcases bind_error.mp failed with early | ⟨_, _, _, late⟩
    · exact each early
    · exact ih late

theorem checkParameters_error (failed : checkParameters method pool = .error e pool') :
    e.IsPlain := by
  unfold checkParameters at failed
  dsimp only at failed
  split at failed
  · cases failed
    trivial
  · refine forM_error ?_ failed
    intro param pool e pool' failed
    cases known : param.type with
    | ref type =>
      rw [known] at failed
      dsimp only at failed
      split at failed
      · cases failed
        trivial
      · cases failed
    | base type =>
      rw [known] at failed
      cases failed

theorem tame_codeOf (proper : body.Proper)
    (failed : codeOf hierarchy settings thisClass method body pool = .error e pool') : e.IsTame := by
  have attempted {wide : Bool} {before after : Pool}
      (failed : assemble ⟨hierarchy, thisClass, settings.code, wide⟩
        (Lowering.attempt settings method body) before = .error e after) : e.IsTame := by
    unfold assemble at failed
    split at failed
    · cases failed
    · next b answered =>
      cases failed
      exact Lowering.tameAt_attempt settings method proper _ _ _ _ answered
  rcases bind_error.mp failed with early | ⟨_, pool1, _, failed⟩
  · exact (checkParameters_error early).isTame
  rcases bind_error.mp failed with early | ⟨first, pool2, _, failed⟩
  · exact attempted early
  cases first with
  | some found => cases failed
  | none =>
    rcases bind_error.mp failed with early | ⟨second, pool3, _, failed⟩
    · exact attempted early
    cases second with
    | some found => cases failed
    | none =>
      cases failed
      trivial

end Build

/-- The buffer has been assembled by calls, and whichever calls have led to it, they have left no jump
to resolve and have resolved each of the jumps in the code once. Only one that is too far for a short
jump has not been given its target. -/
def Buffer.ResolvedOnce (ctx : Context) (b : Buffer) : Prop :=
  (∃ s : Session, s.buffer = b ∧ ∃ pool, s.Reach ctx pool) ∧
    ∀ s : Session, s.buffer = b → (∃ pool, s.Reach ctx pool) → s.sites = 0 ∧
      ∀ pc opcode, JumpAt b.bytes 0 pc opcode →
        writeCount s.written pc = 1 ∨ b.needsWide = true ∧ writeCount s.written pc = 0

theorem Lowering.resolvedOnce_genMethod {mc : MethodContext} {ctx : Context} {method : MethodDecl}
    {body : Stmt} {pool : Pool} {y : Unit} {σ : MethodState} {b : Buffer} (proper : body.Proper)
    (run : genMethod method body mc {} ctx (.empty pool) = .ok (y, σ) b) : b.ResolvedOnce ctx := by
  have resolved := unresolved_genMethod proper run
  obtain ⟨s, _, holds, _, _⟩ := genMethod_ok run
  refine ⟨⟨s, holds.owns.buffer, holds.owns.reach⟩, ?_⟩
  rintro s rfl ⟨pool, reach⟩
  have carries := reach.accounted.carries
  have none : s.sites = 0 := by
    rw [← Multiset.card_eq_zero]
    exact carries.count.symm.trans resolved
  refine ⟨none, fun pc opcode jump => ?_⟩
  have wired : Wired ctx.wide s.buffer.needsWide 0 s.sites s.written s.buffer.bytes := carries.wired
  exact wired.settled pc opcode jump (none ▸ Multiset.notMem_zero pc)

/-- Where only variables, fields and elements of arrays are assigned to, lowering a method never fails
because of its jumps: each of them is resolved once before the method ends. -/
theorem jumps_resolved_once {hierarchy : ClassGraph} {settings : Settings} {thisClass : BinaryName}
    {method : MethodDecl} {body : Stmt} {pool : Pool} (proper : body.Proper) :
    (∀ e pool', Build.codeOf hierarchy settings thisClass method body pool = .error e pool' →
      ∀ pc n, e ≠ .machine pc (.unresolvedJumps n) ∧ e ≠ .machine pc (.notABranch n)) ∧
    ∀ wide mc pool σ b, Lowering.genMethod method body mc {}
        ⟨hierarchy, thisClass, settings.code, wide⟩ (.empty pool) = .ok ((), σ) b →
      b.ResolvedOnce ⟨hierarchy, thisClass, settings.code, wide⟩ := by
  refine ⟨fun e pool' failed pc n => ?_, fun wide mc pool σ b run => ?_⟩
  · have tame := Build.tame_codeOf proper failed
    constructor
    · rintro rfl
      exact tame
    · rintro rfl
      exact tame
  · exact Lowering.resolvedOnce_genMethod proper run

/-- A loop that is left and continued through a finalizer. -/
def leavingBody : Stmt :=
  let flag := Expr.mk (some (.base .boolean)) none (.localVar 0)
  let cleared := Expr.mk (some (.base .boolean)) none (.literal (.int 0))
  .mk none (.whileLoop flag (.mk none (.guarded
    (.mk none (.branch flag (.mk none (.continueTo none)) (some (.mk none (.breakTo none))))) []
    (some (.mk none (.expr (.mk (some (.base .boolean)) none (.assign flag cleared))))))))

theorem proper_leavingBody : leavingBody.Proper := by
  simp only [leavingBody, Stmt.Proper, StmtKind.Proper, Expr.Proper, ExprKind.Proper,
    Catch.ProperAll, Expr.IsTarget, Expr.kind, and_true, true_and]
  rfl

/-- The ways out of the loop and the way back are resolved, each through its own copy of the
finalizer. -/
theorem jumps_resolved_once_leaving : leavingBody.Proper ∧
    (∀ e pool, Build.codeOf .empty .default ⟨"Gate"⟩ awaiting leavingBody .empty = .error e pool →
      ∀ pc n, e ≠ .machine pc (.unresolvedJumps n) ∧ e ≠ .machine pc (.notABranch n)) ∧
    ∀ wide mc pool σ b, Lowering.genMethod awaiting leavingBody mc {}
        ⟨.empty, ⟨"Gate"⟩, Settings.default.code, wide⟩ (.empty pool) = .ok ((), σ) b →
      b.ResolvedOnce ⟨.empty, ⟨"Gate"⟩, Settings.default.code, wide⟩ :=
  ⟨proper_leavingBody, jumps_resolved_once proper_leavingBody⟩

end ClassForge
