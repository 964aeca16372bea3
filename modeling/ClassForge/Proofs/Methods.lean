import ClassForge.Proofs.Statements

namespace ClassForge

variable {target : Nat} {site : JumpSite}

namespace Asm

variable {ctx : Context} {b b' : Buffer}

theorem Resolves.alive_of_away {merged merged' : Option State} {log : List (Nat × Nat)}
    (resolved : Resolves ctx target merged [site] b merged' b' log)
    (away : landing b ctx.wide target ≠ b.code.size) :
    b'.alive = b.alive ∧ b'.pending = b.pending := by
  cases resolved with
  | dropLast drop => exact absurd drop.2.2.1 away
  | fill keep isJump patched agree arrived rest =>
    cases rest
    rw [arrive_buffer arrived]
    rcases patch_ok patched with ⟨_, rfl⟩ | ⟨_, _, rfl⟩
    · simp only [Buffer.size_overwrite, decide_eq_false (Ne.symm away), Bool.or_false]
      exact ⟨rfl, rfl⟩
    · simp only [decide_eq_false (Ne.symm away), Bool.or_false]
      exact ⟨trivial, trivial⟩

end Asm

namespace Lowering

variable {method : MethodDecl} {y : Unit}
variable {how : Change} [how.Lawful] {mc : MethodContext} {ctx : Context} {σ σ' : MethodState}
  {b b' : Buffer} {s : Session} {owned : Multiset Nat}

theorem keeps_forM {α : Type} {f : α → Lowering Unit} (each : ∀ a, Keeps how 0 (f a) fun _ => 0) :
    ∀ items : List α, Keeps how 0 (items.forM f) fun _ => 0
  | [] => keeps_pure le_rfl
  | item :: rest => (each item).next fun _ => keeps_forM each rest

theorem keeps_genParameters (method : MethodDecl) :
    Keeps how 0 (genParameters method) fun _ => 0 := by
  have params : Keeps how 0 (method.params.forM fun param => do
      let register ← declare param
      Asm.setDefined register : Lowering Unit) fun _ => 0 :=
    keeps_forM (fun param => (keeps_declare param).next fun register =>
      lift_keeps (Asm.keeps_setDefined register)) _
  unfold genParameters
  dsimp only
  split
  · refine keeps_readThe.next fun ctx => Keeps.next (lift_keeps (Asm.keeps_newLocal _ _)) ?_
    exact fun register => Keeps.next (lift_keeps (Asm.keeps_setDefined register)) fun _ => params
  · exact params

section Silent

variable {α β : Type} {x : Lowering α} {f : α → Lowering β}

def Silent (action : Lowering α) : Prop :=
  ∀ ⦃mc σ ctx b a σ' b'⦄, action mc σ ctx b = .ok (a, σ') b' → Asm.RegistersOnly b b'

theorem Silent.bind (first : Silent x) (second : ∀ a, Silent (f a)) : Silent (x >>= f) := by
  intro mc σ ctx b y σ' b' run
  obtain ⟨a, between, c, ran, run⟩ := bind_ok.mp run
  exact (first ran).trans (second a run)

theorem silent_of_same (same : ∀ {mc σ ctx b a σ' b'}, x mc σ ctx b = .ok (a, σ') b' → b = b') :
    Silent x := by
  intro mc σ ctx b a σ' b' run
  rw [same run]
  rfl

theorem silent_forM {f : α → Lowering Unit} (each : ∀ a, Silent (f a)) :
    ∀ items : List α, Silent (items.forM f)
  | [] => silent_of_same fun run => (pure_ok.mp run).2.2
  | item :: rest => (each item).bind fun _ => silent_forM each rest

theorem silent_newLocal (type : VType) (debug : Option LocalDebug) :
    Silent (liftM (Asm.newLocal type debug) : Lowering UInt16) :=
  fun _ _ _ _ _ _ _ run => Asm.newLocal_ok (lift_ok.mp run).2

theorem silent_setDefined (register : UInt16) :
    Silent (liftM (Asm.setDefined register) : Lowering Unit) := by
  intro mc σ ctx b a σ' b' run
  cases Asm.setDefined_ok.mp (lift_ok.mp run).2
  exact Asm.registersOnly_assigned register b

theorem silent_declare (var : VarDecl) : Silent (declare var) := by
  refine Silent.bind ?_ fun _ => (silent_newLocal _ _).bind fun register => ?_
  · unfold checkDimensions
    split
    · split
      · exact silent_of_same fun run => (throw_ok.mp run).elim
      · exact silent_of_same fun run => (pure_ok.mp run).2.2
    · exact silent_of_same fun run => (pure_ok.mp run).2.2
  · exact (silent_of_same fun run => (modify_ok.mp run).2).bind fun _ =>
      silent_of_same fun run => (pure_ok.mp run).2.2

theorem silent_genParameters (method : MethodDecl) : Silent (genParameters method) := by
  have params : Silent (method.params.forM fun param => do
      let register ← declare param
      Asm.setDefined register : Lowering Unit) :=
    silent_forM (fun param => (silent_declare param).bind silent_setDefined) _
  unfold genParameters
  dsimp only
  split
  · refine Silent.bind (silent_of_same fun run => ?_) fun _ => (silent_newLocal _ _).bind fun register => ?_
    · cases run
      rfl
    · exact (silent_setDefined register).bind fun _ => params
  · exact params

end Silent

theorem keeps_genBody (body : Stmt) : Keeps Tracks 0 (genBody body) fun _ => 0 := by
  have none : ∀ scope ∈ ([] : List Scope), scope.Sound := by simp
  unfold genBody
  split
  · exact keeps_genStmts none false _
  · exact keeps_genStmt none false body

theorem Holds.dead_of_resolveTo (holds : Holds ctx s σ b owned) (entered : target ∈ s.entries)
    (dead : b.isAlive = false) (run : Asm.resolveTo [site] target ctx b = .ok () b') :
    b'.isAlive = false := by
  obtain rfl := holds.owns.buffer
  have upright := holds.owns.sound.stands.upright
  have wired := holds.owns.sound.accounted.carries.wired
  have notAlive : s.buffer.alive = false := by simpa [Buffer.isAlive] using (Bool.or_eq_false_iff.mp dead).1
  have before : ∀ p, Inside s.buffer.alive s.buffer.bytes p → p ≠ s.buffer.code.size := by
    intro p inside here
    have alive := inside.reached (here.trans Buffer.length_bytes.symm)
    rw [notAlive] at alive
    cases alive
  have away : Asm.landing s.buffer ctx.wide target ≠ s.buffer.code.size := by
    rcases upright.landing_eq wired entered with same | ⟨entry, member, same⟩
    · rw [same]
      exact before target (upright.entered target entered)
    · rw [same]
      exact before _ (upright.landed entry member)
  obtain ⟨log, merged, b1, resolved, rfl⟩ := Asm.resolveTo_ok run
  obtain ⟨alive, pending⟩ := resolved.alive_of_away away
  have core := Asm.core_settled ctx merged b1
  have alive' : (Asm.settled ctx merged b1).alive = b1.alive := congrArg Buffer.Core.alive core
  have pending' : (Asm.settled ctx merged b1).pending = b1.pending :=
    congrArg Buffer.Core.pending core
  rw [← dead]
  simp only [Buffer.isAlive, alive', alive, pending', pending]

theorem single_of_goto {chain : Chain} (none : b.pending = [])
    (run : Asm.branch .goto ctx b = .ok chain b') : chain = [] ∨ ∃ site, chain = [site] := by
  rcases Asm.branch_ok run with ⟨_, same, _⟩ | ⟨opcode, pc, b1, _, _, _, merged, _⟩
  · left
    rw [same, Asm.absorbed, if_pos rfl, none]
  · right
    rw [Asm.absorbed, if_pos rfl, none] at merged
    cases merged
    exact ⟨_, rfl⟩

theorem loopForever_ok {start : Nat} {jump : Chain} {b1 b2 : Buffer}
    (holds : Holds ctx s σ b owned) (entered : Asm.entryPoint ctx b = .ok start b1)
    (jumped : Asm.branch .goto ctx b1 = .ok jump b2)
    (run : Asm.resolveTo jump start ctx b2 = .ok () b') :
    ∃ s', s.Steady s' ∧ Holds ctx s' σ b' owned ∧ b'.isAlive = false := by
  obtain ⟨s1, steady1, _, entry, holds1⟩ := holds.entryPoint entered
  obtain ⟨s2, steady2, holds2⟩ := Holds.asm (holds1.mono (zero_add owned).le)
    (Asm.keeps_branch .goto) jumped
  have entry2 := steady2.entries start entry
  obtain ⟨s3, steady3, holds3⟩ := holds2.resolveTo entry2 run
  refine ⟨s3, steady1.trans (steady2.trans steady3), holds3, ?_⟩
  have dead := Asm.dead_of_goto jumped
  have none : b1.pending = [] := by
    obtain ⟨c, asked, rfl⟩ := Asm.entryPoint_ok entered
    have none := Asm.position_pending asked
    exact none
  rcases single_of_goto none jumped with rfl | ⟨site, rfl⟩
  · obtain ⟨_, rfl⟩ := Asm.pure_ok.mp run
    exact dead
  · exact holds2.dead_of_resolveTo entry2 dead run

theorem genEnd_ok (holds : Holds ctx s σ b owned) (run : genEnd method mc σ ctx b = .ok (y, σ') b') :
    ∃ s', s.Steady s' ∧ σ = σ' ∧ Holds ctx s' σ b' owned ∧ b'.isAlive = false := by
  rw [genEnd, isAlive_bind] at run
  by_cases alive : b.isAlive = true
  · rw [if_pos alive] at run
    obtain ⟨_, b1, began, run⟩ := lift_bind_ok.mp run
    obtain ⟨s1, steady1, holds1⟩ := holds.note (.beginStatement _) trivial rfl began
    rw [read_bind] at run
    by_cases isVoid : (mc.result == .void) = true
    · rw [if_pos isVoid] at run
      obtain ⟨rfl, emitted⟩ := lift_ok.mp run
      obtain ⟨s2, steady2, holds2⟩ := holds1.spend (Asm.keeps_emit _) emitted
      exact ⟨s2, steady1.trans steady2, rfl, holds2, Asm.dead_of_emit rfl emitted⟩
    · rw [if_neg isVoid] at run
      obtain ⟨start, b2, entered, run⟩ := lift_bind_ok.mp run
      obtain ⟨jump, b3, jumped, run⟩ := lift_bind_ok.mp run
      obtain ⟨rfl, resolved⟩ := lift_ok.mp run
      obtain ⟨s2, steady2, holds2, dead⟩ := loopForever_ok holds1 entered jumped resolved
      exact ⟨s2, steady1.trans steady2, rfl, holds2, dead⟩
  · rw [if_neg alive] at run
    cases run
    exact ⟨s, .refl s, rfl, holds, by simpa using alive⟩

/-- A lowered method is a legal session that owns no jumps, in dead code and within the limits. -/
theorem genMethod_ok {body : Stmt} {pool : Pool}
    (run : genMethod method body mc {} ctx (.empty pool) = .ok (y, σ') b') :
    ∃ s, (Session.start pool).Grows s ∧ Holds ctx s σ' b' 0 ∧ b'.isAlive = false ∧
      Asm.WithinLimits b' := by
  have start : Holds ctx (.start pool) {} (.empty pool) (0 + 0) :=
    ⟨⟨rfl, by rfl, pool, .start⟩, by simp⟩
  obtain ⟨_, σ1, b1, declared, run⟩ := bind_ok.mp run
  have params : Keeps Still 0 (genParameters method) fun _ => 0 := keeps_genParameters method
  obtain ⟨s1, still, holds1⟩ := params declared start rfl
  obtain ⟨_, b2, began, run⟩ := lift_bind_ok.mp run
  have fresh : s1.Fresh := by
    constructor <;> rw [holds1.owns.buffer, silent_genParameters method declared] <;> rfl
  obtain ⟨s2, steady2, holds2⟩ := holds1.note .beginBody fresh rfl began
  obtain ⟨_, σ3, b3, bodied, run⟩ := bind_ok.mp run
  obtain ⟨s3, tracks, holds3⟩ := keeps_genBody body bodied holds2 rfl
  obtain ⟨_, _, b4, ended, run⟩ := bind_ok.mp run
  obtain ⟨s4, steady4, rfl, holds4, dead4⟩ := genEnd_ok holds3 ended
  obtain ⟨_, b5, closed, run⟩ := lift_bind_ok.mp run
  obtain ⟨s5, steady5, holds5⟩ := holds4.asm (Asm.keeps_endScopes 0) closed
  obtain ⟨rfl, checked⟩ := lift_ok.mp run
  obtain ⟨within, rfl⟩ := Asm.checkLimits_ok.mp checked
  have before := still.steady.toGrows.trans (steady2.toGrows.trans tracks.grows)
  exact ⟨s5, before.trans (steady4.toGrows.trans steady5.toGrows), holds5,
    (Asm.endScopes_dead dead4 closed).1, within⟩

end Lowering

end ClassForge
