import ClassForge.Proofs.Guards
import ClassForge.Proofs.Switches

namespace ClassForge

namespace Lowering

variable {action : Lowering Unit}

section Loops

variable {α : Type} {owned k total : Multiset Nat} {start : Nat}

/-- Lowering respects what it owns as long as the position has been entered. -/
def Since (start : Nat) (owned : Multiset Nat) (action : Lowering Unit) : Prop :=
  ∀ ⦃mc ctx σ σ' b b' x⦄, action mc σ ctx b = .ok (x, σ') b' → ∀ ⦃s rest⦄,
    Holds ctx s σ b (owned + rest) → start ∈ s.entries →
    ∃ s', Tracks s σ s' σ' ∧ Holds ctx s' σ' b' rest

theorem Keeps.since (keeps : Keeps Tracks owned action fun _ => 0) : Since start owned action := by
  intro mc ctx σ σ' b b' x run s rest holds _
  obtain ⟨s', tracks, holds'⟩ := keeps run holds rfl
  exact ⟨s', tracks, holds'.mono (zero_add rest).ge⟩

theorem Since.mono (since : Since start owned action) (less : owned ≤ total) :
    Since start total action :=
  fun _ _ _ _ _ _ _ run _ _ holds entered =>
    since run (holds.mono (add_le_add_left less _)) entered

theorem Keeps.then_since {x : Lowering α} {f : α → Lowering Unit} {given : α → Multiset Nat}
    (first : Keeps Tracks owned x given) (second : ∀ a, Since start (given a + k) (f a))
    (split : owned + k ≤ total) : Since start total (x >>= f) := by
  intro mc ctx σ σ'' b b'' y run s rest holds entered
  obtain ⟨a, σ', between, ran, run⟩ := bind_ok.mp run
  have holds' : Holds ctx s σ b (owned + (k + rest)) := by
    refine holds.mono ?_
    rw [← add_assoc]
    exact add_le_add_left split _
  obtain ⟨s1, tracks1, holds1⟩ := first ran holds' rfl
  rw [← add_assoc] at holds1
  obtain ⟨s2, tracks2, holds2⟩ := second a run holds1 (tracks1.grows.entries start entered)
  exact ⟨s2, Leaves.trans tracks1 tracks2, holds2⟩

theorem since_resolveTo {chain : Chain} {rest : Lowering Unit}
    (after : Keeps Tracks k rest fun _ => 0) :
    Since start (chain.pcs + k) (do Asm.resolveTo chain start; rest) := by
  intro mc ctx σ σ' b b' x run s others holds entered
  obtain ⟨_, c, resolved, run⟩ := lift_bind_ok.mp run
  rw [add_assoc] at holds
  obtain ⟨s1, steady, holds1⟩ := holds.resolveTo entered resolved
  obtain ⟨s2, tracks, holds2⟩ := after run holds1 rfl
  exact ⟨s2, tracks.absorb steady rfl, holds2.mono (zero_add others).ge⟩

theorem keeps_entered {f : Nat → Lowering Unit} (loops : ∀ start, Since start 0 (f start)) :
    Keeps Tracks 0 (do f (← Asm.entryPoint)) fun _ => 0 := by
  intro mc ctx σ σ' b b' y run s rest _ holds known
  cases known
  obtain ⟨start, c, ran, run⟩ := lift_bind_ok.mp run
  obtain ⟨s1, steady, _, entered, holds1⟩ := holds.entryPoint ran
  obtain ⟨s2, tracks, holds2⟩ := loops start run holds1 entered
  exact ⟨s2, tracks.absorb steady rfl, holds2.mono (zero_add rest).le⟩

end Loops

variable {how : Change} [how.Lawful] {cond : Lowering Condition} {body yes no : Lowering Unit}
  {scopes : List Scope}

theorem keeps_checkStack : Keeps how 0 checkStack fun _ => 0 := by
  refine keeps_buffer.next fun b => ?_
  split
  · exact fails_throw.yields
  · exact keeps_pure le_rfl

theorem keeps_genDeclaration (var : VarDecl) (init : Option Expr) :
    Keeps how 0 (genDeclaration var init) fun _ => 0 := by
  refine (keeps_declare var).next fun register => ?_
  cases init with
  | none => exact keeps_pure le_rfl
  | some init =>
    have stored : Keeps how 0 (do
        if var.constant.isNone || (← read).settings.localVariables then
          let code := TypeCode.ofType var.type
          discard (loadAs code (genItem init))
          (Item.localVar code register).store : Lowering Unit) fun _ => 0 := by
      refine keeps_read.next fun mc => ?_
      split
      · exact (keeps_loaded _ (handy_genItem init)).next fun _ => keeps_store _
      · exact keeps_pure le_rfl
    dsimp only
    split
    · split
      · exact fails_throw.bind.yields
      · exact stored
    · exact stored

theorem keeps_genBranch (tests : Keeps how 0 cond Condition.pcs) (first : Keeps how 0 yes fun _ => 0)
    (second : Keeps how 0 no fun _ => 0) : Keeps how 0 (genBranch cond yes no) fun _ => 0 := by
  refine keeps_nextRegister.next fun limit => ?_
  refine tests.bind (k := 0) (fun cond => ?_) (add_zero _).le
  refine (keeps_jumpFalse cond).bind (k := cond.trueJumps.pcs) (fun failed => ?_)
    (Eq.le (by simp only [Condition.pcs]; abel))
  have finish : ∀ done : Chain, Keeps how done.pcs (do
      Asm.resolve done
      Asm.endScopes limit : Lowering Unit) fun _ => 0 := fun done =>
    (keeps_resolve done).bind (k := 0) (fun _ => keeps_endScopes limit) (add_zero _).le
  have rest : ∀ done : Chain, Keeps how (failed.pcs + done.pcs) (do
      if !failed.isEmpty then
        Asm.resolve failed
        no
      Asm.resolve done
      Asm.endScopes limit : Lowering Unit) fun _ => 0 := by
    intro done
    dsimp only
    split
    · refine (keeps_resolve _).bind (k := done.pcs) (fun _ => ?_) le_rfl
      exact second.next fun _ => (finish done).mono (zero_add _).ge
    · exact (finish done).mono (Multiset.le_add_left _ _)
  dsimp only
  split
  · exact (rest []).after_pure.mono (add_le_add_right (Multiset.zero_le _) _)
  · refine (keeps_resolve _).bind (k := failed.pcs) (fun _ => ?_) (add_comm _ _).le
    refine first.next fun _ => ?_
    exact (keeps_branch _).bind (k := failed.pcs) (fun done => (rest done).mono (add_comm _ _).le)
      (Eq.le (by abel))

theorem keeps_resolveNext : Keeps how 0 resolveNext fun _ => 0 := by
  intro mc ctx σ σ' b b' y run s rest _ holds known
  cases known
  rw [resolveNext, record_bind] at run
  rw [changeRecord_bind] at run
  obtain ⟨rfl, resolved⟩ := lift_ok.mp run
  obtain ⟨s', steady, holds'⟩ := (holds.takeOut .next 0).asm (Asm.keeps_resolve _) resolved
  exact ⟨s', Change.Lawful.still steady (gaps_modify 0 fun _ => rfl), holds'.mono (zero_add _).ge⟩

theorem keeps_resolveExit (record : ScopeRecord) :
    Keeps how record.pcs (resolveExit record) fun _ => 0 := by
  refine keeps_nextRegister.next fun limit => ?_
  refine (keeps_resolve _).mono ?_
  rw [Chain.pcs_undefineFrom]
  exact (Multiset.le_add_right _ _).trans (Multiset.le_add_right _ _)

theorem keeps_genUpdates (updates : List Expr) : Keeps how 0 (genUpdates updates) fun _ => 0 := by
  induction updates with
  | nil => exact keeps_pure le_rfl
  | cons update rest ih =>
    refine keeps_isAlive.next fun alive => ?_
    dsimp only
    split
    · exact (keeps_genEffect update).next fun _ => ih
    · exact ih

theorem keeps_exited (keeps : Keeps Tracks 0 action fun _ => 0) :
    Keeps Tracks 0 (do
      let (_, record) ← enclosed action
      resolveExit record) fun _ => 0 := by
  refine Keeps.bind (k := 0) (keeps_enclosed keeps Tracks.enclosed) (fun found => ?_) (add_zero _).le
  exact (keeps_resolveExit found.2).mono (Eq.le (by rw [zero_add, add_zero]))

theorem keeps_genTestFirst (updates : List Expr) (tests : Keeps Tracks 0 cond Condition.pcs)
    (sound : Keeps Tracks 0 body fun _ => 0) :
    Keeps Tracks 0 (genTestFirst cond updates body) fun _ => 0 := by
  refine keeps_exited (keeps_entered fun start => ?_)
  refine tests.then_since (k := 0) (fun cond => ?_) (add_zero _).le
  refine (keeps_jumpFalse cond).then_since (k := cond.trueJumps.pcs) (fun done => ?_)
    (Eq.le (by simp only [Condition.pcs]; abel))
  refine (keeps_resolve _).then_since (k := done.pcs) (fun _ => ?_) (add_comm _ _).le
  refine sound.then_since (k := done.pcs) (fun _ => ?_) le_rfl
  refine keeps_resolveNext.then_since (k := done.pcs) (fun _ => ?_) le_rfl
  refine (keeps_genUpdates updates).then_since (k := done.pcs) (fun _ => ?_) le_rfl
  refine (keeps_branch .goto).then_since (k := done.pcs) (fun back => ?_) le_rfl
  exact since_resolveTo (keeps_resolve done)

theorem keeps_genTestLast (sound : Keeps Tracks 0 body fun _ => 0)
    (tests : Keeps Tracks 0 cond Condition.pcs) :
    Keeps Tracks 0 (genTestLast body cond) fun _ => 0 := by
  refine keeps_exited (keeps_entered fun start => ?_)
  refine sound.then_since (k := 0) (fun _ => ?_) (add_zero _).le
  refine keeps_resolveNext.then_since (k := 0) (fun _ => ?_) le_rfl
  refine keeps_isAlive.then_since (k := 0) (fun alive => ?_) le_rfl
  split
  · refine tests.then_since (k := 0) (fun cond => ?_) le_rfl
    refine (keeps_jumpTrue cond).then_since (k := cond.falseJumps.pcs) (fun back => ?_)
      (Eq.le (by simp only [Condition.pcs]; abel))
    exact since_resolveTo (keeps_resolve _)
  · exact (keeps_pure le_rfl).since.mono (Multiset.zero_le _)

theorem keeps_loopCondition (test : Option Expr) : Keeps how 0 (loopCondition test) Condition.pcs := by
  cases test with
  | some test => exact keeps_genCond test
  | none => exact keeps_pure le_rfl

theorem keeps_heldResult (value : Option Expr) :
    Keeps how 0 (heldResult scopes value) fun _ => 0 := by
  cases value with
  | none => exact keeps_pure le_rfl
  | some value =>
    refine keeps_read.next fun mc => (keeps_loadAs _ (handy_genItem value)).next fun loaded => ?_
    split
    · refine (keeps_temporary _).next fun register => ?_
      exact Keeps.next (keeps_store _) fun _ => keeps_pure le_rfl
    · exact keeps_pure le_rfl

theorem answers_heldResult (value : Option Expr) :
    Answers (heldResult scopes value) fun result => ∀ item ∈ result, item.sites = 0 := by
  cases value with
  | none => exact answers_pure (by simp)
  | some value =>
    refine answers_bind fun mc => (sites_loadAs _ (handy_genItem value)).bind fun loaded known => ?_
    dsimp only
    split
    · refine answers_bind fun register => answers_bind fun _ => answers_pure ?_
      rintro item ⟨⟩
      rfl
    · refine answers_pure ?_
      rintro item ⟨⟩
      exact known

theorem keeps_returnWith {result : Option Item} (known : ∀ item ∈ result, item.sites = 0) :
    Keeps how 0 (returnWith result) fun _ => 0 := by
  cases result with
  | none => exact keeps_emit _
  | some result =>
    refine (keeps_load (known result rfl)).discard.next fun _ => ?_
    exact keeps_read.next fun mc => keeps_emit _

theorem keeps_genReturn (value : Option Expr) (sound : ∀ scope ∈ scopes, scope.Sound) :
    Keeps Tracks 0 (genReturn scopes value) fun _ => 0 := by
  refine keeps_nextRegister.next fun limit => keeps_pendingLine.next fun line => ?_
  refine (keeps_heldResult value).next_of (answers_heldResult value) fun result known => ?_
  refine (keeps_unwind sound).chain fun _ => ?_
  refine (keeps_restoreLine line).ahead fun _ => (keeps_returnWith known).ahead fun _ => ?_
  exact (keeps_endGaps scopes).chain fun _ => keeps_endScopes limit

section Protection

variable {bodyOf : Scope → Lowering Unit}

theorem keeps_genTry {finalizer : Option Finalizer} (weight : Option Nat)
    {handlers : Scope → List Handler}
    (sound : ∀ found ∈ finalizer, Keeps Tracks 0 found.code fun _ => 0)
    (inner : ∀ scope : Scope, scope.Sound → Keeps Tracks 0 (bodyOf scope) fun _ => 0)
    (clauses : ∀ scope : Scope, scope.Sound → ∀ clause ∈ handlers scope,
      Keeps Tracks 0 clause.code fun _ => 0) :
    Keeps Tracks 0 (genTry finalizer weight bodyOf handlers) fun _ => 0 := by
  have guarded : Keeps Tracks 0 (do
      let scope := .guarded finalizer (← get).subroutines
      discard (enclosed (genGuarded scope (bodyOf scope) (handlers scope) true)) : Lowering Unit)
      fun _ => 0 := by
    refine keeps_get.next fun σ => ?_
    have whole : (Scope.guarded finalizer σ.subroutines).Sound := fun found has => sound found has
    exact (keeps_guarded whole (inner _ whole) (clauses _ whole)).discard
  refine keeps_read.next fun mc => ?_
  cases weight with
  | none => exact guarded
  | some weight => exact Keeps.next (keeps_modify fun _ => rfl) fun _ => guarded

theorem keeps_genSynchronized {lock : Lowering Item} (given : IsHandy lock)
    (inner : ∀ scope : Scope, scope.Sound → Keeps Tracks 0 (bodyOf scope) fun _ => 0) :
    Keeps Tracks 0 (genSynchronized lock bodyOf) fun _ => 0 := by
  refine keeps_nextRegister.next fun limit => (keeps_temporary _).next fun register => ?_
  refine (keeps_loaded .object given).next fun _ => (keeps_emit _).next fun _ => ?_
  refine (keeps_emit _).next fun _ => (keeps_emit _).next fun _ => ?_
  have whole : (Scope.synchronized register).Sound := .of_none rfl
  refine Keeps.next (keeps_note (.lock register) fun _ => trivial) fun _ => ?_
  refine Keeps.next (keeps_guarded whole (inner _ whole) ?_).discard fun _ => keeps_endScopes limit
  simp

end Protection

theorem sound_cons {scope : Scope} (whole : scope.Sound) (sound : ∀ scope ∈ scopes, scope.Sound) :
    ∀ other ∈ scope :: scopes, other.Sound :=
  List.forall_mem_cons.mpr ⟨whole, sound⟩

mutual

/-- By induction on the statement: its jumps are resolved, and gaps and rows are only added. -/
theorem keeps_genStmt {scopes : List Scope} (sound : ∀ scope ∈ scopes, scope.Sound)
    (inSwitch : Bool) : ∀ stmt : Stmt, Keeps Tracks 0 (genStmt scopes inSwitch stmt) fun _ => 0
  | .mk line kind => by
    refine keeps_isAlive.next fun alive => ?_
    dsimp only
    split
    · refine (keeps_beginStatement line).next fun _ => ?_
      exact (keeps_genStmtKind sound kind).next fun _ => keeps_checkStack
    · split
      · split
        · exact (keeps_declare _).discard.next fun _ => keeps_checkStack
        · exact keeps_checkStack
      · exact keeps_checkStack

theorem keeps_genStmtKind {scopes : List Scope} (sound : ∀ scope ∈ scopes, scope.Sound) :
    ∀ kind : StmtKind, Keeps Tracks 0 (genStmtKind scopes kind) fun _ => 0
  | .empty => by
    rw [genStmtKind]
    exact keeps_pure le_rfl
  | .block stmts => by
    rw [genStmtKind]
    refine keeps_nextRegister.next fun limit => ?_
    exact (keeps_genStmts sound false stmts).next fun _ => keeps_endScopes limit
  | .declare var init => by
    rw [genStmtKind]
    exact keeps_genDeclaration var init
  | .expr value => by
    rw [genStmtKind]
    exact keeps_genEffect value
  | .branch cond yes none => by
    rw [genStmtKind]
    exact keeps_genBranch (keeps_genCond cond) (keeps_genStmt sound false yes) (keeps_pure le_rfl)
  | .branch cond yes (some no) => by
    rw [genStmtKind]
    exact keeps_genBranch (keeps_genCond cond) (keeps_genStmt sound false yes)
      (keeps_genStmt sound false no)
  | .whileLoop cond body => by
    rw [genStmtKind]
    exact keeps_genTestFirst [] (keeps_genCond cond)
      (keeps_genStmt (sound_cons (.of_none rfl) sound) false body)
  | .doLoop body cond => by
    rw [genStmtKind]
    exact keeps_genTestLast (keeps_genStmt (sound_cons (.of_none rfl) sound) false body)
      (keeps_genCond cond)
  | .forLoop init cond update body => by
    rw [genStmtKind]
    refine keeps_nextRegister.next fun limit => (keeps_genStmts sound false init).next fun _ => ?_
    refine Keeps.next (keeps_genTestFirst update (keeps_loopCondition cond) ?_) fun _ =>
      keeps_endScopes limit
    exact keeps_genStmt (sound_cons (.of_none rfl) sound) false body
  | .labelled label body => by
    rw [genStmtKind]
    exact keeps_exited (keeps_genStmt (sound_cons (.of_none rfl) sound) false body)
  | .switch selector cases => by
    rw [genStmtKind]
    exact keeps_genSwitch (handy_genItem selector)
      (keeps_switchCases (sound_cons (.of_none rfl) sound) cases)
  | .breakTo label => by
    rw [genStmtKind]
    exact keeps_genBreak label sound
  | .continueTo label => by
    rw [genStmtKind]
    exact keeps_genContinue label sound
  | .ret value => by
    rw [genStmtKind]
    exact keeps_genReturn value sound
  | .raise value => by
    rw [genStmtKind]
    exact keeps_thrown (handy_genItem value)
  | .guarded body catches none => by
    rw [genStmtKind]
    refine keeps_genTry none (by simp) (fun scope whole => ?_) fun scope whole => ?_
    · exact keeps_genStmt (sound_cons whole sound) false body
    · exact keeps_catchHandlers (sound_cons whole sound) catches
  | .guarded body catches (some finalizer) => by
    rw [genStmtKind]
    refine keeps_read.next fun mc => ?_
    refine keeps_genTry _ ?_ (fun scope whole => ?_) fun scope whole => ?_
    · intro found has
      cases has
      exact keeps_genStmt sound false finalizer
    · exact keeps_genStmt (sound_cons whole sound) false body
    · exact keeps_catchHandlers (sound_cons whole sound) catches
  | .synchronized lock body => by
    rw [genStmtKind]
    refine keeps_genSynchronized (handy_genItem lock) fun scope whole => ?_
    exact keeps_genStmt (sound_cons whole sound) false body

theorem keeps_genStmts {scopes : List Scope} (sound : ∀ scope ∈ scopes, scope.Sound)
    (inSwitch : Bool) : ∀ stmts : List Stmt,
      Keeps Tracks 0 (genStmts scopes inSwitch stmts) fun _ => 0
  | [] => keeps_pure le_rfl
  | stmt :: rest =>
    (keeps_genStmt sound inSwitch stmt).next fun _ => keeps_genStmts sound inSwitch rest

theorem keeps_switchCases {scopes : List Scope} (sound : ∀ scope ∈ scopes, scope.Sound) :
    ∀ cases : List Case, ∀ case ∈ switchCases scopes cases, Keeps Tracks 0 case.code fun _ => 0
  | [] => nofun
  | .mk labels isDefault body :: rest => by
    intro case member
    rcases List.mem_cons.mp member with rfl | member
    · exact keeps_genStmts sound true body
    · exact keeps_switchCases sound rest case member

theorem keeps_catchHandlers {scopes : List Scope} (sound : ∀ scope ∈ scopes, scope.Sound) :
    ∀ catches : List Catch, ∀ clause ∈ catchHandlers scopes catches,
      Keeps Tracks 0 clause.code fun _ => 0
  | [] => nofun
  | .mk types param body :: rest => by
    intro clause member
    rcases List.mem_cons.mp member with rfl | member
    · exact keeps_genStmt sound false body
    · exact keeps_catchHandlers sound rest clause member

end

end Lowering

end ClassForge
