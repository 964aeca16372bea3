import ClassForge.Proofs.Dispatching

namespace ClassForge

mutual

def Stmt.Proper : Stmt → Prop
  | .mk _ kind => kind.Proper

def StmtKind.Proper : StmtKind → Prop
  | .empty | .declare _ none | .breakTo _ | .continueTo _ | .ret none => True
  | .block stmts => Stmt.ProperAll stmts
  | .declare _ (some value) | .expr value | .ret (some value) | .raise value => value.Proper
  | .branch cond yes none => cond.Proper ∧ yes.Proper
  | .branch cond yes (some no) => cond.Proper ∧ yes.Proper ∧ no.Proper
  | .whileLoop cond body | .doLoop body cond | .synchronized cond body => cond.Proper ∧ body.Proper
  | .forLoop init cond update body =>
    Stmt.ProperAll init ∧ (∀ value ∈ cond, value.Proper) ∧ Expr.ProperAll update ∧ body.Proper
  | .labelled _ body => body.Proper
  | .switch selector cases => selector.Proper ∧ Case.ProperAll cases
  | .guarded body catches none => body.Proper ∧ Catch.ProperAll catches
  | .guarded body catches (some finalizer) =>
    body.Proper ∧ Catch.ProperAll catches ∧ finalizer.Proper

def Stmt.ProperAll : List Stmt → Prop
  | [] => True
  | stmt :: rest => stmt.Proper ∧ Stmt.ProperAll rest

def Case.ProperAll : List Case → Prop
  | [] => True
  | .mk _ _ body :: rest => Stmt.ProperAll body ∧ Case.ProperAll rest

def Catch.ProperAll : List Catch → Prop
  | [] => True
  | .mk _ _ body :: rest => body.Proper ∧ Catch.ProperAll rest

end

namespace Lowering

variable {S : List ScopeRecord → Prop}
variable {D : Discipline} {ctx : Context} {b b' : Buffer} {marks : Landmarks}
  {scopes : List Scope} {floors : List Nat} {cond : Lowering Condition}
  {body yes no : Lowering Unit}

section Parts

variable [D.Lawful]

theorem spendsAt_checkStack : SpendsAt D ctx b marks S S 0 checkStack := by
  refine ObeysAt.after_look (fun _ _ _ => rfl) ?_
  split
  · exact obeysAt_throw (Discipline.Lawful.leftovers _ _)
  · exact obeysAt_pure rfl

theorem spendsAt_genDeclaration (var : VarDecl) (init : Option Expr)
    (proper : D.exact → ∀ value ∈ init, value.Proper) :
    SpendsAt D ctx b marks S S 0 (genDeclaration var init) := by
  refine (obeysAt_declare var).then fun register b1 given _ known => ?_
  obtain ⟨rfl, room⟩ := known
  cases init with
  | none => exact obeysAt_pure rfl
  | some init =>
    have stored : Spends D 0 (do
        if var.constant.isNone || (← read).settings.localVariables then
          let code := TypeCode.ofType var.type
          discard (loadAs code (genItem init))
          (Item.localVar code register).store : Lowering Unit) := by
      refine spends_read.next fun mc => ?_
      split
      · refine (spends_loadAs _ (hands_genItem init fun exact => proper exact init rfl)).next fun _ => ?_
        exact lift_spends (Item.spends_store fun _ => room)
      · exact obeys_pure rfl
    dsimp only
    split
    · split
      · refine Obeys.at ?_
        exact obeys_throw_bind trivial
      · exact stored.at
    · exact stored.at

theorem follows_genBranch (tests : Obeys D 0 cond (Condition.Given D))
    (first : Follows D scopes yes) (second : Follows D scopes no) :
    Follows D scopes (genBranch cond yes no) := by
  intro ctx b marks floors cover
  refine ObeysAt.after_look (fun _ _ _ => rfl) ?_
  refine tests.at.then fun test b1 given _ known => ?_
  obtain ⟨rfl, fits⟩ := known
  refine (lift_obeys fits.jumpFalse).at.bind (k := test.trueJumps.sites)
    (fun failed b2 given _ known => ?_) (add_comm _ _)
  obtain ⟨rfl, failing⟩ := known
  generalize UInt16.ofNat b.nextRegister = limit
  have rest {b : Buffer} (done : Chain) (fits : done.Fits D) :
      SpendsAt D ctx b marks (Orderly D scopes floors) (Orderly D scopes floors)
        (failed.sites + done.sites) (do
          if !failed.isEmpty then
            Asm.resolve failed
            no
          Asm.resolve done
          Asm.endScopes limit : Lowering Unit) := by
    dsimp only
    split
    · refine SpendsAt.andThen (spends_resolve failing).at fun _ b3 _ => ?_
      refine ObeysAt.bind (k := done.sites) (second ctx b3 marks floors cover)
        (fun _ _ given _ none => ?_) (zero_add _)
      rw [none, zero_add]
      exact spendsAt_resolveEnd limit fits
    · next empty =>
      have none : failed = [] := by simpa using empty
      rw [none, Chain.sites_nil, zero_add]
      exact spendsAt_resolveEnd limit fits
  dsimp only
  split
  · next never =>
    rw [Condition.trueJumps_of_isFalse never]
    exact ObeysAt.after_pure (rest [] Chain.fits_nil)
  · rw [add_comm]
    refine SpendsAt.andThen (spends_resolve fits.yes).at fun _ b3 _ => ?_
    refine ObeysAt.bind (k := failed.sites) (first ctx b3 marks floors cover)
      (fun _ _ given _ none => ?_) (zero_add _)
    rw [none, zero_add]
    refine (obeys_branch .goto).at.bind (k := failed.sites) (fun done _ given _ known => ?_)
      (zero_add _)
    obtain ⟨rfl, fits⟩ := known
    rw [add_comm]
    exact rest done fits

theorem spendsAt_resolveNext {floor : Nat} :
    SpendsAt D ctx b marks (Orderly D (.loop :: scopes) (floor :: floors))
      (Orderly D (.switch :: scopes) (floor :: floors)) 0 resolveNext := by
  refine ObeysAt.takeOut (f := fun next => liftM (Asm.resolve next)) .switch .next
    (fun kept other site accepts => ?_) fun next known => ?_
  · cases kept with
    | next => exact absurd rfl other
    | exit => rfl
    | calls => cases accepts.1
  · rw [add_zero]
    exact Obeys.at (spends_resolve fun site member => (known site member).1)

theorem spends_genUpdates (updates : List Expr) (proper : D.exact → Expr.ProperAll updates) :
    Spends D 0 (genUpdates updates) := by
  induction updates with
  | nil => exact obeys_pure rfl
  | cons update rest ih =>
    have looked : Spends D 0 isAlive := spends_of_same ⟨_, rfl⟩
    have others := ih fun exact => (proper exact).2
    refine looked.next fun alive => ?_
    dsimp only
    split
    · exact (spends_genEffect update fun exact => (proper exact).1).next fun _ => others
    · exact others

theorem spendsAt_exited (scope : Scope) {action : Lowering Unit} (once : scope.isLoop = false)
    (uncalled : scope.isCalled = false)
    (inner : SpendsAt D ctx b marks (Fresh D scopes floors)
      (Orderly D (scope :: scopes) (0 :: floors)) 0 action) :
    StaysAt D ctx b marks scopes floors (do
      let (_, record) ← enclosed action
      resolveExit record) := by
  refine inner.enclosed.then fun found b1 given _ gave => ?_
  obtain ⟨_, rfl, rfl, fits⟩ := gave
  rw [zero_add]
  refine ObeysAt.after_look (fun _ _ _ => rfl) ?_
  exact spendsAt_resolveExit _ fits once uncalled

section Loops

variable {start : Nat}

theorem Landmarks.cover_loop (cover : marks.Cover floors) :
    (Call.marks marks .entryPoint start).Cover (0 :: floors) := by
  intro p member
  rcases List.mem_cons.mp member with rfl | member
  · exact .inl rfl
  · exact (cover p member).imp_right (List.mem_cons_of_mem _)

theorem spendsAt_resolveTo {back : Chain} (fits : back.Fits D)
    (latest : D.exact → ∀ p ∈ marks.floors, p ≤ start) :
    SpendsAt D ctx b (Call.marks marks .entryPoint start) S S back.sites
      (liftM (Asm.resolveTo back start) : Lowering Unit) := by
  refine lift_at (Asm.obeysAt_call (.resolveTo back start) trivial ⟨fits, fun exact => ?_⟩)
  refine ⟨.head _, fun p member => ?_⟩
  rcases List.mem_cons.mp member with rfl | member
  · exact le_rfl
  · exact latest exact p member

theorem follows_genTestFirst (updates : List Expr) (proper : D.exact → Expr.ProperAll updates)
    (tests : Obeys D 0 cond (Condition.Given D)) (follows : Follows D (.loop :: scopes) body) :
    Follows D scopes (genTestFirst cond updates body) := by
  intro ctx b marks floors cover
  refine spendsAt_exited .switch rfl rfl ?_
  refine ObeysAt.afterCall (k := 0) .entryPoint trivial trivial (fun start b1 given _ gave => ?_)
    (add_zero _)
  obtain ⟨rfl, latest⟩ := gave
  rw [add_zero]
  refine ObeysAt.fresh .loop 0 ?_
  refine ObeysAt.then (S := Orderly D (.loop :: scopes) (0 :: floors)) tests.at
    fun test b2 given _ known => ?_
  obtain ⟨rfl, fits⟩ := known
  refine (lift_obeys fits.jumpFalse).at.bind (k := test.trueJumps.sites)
    (fun done b3 given _ known => ?_) (add_comm _ _)
  obtain ⟨rfl, failing⟩ := known
  rw [add_comm]
  refine SpendsAt.andThen (spends_resolve fits.yes).at fun _ b4 _ => ?_
  refine SpendsAt.next (follows ctx b4 _ _ (Landmarks.cover_loop cover)) fun _ _ _ => ?_
  refine SpendsAt.next spendsAt_resolveNext fun _ _ _ => ?_
  refine SpendsAt.next (spends_genUpdates updates proper).at fun _ _ _ => ?_
  refine (obeys_branch .goto).at.bind (k := done.sites) (fun back b5 given _ known => ?_) (zero_add _)
  obtain ⟨rfl, fits⟩ := known
  refine SpendsAt.andThen (spendsAt_resolveTo fits latest) fun _ _ _ => ?_
  exact (spends_resolve failing).at

theorem follows_genTestLast (tests : Obeys D 0 cond (Condition.Given D))
    (follows : Follows D (.loop :: scopes) body) : Follows D scopes (genTestLast body cond) := by
  intro ctx b marks floors cover
  refine spendsAt_exited .switch rfl rfl ?_
  refine ObeysAt.afterCall (k := 0) .entryPoint trivial trivial (fun start b1 given _ gave => ?_)
    (add_zero _)
  obtain ⟨rfl, latest⟩ := gave
  rw [add_zero]
  refine ObeysAt.fresh .loop 0 ?_
  refine SpendsAt.next (follows ctx b1 _ _ (Landmarks.cover_loop cover)) fun _ _ _ => ?_
  refine SpendsAt.next spendsAt_resolveNext fun _ b2 _ => ?_
  refine ObeysAt.after_look (fun _ _ _ => rfl) ?_
  split
  · refine ObeysAt.then (S := Orderly D (.switch :: scopes) (0 :: floors)) tests.at
      fun test b3 given _ known => ?_
    obtain ⟨rfl, fits⟩ := known
    refine (lift_obeys fits.jumpTrue).at.bind (k := test.falseJumps.sites)
      (fun back b4 given _ known => ?_) rfl
    obtain ⟨rfl, passing⟩ := known
    refine SpendsAt.andThen (spendsAt_resolveTo passing latest) fun _ _ _ => ?_
    exact (spends_resolve fits.no).at
  · exact obeysAt_pure rfl

end Loops

theorem width_returnType (code : TypeCode) (value : Expr) :
    code.kind.type.width ≤ (returnType code value).width := by
  cases code with
  | object =>
    unfold returnType
    cases value.type with
    | none => exact le_rfl
    | some type =>
      cases type with
      | ref type => exact le_rfl
      | base type => cases type <;> decide
  | int | long | float | double | byte | char | short | void => exact le_rfl

theorem roomy_returnOf (code : TypeCode) : (Instruction.returnOf code).Roomy := by
  cases code <;> trivial

theorem obeys_heldResult (value : Option Expr) (proper : D.exact → ∀ e ∈ value, e.Proper) :
    Obeys D 0 (heldResult scopes value) fun result given =>
      given = 0 ∧ ∀ item ∈ result, item.Bare D 0 := by
  cases value with
  | none => exact obeys_pure ⟨rfl, fun item none => nomatch none⟩
  | some value =>
    refine spends_read.next fun mc => ?_
    have given := hands_genItem value fun exact => proper exact value rfl
    refine (obeys_loadAs _ given).then fun loaded none bare => ?_
    cases bare.none
    split
    · refine (obeys_temporary _).then fun register none known => ?_
      obtain ⟨rfl, room⟩ := known
      have fits : TypeCode.kind mc.result |>.Room register :=
        (Nat.add_le_add_left (width_returnType mc.result value) _).trans room
      have stored : Spends D 0
          (liftM (Item.localVar mc.result register).store : Lowering Unit) :=
        lift_spends (Item.spends_store fun _ => fits)
      refine stored.next fun _ => obeys_pure ⟨rfl, fun item same => ?_⟩
      cases same
      exact ⟨rfl, rfl, fun _ => fits⟩
    · refine obeys_pure ⟨rfl, fun item same => ?_⟩
      cases same
      exact bare

theorem spends_returnWith {result : Option Item} (bare : ∀ item ∈ result, item.Bare D 0) :
    Spends D 0 (returnWith result) := by
  cases result with
  | none => exact spends_emit _ trivial
  | some result =>
    have loaded : Spends D 0 (discard (liftM result.load) : Lowering Unit) :=
      Spends.discard (lift_spends (bare result rfl).held.spends_load)
    exact loaded.next fun _ => spends_read.next fun mc => spends_emit _ (roomy_returnOf _)

theorem follows_genReturn (value : Option Expr) (proper : D.exact → ∀ e ∈ value, e.Proper)
    (regular : Scope.AllRegular D scopes) : Follows D scopes (genReturn scopes value) := by
  intro ctx b marks floors cover
  refine ObeysAt.after_look (fun _ _ _ => rfl) ?_
  refine ObeysAt.after_look (fun _ _ _ => rfl) ?_
  refine (obeys_heldResult value proper).at.then fun result b1 given _ known => ?_
  obtain ⟨rfl, bare⟩ := known
  have left : StaysAt D ctx b1 marks scopes floors (unwind scopes) := by
    have unwound : StaysAt D ctx b1 marks scopes floors (unwind (scopes.take scopes.length)) := spendsAt_unwind scopes.length regular cover
    rwa [List.take_length] at unwound
  refine SpendsAt.next left fun _ _ _ => SpendsAt.next (spends_restoreLine _).at fun _ _ _ => ?_
  refine SpendsAt.next (spends_returnWith bare).at fun _ _ _ => ?_
  exact SpendsAt.next (spendsAt_endGapsFrom 0 _) fun _ _ _ => (spends_endScopes _).at

section Protection

variable {bodyOf : Scope → Lowering Unit}

theorem follows_protected {scope : Scope} {handlers : List Handler} (isTry : Bool)
    (regular : scope.Regular D scopes) (guards : scope.isLeft = false)
    (follows : Follows D (scope :: scopes) body)
    (clauses : ∀ handler ∈ handlers, Follows D (scope :: scopes) handler.code) :
    Follows D scopes (discard (enclosed (genGuarded scope body handlers isTry))) := by
  intro ctx b marks floors cover
  refine ObeysAt.losing (ObeysAt.enclosed
    (spendsAt_genGuarded isTry regular guards follows clauses cover)) fun found given gave exact => ?_
  obtain ⟨_, rfl, rfl, fits⟩ := gave
  rw [zero_add]
  exact fits.none exact (Scope.not_accepts_closed guards)

theorem follows_genTry {finalizer : Option Finalizer} (weight : Option Nat)
    {handlers : Scope → List Handler} (regular : ∀ found ∈ finalizer, Follows D scopes found.code)
    (inner : ∀ scope : Scope, scope.Regular D scopes → Follows D (scope :: scopes) (bodyOf scope))
    (clauses : ∀ scope : Scope, scope.Regular D scopes → ∀ clause ∈ handlers scope,
      Follows D (scope :: scopes) clause.code) :
    Follows D scopes (genTry finalizer weight bodyOf handlers) := by
  intro ctx b marks floors cover
  have guarded {b : Buffer} :
      StaysAt D ctx b marks scopes floors (do
        let scope := .guarded finalizer (← get).subroutines
        discard (enclosed (genGuarded scope (bodyOf scope) (handlers scope) true)) :
          Lowering Unit) := by
    have looked : Spends D 0 (get : Lowering MethodState) := spends_of_same ⟨_, rfl⟩
    refine SpendsAt.next looked.at fun σ b1 _ => ?_
    have whole : (Scope.guarded finalizer σ.subroutines).Regular D scopes := fun found has =>
      regular found has
    exact follows_protected true whole rfl (inner _ whole) (clauses _ whole) ctx b1 marks floors cover
  refine SpendsAt.next spends_read.at fun mc _ _ => ?_
  cases weight with
  | none => exact guarded
  | some weight =>
    exact SpendsAt.next (spendsAt_modify (fun _ => rfl) fun _ roomy => roomy) fun _ _ _ => guarded

theorem follows_genSynchronized {lock : Lowering Item} (given : Hands D lock)
    (inner : ∀ scope : Scope, scope.Regular D scopes → Follows D (scope :: scopes) (bodyOf scope)) :
    Follows D scopes (genSynchronized lock bodyOf) := by
  intro ctx b marks floors cover
  refine ObeysAt.after_look (fun _ _ _ => rfl) ?_
  refine (obeys_temporary _).at.then fun register _ none _ known => ?_
  obtain ⟨rfl, room⟩ := known
  refine SpendsAt.next (spends_loadAs .object given).at fun _ _ _ => ?_
  refine SpendsAt.next (spends_emit (.stack .dup) trivial).at fun _ _ _ => ?_
  refine SpendsAt.next (spends_emit (.store .ref register) room).at fun _ _ _ => ?_
  refine SpendsAt.next (spends_emit .monitorEnter trivial).at fun _ _ _ => ?_
  have locked : Spends D 0 (liftM (Note.lock register).perform : Lowering Unit) :=
    spends_note (.lock register) fun _ _ => trivial
  refine SpendsAt.next locked.at fun _ b1 _ => ?_
  have whole : (Scope.synchronized register).Regular D scopes := fun found has => nomatch has
  refine SpendsAt.next (follows_protected false whole rfl (inner _ whole) ?_ ctx b1 marks floors cover)
    fun _ _ _ => (spends_endScopes _).at
  exact nofun

end Protection

theorem obeys_loopCondition (test : Option Expr) (proper : D.exact → ∀ e ∈ test, e.Proper) :
    Obeys D 0 (loopCondition test) (Condition.Given D) := by
  cases test with
  | some test => exact obeys_genCond test fun exact => proper exact test rfl
  | none => exact obeys_pure (Condition.given_ofJump .goto)

end Parts

mutual

/-- By induction on the statement: inside of regular statements every one keeps the discipline. -/
theorem follows_genStmt [D.Lawful] {scopes : List Scope} (regular : Scope.AllRegular D scopes)
    (inSwitch : Bool) : ∀ stmt : Stmt, (D.exact → stmt.Proper) →
      Follows D scopes (genStmt scopes inSwitch stmt)
  | .mk line kind, proper => by
    intro ctx b marks floors cover
    unfold genStmt
    refine ObeysAt.after_look (fun _ _ _ => rfl) ?_
    dsimp only
    split
    · refine SpendsAt.next (spends_beginStatement line).at fun _ b1 _ => ?_
      exact SpendsAt.next (follows_genStmtKind regular kind proper ctx b1 marks floors cover)
        fun _ _ _ => spendsAt_checkStack
    · split
      · split
        · have declared (var : VarDecl) : StaysAt D ctx b marks scopes floors (discard (declare var)) :=
            SpendsAt.discard ((obeysAt_declare var).imp fun _ _ known => known.1)
          exact (declared _).next fun _ _ _ => spendsAt_checkStack
        · exact spendsAt_checkStack
      · exact spendsAt_checkStack

theorem follows_genStmtKind [D.Lawful] {scopes : List Scope} (regular : Scope.AllRegular D scopes) :
    ∀ kind : StmtKind, (D.exact → kind.Proper) → Follows D scopes (genStmtKind scopes kind)
  | .empty, _ => by
    rw [genStmtKind]
    exact fun _ _ _ _ _ => obeysAt_pure rfl
  | .block stmts, proper => by
    intro ctx b marks floors cover
    rw [genStmtKind]
    refine ObeysAt.after_look (fun _ _ _ => rfl) ?_
    exact SpendsAt.next (follows_genStmts regular false stmts proper ctx b marks floors cover)
      fun _ _ _ => (spends_endScopes _).at
  | .declare var none, _ => by
    rw [genStmtKind]
    exact fun _ _ _ _ _ => spendsAt_genDeclaration var none fun _ _ none => nomatch none
  | .declare var (some init), proper => by
    rw [genStmtKind]
    refine fun _ _ _ _ _ => spendsAt_genDeclaration var (some init) fun exact e same => ?_
    cases same
    exact proper exact
  | .expr value, proper => by
    rw [genStmtKind]
    exact fun _ _ _ _ _ => (spends_genEffect value proper).at
  | .branch cond yes none, proper => by
    rw [genStmtKind]
    refine follows_genBranch (obeys_genCond cond fun exact => (proper exact).1)
      (follows_genStmt regular false yes fun exact => (proper exact).2) ?_
    exact fun _ _ _ _ _ => obeysAt_pure rfl
  | .branch cond yes (some no), proper => by
    rw [genStmtKind]
    exact follows_genBranch (obeys_genCond cond fun exact => (proper exact).1)
      (follows_genStmt regular false yes fun exact => (proper exact).2.1)
      (follows_genStmt regular false no fun exact => (proper exact).2.2)
  | .whileLoop cond body, proper => by
    rw [genStmtKind]
    have inner : Scope.AllRegular D (.loop :: scopes) := regular.cons nofun
    exact follows_genTestFirst [] (fun _ => trivial) (obeys_genCond cond fun exact => (proper exact).1)
      (follows_genStmt inner false body fun exact => (proper exact).2)
  | .doLoop body cond, proper => by
    rw [genStmtKind]
    have inner : Scope.AllRegular D (.loop :: scopes) := regular.cons nofun
    exact follows_genTestLast (obeys_genCond cond fun exact => (proper exact).1)
      (follows_genStmt inner false body fun exact => (proper exact).2)
  | .forLoop init cond update body, proper => by
    intro ctx b marks floors cover
    rw [genStmtKind]
    refine ObeysAt.after_look (fun _ _ _ => rfl) ?_
    refine SpendsAt.next (follows_genStmts regular false init (fun exact => (proper exact).1)
      ctx b marks floors cover) fun _ b1 _ => ?_
    have inner : Scope.AllRegular D (.loop :: scopes) := regular.cons nofun
    have looped := follows_genTestFirst update (fun exact => (proper exact).2.2.1)
      (obeys_loopCondition cond fun exact => (proper exact).2.1)
      (follows_genStmt inner false body fun exact => (proper exact).2.2.2)
    exact SpendsAt.next (looped ctx b1 marks floors cover) fun _ _ _ => (spends_endScopes _).at
  | .labelled label body, proper => by
    intro ctx b marks floors cover
    rw [genStmtKind]
    have around : Scope.AllRegular D (.labelled label :: scopes) := regular.cons nofun
    have inner := follows_genStmt around false body proper ctx b marks (0 :: floors) cover.cons
    exact spendsAt_exited _ rfl rfl (inner.fresh (.labelled label) 0)
  | .switch selector cases, proper => by
    rw [genStmtKind]
    have inner : Scope.AllRegular D (.switch :: scopes) := regular.cons nofun
    exact follows_genSwitch (hands_genItem selector fun exact => (proper exact).1)
      (follows_switchCases inner cases fun exact => (proper exact).2)
  | .breakTo label, _ => by
    rw [genStmtKind]
    exact follows_genBreak label regular
  | .continueTo label, _ => by
    rw [genStmtKind]
    exact follows_genContinue label regular
  | .ret none, _ => by
    rw [genStmtKind]
    exact follows_genReturn none (fun _ _ none => nomatch none) regular
  | .ret (some value), proper => by
    rw [genStmtKind]
    refine follows_genReturn (some value) (fun exact e same => ?_) regular
    cases same
    exact proper exact
  | .raise value, proper => by
    rw [genStmtKind]
    exact fun _ _ _ _ _ => (spends_thrown (hands_genItem value proper)).at
  | .guarded body catches none, proper => by
    rw [genStmtKind]
    refine follows_genTry none (nofun) (fun scope whole => ?_) fun scope whole => ?_
    · exact follows_genStmt (regular.cons whole) false body fun exact => (proper exact).1
    · exact follows_catchHandlers (regular.cons whole) catches fun exact => (proper exact).2
  | .guarded body catches (some finalizer), proper => by
    intro ctx b marks floors cover
    rw [genStmtKind]
    refine SpendsAt.next spends_read.at fun mc b1 _ => ?_
    refine follows_genTry _ (fun found has => ?_) (fun scope whole => ?_) (fun scope whole => ?_)
      ctx b1 marks floors cover
    · cases has
      exact follows_genStmt regular false finalizer fun exact => (proper exact).2.2
    · exact follows_genStmt (regular.cons whole) false body fun exact => (proper exact).1
    · exact follows_catchHandlers (regular.cons whole) catches fun exact => (proper exact).2.1
  | .synchronized lock body, proper => by
    rw [genStmtKind]
    refine follows_genSynchronized (hands_genItem lock fun exact => (proper exact).1)
      fun scope whole => ?_
    exact follows_genStmt (regular.cons whole) false body fun exact => (proper exact).2

theorem follows_genStmts [D.Lawful] {scopes : List Scope} (regular : Scope.AllRegular D scopes)
    (inSwitch : Bool) : ∀ stmts : List Stmt, (D.exact → Stmt.ProperAll stmts) →
      Follows D scopes (genStmts scopes inSwitch stmts)
  | [], _ => fun _ _ _ _ _ => obeysAt_pure rfl
  | stmt :: rest, proper => by
    intro ctx b marks floors cover
    refine SpendsAt.next (follows_genStmt regular inSwitch stmt (fun exact => (proper exact).1)
      ctx b marks floors cover) fun _ b1 _ => ?_
    exact follows_genStmts regular inSwitch rest (fun exact => (proper exact).2) ctx b1 marks floors
      cover

theorem follows_switchCases [D.Lawful] {scopes : List Scope} (regular : Scope.AllRegular D scopes) :
    ∀ cases : List Case, (D.exact → Case.ProperAll cases) →
      ∀ case ∈ switchCases scopes cases, Follows D scopes case.code
  | [], _ => nofun
  | .mk labels isDefault body :: rest, proper => by
    intro case member
    rcases List.mem_cons.mp member with rfl | member
    · exact follows_genStmts regular true body fun exact => (proper exact).1
    · exact follows_switchCases regular rest (fun exact => (proper exact).2) case member

theorem follows_catchHandlers [D.Lawful] {scopes : List Scope} (regular : Scope.AllRegular D scopes) :
    ∀ catches : List Catch, (D.exact → Catch.ProperAll catches) →
      ∀ clause ∈ catchHandlers scopes catches, Follows D scopes clause.code
  | [], _ => nofun
  | .mk types param body :: rest, proper => by
    intro clause member
    rcases List.mem_cons.mp member with rfl | member
    · exact follows_genStmt regular false body fun exact => (proper exact).1
    · exact follows_catchHandlers regular rest (fun exact => (proper exact).2) clause member

end

end Lowering

end ClassForge
