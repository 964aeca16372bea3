import ClassForge.Proofs.Handling
import ClassForge.Proofs.Holding

namespace ClassForge

namespace Expr

/-- The expression is a variable, a field or an element of an array, and not a constant. -/
def IsTarget (e : Expr) : Prop :=
  e.constantValue = none ∧
    match e.kind with
    | .localVar _ | .field _ _ | .index _ _ => True
    | _ => False

end Expr

def UnaryOp.IsStep : UnaryOp → Prop
  | .preInc | .preDec | .postInc | .postDec => True
  | _ => False

mutual

def Expr.Proper : Expr → Prop
  | .mk _ _ kind => kind.Proper

def ExprKind.Proper : ExprKind → Prop
  | .literal _ | .null | .localVar _ | .self | .classLiteral _ => True
  | .field receiver _ => receiver.Proper
  | .invoke receiver _ args => receiver.Proper ∧ Expr.ProperAll args
  | .construct _ args => Expr.ProperAll args
  | .newArray dims none => Expr.ProperAll dims
  | .newArray dims (some elems) => Expr.ProperAll dims ∧ Expr.ProperAll elems
  | .arrayLength inner | .cast inner | .instanceOf inner _ => inner.Proper
  | .index array index => array.Proper ∧ index.Proper
  | .assign target value | .compoundAssign _ target value =>
    target.IsTarget ∧ target.Proper ∧ value.Proper
  | .unary op operand => (op.IsStep → operand.IsTarget) ∧ operand.Proper
  | .binary _ left right => left.Proper ∧ right.Proper
  | .conditional cond yes no => cond.Proper ∧ yes.Proper ∧ no.Proper

def Receiver.Proper : Receiver → Prop
  | .implicit | .self | .super => True
  | .expr value => value.Proper

def Expr.ProperAll : List Expr → Prop
  | [] => True
  | e :: rest => e.Proper ∧ Expr.ProperAll rest

end

def MethodState.Roomy (σ : MethodState) : Prop :=
  ∀ (id : VarId) (code : TypeCode) (register : UInt16),
    σ.locals[id]? = some (code, register) → code.kind.Room register

namespace Lowering

variable {α β : Type} {D : Discipline}

/-- The action uses up the jumps that it is given and gives those in its answer. What lowering keeps
track of stays as it is. -/
def Obeys (D : Discipline) (owned : Multiset JumpSite) (action : Lowering α)
    (gives : α → Multiset JumpSite → Prop) : Prop :=
  ∀ mc σ, (D.rooms → σ.Roomy) → Asm.Obeys D owned (action mc σ) fun found given =>
    found.2 = σ ∧ gives found.1 given

abbrev Spends (D : Discipline) (owned : Multiset JumpSite) (action : Lowering α) : Prop :=
  Obeys D owned action fun _ given => given = 0

variable {owned k total : Multiset JumpSite} {gives fewer : α → Multiset JumpSite → Prop}
  {last : β → Multiset JumpSite → Prop} {x : Lowering α} {f : α → Lowering β}

theorem Obeys.imp (obeys : Obeys D owned x gives)
    (more : ∀ a given, gives a given → fewer a given) : Obeys D owned x fewer :=
  fun mc σ roomy => (obeys mc σ roomy).imp fun _ given known => ⟨known.1, more _ given known.2⟩

theorem obeys_pure {a : α} (known : gives a owned) : Obeys D owned (pure a) gives :=
  fun _ _ _ => Asm.obeys_pure ⟨rfl, known⟩

/-- One action after another; the second is given what the first gives and what it leaves alone. -/
theorem Obeys.bind (first : Obeys D owned x gives)
    (second : ∀ a given, gives a given → Obeys D (given + k) (f a) last)
    (split : owned + k = total) : Obeys D total (x >>= f) last := by
  intro mc σ roomy
  refine Asm.Obeys.bind (first mc σ roomy) (fun found given known => ?_) split
  obtain ⟨same, known⟩ := known
  have rest := second found.1 given known mc σ roomy
  rw [← same] at rest ⊢
  exact rest

theorem Spends.andThen (first : Spends D owned x) (second : ∀ a, Obeys D k (f a) last) :
    Obeys D (owned + k) (x >>= f) last := by
  refine Obeys.bind first (fun a given none => ?_) rfl
  rw [none, zero_add]
  exact second a

theorem Spends.before (first : Spends D owned x) (second : ∀ a, Obeys D 0 (f a) last) :
    Obeys D owned (x >>= f) last :=
  add_zero owned ▸ first.andThen second

theorem Spends.next (first : Spends D 0 x) (second : ∀ a, Obeys D owned (f a) last) :
    Obeys D owned (x >>= f) last := by
  refine Obeys.bind first (fun a given none => ?_) (zero_add owned)
  rw [none, zero_add]
  exact second a

theorem Obeys.then (first : Obeys D owned x gives)
    (second : ∀ a given, gives a given → Obeys D given (f a) last) :
    Obeys D owned (x >>= f) last := by
  refine first.bind (fun a given known => ?_) (add_zero owned)
  rw [add_zero]
  exact second a given known

theorem Obeys.after_pure {a : α} (second : Obeys D total (f a) last) :
    Obeys D total (pure a >>= f) last := by
  have none : Obeys D 0 (pure a : Lowering α) fun y given => y = a ∧ given = 0 :=
    obeys_pure ⟨rfl, rfl⟩
  refine none.bind (fun y given same => ?_) (zero_add _)
  obtain ⟨rfl, rfl⟩ := same
  rw [zero_add]
  exact second

theorem lift_obeys {a : Asm α} (obeys : Asm.Obeys D owned a gives) :
    Obeys D owned (liftM a : Lowering α) gives := by
  intro mc σ roomy
  refine Asm.Obeys.bind (k := 0) obeys (fun y given known => ?_) (add_zero owned)
  rw [add_zero]
  exact Asm.obeys_pure ⟨rfl, known⟩

theorem lift_spends {a : Asm α} (spends : Asm.Spends D owned a) :
    Spends D owned (liftM a : Lowering α) :=
  lift_obeys spends

theorem Spends.discard (spends : Spends D owned x) : Spends D owned (discard x) := by
  intro mc σ roomy
  refine Asm.Obeys.bind (k := 0) (spends mc σ roomy) (fun found given known => ?_) (add_zero owned)
  rw [add_zero]
  exact Asm.obeys_pure known

theorem spends_of_same (same : ∀ {mc ctx σ b}, ∃ y, x mc σ ctx b = .ok (y, σ) b) :
    Spends D 0 x := by
  intro mc σ roomy ctx b marks
  obtain ⟨y, run⟩ : ∃ y, x mc σ ctx b = .ok (y, σ) b := same
  refine ⟨fun b' found ran rest holds => ?_, fun e b' failed => ?_⟩
  · rw [run] at ran
    cases ran
    exact ⟨0, ⟨rfl, rfl⟩, holds⟩
  · rw [run] at failed
    cases failed

theorem spends_read : Spends D 0 (read : Lowering MethodContext) :=
  spends_of_same ⟨_, rfl⟩

theorem spends_readThe : Spends D 0 (readThe Context : Lowering Context) :=
  spends_of_same ⟨_, rfl⟩

section Parts

variable [D.Basic]

theorem obeys_throw {e : Error} (plain : e.IsPlain) : Obeys D owned (throw e : Lowering α) gives :=
  fun _ _ _ => Asm.obeys_throw plain

theorem obeys_throw_bind {e : Error} (plain : e.IsPlain) : Obeys D owned (throw e >>= f) last := by
  have thrown : Obeys D owned (throw e : Lowering α) fun _ _ => False := obeys_throw plain
  exact thrown.then fun _ _ never => never.elim

theorem obeys_fail (cause : TreeFault) : Obeys D owned (fail cause : Lowering α) gives :=
  obeys_throw trivial

theorem obeys_fail_bind (cause : TreeFault) :
    Obeys D owned ((fail cause : Lowering α) >>= f) last := by
  have never : Obeys D owned (fail cause : Lowering α) fun _ _ => False := obeys_fail cause
  exact never.then fun _ _ known => known.elim

theorem spends_emit (instruction : Instruction) (roomy : instruction.Roomy) :
    Spends D 0 (liftM (Asm.emit instruction) : Lowering Unit) :=
  lift_spends (Asm.spends_emit instruction roomy)

theorem obeys_branch (jump : Jump) :
    Obeys D 0 (liftM (Asm.branch jump) : Lowering Chain) (Chain.Given D) :=
  lift_obeys (Asm.obeys_branch jump)

theorem spends_resolve {chain : Chain} (fits : chain.Fits D) :
    Spends D chain.sites (liftM (Asm.resolve chain) : Lowering Unit) :=
  lift_spends (Asm.spends_resolve fits)

theorem obeys_mergeChains {chain other : Chain} (fits : chain.Fits D)
    (more : other.Fits D) : Obeys D (chain.sites + other.sites)
      (liftM (Asm.mergeChains chain other) : Lowering Chain) (Chain.Given D) :=
  lift_obeys (Asm.obeys_mergeChains fits more)

theorem spends_force (type : VType) : Spends D 0 (force type) :=
  lift_spends (Asm.obeys_basic (.note (.force type)) trivial (fun _ _ => trivial) fun _ _ _ => id)

/-- Unless the item is of no use, it holds the jumps that are given. -/
structure Hands (D : Discipline) (value : Lowering Item) : Prop where
  ok : ∀ ⦃mc σ⦄, (D.rooms → σ.Roomy) → ∀ ⦃ctx b marks b' item σ'⦄,
    value mc σ ctx b = .ok (item, σ') b' → ∀ ⦃rest⦄, D.holds ctx b rest marks →
    item.IsUseless ∧ ¬D.exact ∨
      σ' = σ ∧ ∃ given, item.Held D given ∧ D.holds ctx b' (given + rest) marks
  tame : ∀ ⦃mc σ⦄, (D.rooms → σ.Roomy) → ∀ ⦃ctx b marks e b'⦄, value mc σ ctx b = .error e b' →
    ∀ ⦃rest⦄, D.holds ctx b rest marks → D.tame e

theorem localItem_run (id : VarId) (mc : MethodContext) (σ : MethodState) :
    localItem id mc σ = (match σ.locals[id]? with
      | some (code, register) => return .localVar code register
      | none => fail (.unknownLocal id) : Lowering Item) mc σ := rfl

theorem obeys_localItem (id : VarId) : Obeys D 0 (localItem id) (Item.Bare D) := by
  intro mc σ roomy
  rw [localItem_run]
  refine (?_ : Obeys D 0 _ (Item.Bare D)) mc σ roomy
  split
  · next code register found => exact obeys_pure ⟨rfl, rfl, fun rooms => roomy rooms id code register found⟩
  · exact obeys_fail _

variable {value target : Lowering Item} {cond left right yes no : Lowering Condition}

omit [D.Basic] in
theorem Obeys.hands (obeys : Obeys D 0 value (Item.Held D)) : Hands D value where
  ok mc σ roomy ctx b marks b' item σ' run rest holds := by
    obtain ⟨given, ⟨same, held⟩, holds'⟩ :=
      (obeys mc σ roomy ctx b marks).ok run ((zero_add rest).symm ▸ holds)
    exact .inr ⟨same, given, held, holds'⟩
  tame mc σ roomy ctx b marks e b' failed rest holds :=
    (obeys mc σ roomy ctx b marks).tame failed ((zero_add rest).symm ▸ holds)

theorem Hands.use {f : Item → Lowering α} (given : Hands D value)
    (used : ∀ item given, item.Held D given → Obeys D given (f item) gives)
    (doomed : ∀ item, item.IsUseless → Fails (f item)) : Obeys D 0 (value >>= f) gives := by
  intro mc σ roomy ctx b marks
  refine ⟨fun b'' y run rest holds => ?_, fun e b'' failed rest holds => ?_⟩
  · obtain ⟨item, σ', b', ran, later⟩ := bind_ok.mp run
    rw [zero_add] at holds
    rcases given.ok roomy ran holds with ⟨useless, _⟩ | ⟨rfl, own, held, holds'⟩
    · exact (doomed item useless later).elim
    · exact (used item own held mc _ roomy ctx b' marks).ok later holds'
  · rw [zero_add] at holds
    rcases Asm.bind_error.mp failed with early | ⟨⟨item, σ'⟩, b', ran, late⟩
    · exact given.tame roomy early holds
    · rcases given.ok roomy ran holds with ⟨_, loose⟩ | ⟨rfl, own, held, holds'⟩
      · exact Discipline.Basic.slack loose e
      · exact (used item own held mc _ roomy ctx b' marks).tame late holds'

/-- An item that is used more than once is one that can be assigned to, or the result is of no use. -/
theorem Hands.update {f : Item → Lowering Item} (given : Hands D value)
    (assignable : D.exact → Answers value Item.IsTarget)
    (used : ∀ item, item.IsTarget → item.Fits D → Obeys D 0 (f item) (Item.Held D))
    (doomed : ∀ item, ¬item.IsTarget → Answers (f item) Item.IsUseless) :
    Hands D (value >>= f) := by
  -- Either the item can be assigned to, or jumps do not count.
  have either {mc σ} (roomy : D.rooms → σ.Roomy) {ctx b marks b' item σ' rest}
      (ran : value mc σ ctx b = .ok (item, σ') b') (holds : D.holds ctx b rest marks) :
      ¬item.IsTarget ∧ ¬D.exact ∨
        σ' = σ ∧ item.IsTarget ∧ item.Fits D ∧ D.holds ctx b' rest marks := by
    by_cases target : item.IsTarget
    · rcases given.ok roomy ran holds with ⟨useless, loose⟩ | ⟨same, own, ⟨rfl, fits⟩, holds'⟩
      · cases item with
        | assign => exact .inl ⟨id, loose⟩
        | _ => exact useless.elim
      · rw [target.sites_eq, zero_add] at holds'
        exact .inr ⟨same, target, fits, holds'⟩
    · exact .inl ⟨target, fun exact => target (assignable exact ran)⟩
  refine ⟨fun mc σ roomy ctx b marks b'' y σ'' run rest holds => ?_,
    fun mc σ roomy ctx b marks e b'' failed rest holds => ?_⟩
  · obtain ⟨item, σ', b', ran, later⟩ := bind_ok.mp run
    rcases either roomy ran holds with ⟨bad, loose⟩ | ⟨rfl, target, fits, holds'⟩
    · exact .inl ⟨doomed item bad later, loose⟩
    · exact (used item target fits).hands.ok roomy later holds'
  · rcases Asm.bind_error.mp failed with early | ⟨⟨item, σ'⟩, b', ran, late⟩
    · exact given.tame roomy early holds
    · rcases either roomy ran holds with ⟨_, loose⟩ | ⟨rfl, target, fits, holds'⟩
      · exact Discipline.Basic.slack loose e
      · exact (used item target fits).hands.tame roomy late holds'

omit [D.Basic] in
theorem Spends.hands (first : Spends D 0 x) {f : α → Lowering Item} (second : ∀ a, Hands D (f a)) :
    Hands D (x >>= f) where
  ok mc σ roomy ctx b marks b'' y σ'' run rest holds := by
    obtain ⟨a, σ', b', ran, later⟩ := bind_ok.mp run
    obtain ⟨_, ⟨rfl, rfl⟩, holds'⟩ :=
      (first mc σ roomy ctx b marks).ok ran ((zero_add rest).symm ▸ holds)
    exact (second a).ok roomy later (zero_add rest ▸ holds')
  tame mc σ roomy ctx b marks e b'' failed rest holds := by
    have given := (zero_add rest).symm ▸ holds
    rcases Asm.bind_error.mp failed with early | ⟨⟨a, σ'⟩, b', ran, late⟩
    · exact (first mc σ roomy ctx b marks).tame early given
    · obtain ⟨_, ⟨rfl, rfl⟩, holds'⟩ := (first mc σ roomy ctx b marks).ok ran given
      exact (second a).tame roomy late (zero_add rest ▸ holds')

theorem obeys_loadAs (code : TypeCode) (given : Hands D value) :
    Obeys D 0 (loadAs code value) (Item.Bare D) :=
  given.use (fun _ _ held => (lift_obeys (held.coerce code)).then fun _ _ held => lift_obeys held.load)
    fun _ useless => (lift_answers (Item.coerce_useless code useless)).bind fun _ useless =>
      lift_fails (Item.fails_load useless)

theorem spends_loadAs (code : TypeCode) (given : Hands D value) :
    Spends D 0 (discard (loadAs code value)) :=
  Spends.discard ((obeys_loadAs code given).imp fun _ _ bare => bare.none)

theorem spends_thrown (given : Hands D value) :
    Spends D 0 (do discard (← value).load; Asm.emit .throwValue : Lowering Unit) := by
  refine given.use (fun item given held => ?_)
    fun _ useless => (lift_fails (Item.fails_load useless)).discard.bind
  exact (lift_spends held.spends_load).discard.before fun _ => spends_emit .throwValue trivial

theorem spends_operandCode (op : BinaryOp) (left right : Expr) :
    Spends D 0 (operandCode op left right) := by
  unfold operandCode
  split
  · exact obeys_pure rfl
  · exact obeys_fail _

theorem spends_comparisonJump (op : BinaryOp) (code : TypeCode) (right : Expr)
    (given : Hands D value) : Spends D 0 (comparisonJump op code right value) := by
  have compared (code : TypeCode) (instruction : Instruction) (roomy : instruction.Roomy)
      (jump : Jump) : Spends D 0 (do
        discard (loadAs code value)
        Asm.emit instruction
        return jump : Lowering Jump) :=
    (spends_loadAs code given).next fun _ => (spends_emit instruction roomy).next fun _ =>
      obeys_pure rfl
  have loaded (code : TypeCode) (plain : Bool) (short long : Jump) :
      Spends D 0 (if plain then return short else do
        discard (loadAs code value)
        return long : Lowering Jump) := by
    cases plain with
    | true => exact obeys_pure rfl
    | false => exact (spends_loadAs code given).next fun _ => obeys_pure rfl
  unfold comparisonJump
  split
  · exact loaded .int _ _ _
  · exact compared .long .compareLong trivial _
  · exact compared .float (.compareFloat .float op.nanOrder) trivial _
  · exact compared .double (.compareFloat .double op.nanOrder) trivial _
  · dsimp only
    split
    · exact Obeys.after_pure (loaded .object right.isNull (.ifNull .eq) (.ifRefs .eq))
    · exact Obeys.after_pure (loaded .object right.isNull (.ifNull .ne) (.ifRefs .ne))
    · exact obeys_fail_bind _
  · exact obeys_fail _

theorem BinaryOp.roomy_instruction {op : BinaryOp} {code : TypeCode} {instruction : Instruction}
    (found : op.instruction? code = some instruction) : instruction.Roomy := by
  unfold BinaryOp.instruction? at found
  split at found
  · obtain ⟨_, _, rfl⟩ := Option.map_eq_some_iff.mp found
    trivial
  · split at found
    · obtain ⟨_, _, rfl⟩ := Option.map_eq_some_iff.mp found
      trivial
    · simp only [Option.bind_eq_bind, Option.bind_eq_some_iff, Option.pure_def,
        Option.some.injEq] at found
      obtain ⟨_, _, _, _, rfl⟩ := found
      trivial

theorem obeys_applyBinary (op : BinaryOp) (code : TypeCode) (right : Expr)
    (given : Hands D value) :
    Obeys D 0 (applyBinary op code right value) (Item.Held D) := by
  unfold applyBinary
  split
  · exact (spends_comparisonJump op code right given).next fun jump =>
      obeys_pure (Condition.given_ofJump jump)
  · refine (spends_loadAs _ given).next fun _ => ?_
    dsimp only
    split
    · next instruction found =>
      exact (spends_emit instruction (BinaryOp.roomy_instruction found)).next fun _ =>
        obeys_pure (Item.bare_ofStack code).held
    · exact obeys_fail_bind _

theorem obeys_bothOf (first : Obeys D 0 left (Condition.Given D))
    (second : Obeys D 0 right (Condition.Given D)) :
    Obeys D 0 (bothOf left right) (Item.Held D) := by
  refine first.then fun first given known => ?_
  split
  · exact obeys_pure known
  obtain ⟨rfl, fits⟩ := known
  refine (lift_obeys fits.jumpFalse).bind (k := first.trueJumps.sites) (fun failed given known => ?_)
    (add_comm _ _)
  obtain ⟨rfl, failing⟩ := known
  rw [add_comm]
  refine (spends_resolve fits.yes).andThen fun _ => ?_
  refine second.bind (k := failed.sites) (fun second given known => ?_) (zero_add _)
  obtain ⟨rfl, fits⟩ := known
  refine (obeys_mergeChains failing fits.no).bind (k := second.trueJumps.sites)
    (fun joined given known => ?_) (by simp only [Condition.sites]; abel)
  obtain ⟨rfl, more⟩ := known
  exact obeys_pure ⟨add_comm _ _, fits.yes, more⟩

theorem obeys_eitherOf (first : Obeys D 0 left (Condition.Given D))
    (second : Obeys D 0 right (Condition.Given D)) :
    Obeys D 0 (eitherOf left right) (Item.Held D) := by
  refine first.then fun first given known => ?_
  split
  · exact obeys_pure known
  obtain ⟨rfl, fits⟩ := known
  refine (lift_obeys fits.jumpTrue).bind (k := first.falseJumps.sites) (fun passed given known => ?_)
    rfl
  obtain ⟨rfl, passing⟩ := known
  rw [add_comm]
  refine (spends_resolve fits.no).andThen fun _ => ?_
  refine second.bind (k := passed.sites) (fun second given known => ?_) (zero_add _)
  obtain ⟨rfl, fits⟩ := known
  refine (obeys_mergeChains passing fits.yes).bind (k := second.falseJumps.sites)
    (fun joined given known => ?_) (by simp only [Condition.sites]; abel)
  obtain ⟨rfl, more⟩ := known
  exact obeys_pure ⟨rfl, more, fits.no⟩

theorem obeys_chosenCondition (tests : Obeys D 0 cond (Condition.Given D))
    (first : Obeys D 0 yes (Condition.Given D)) (second : Obeys D 0 no (Condition.Given D)) :
    Obeys D 0 (chosenCondition cond yes no) (Condition.Given D) := by
  refine tests.then fun cond given known => ?_
  obtain ⟨rfl, fits⟩ := known
  split
  · next always =>
    have none := Condition.falseJumps_of_isTrue always
    have sites : cond.sites = cond.trueJumps.sites + 0 := by
      rw [Condition.sites, none, Chain.sites_nil]
    rw [sites]
    exact (spends_resolve fits.yes).andThen fun _ => first
  split
  · next never =>
    have none := Condition.trueJumps_of_isFalse never
    have sites : cond.sites = cond.falseJumps.sites + 0 := by
      rw [Condition.sites, none, Chain.sites_nil, add_comm]
    rw [sites]
    exact (spends_resolve fits.no).andThen fun _ => second
  refine (lift_obeys fits.jumpFalse).bind (k := cond.trueJumps.sites) (fun toSecond given known => ?_)
    (add_comm _ _)
  obtain ⟨rfl, aside⟩ := known
  rw [add_comm]
  refine (spends_resolve fits.yes).andThen fun _ => ?_
  refine first.bind (k := toSecond.sites) (fun first given known => ?_) (zero_add _)
  obtain ⟨rfl, fits⟩ := known
  refine (lift_obeys fits.jumpFalse).bind (k := first.trueJumps.sites + toSecond.sites)
    (fun failed given known => ?_) (by simp only [Condition.sites]; abel)
  obtain ⟨rfl, failing⟩ := known
  rw [add_left_comm]
  refine (spends_resolve fits.yes).andThen fun _ => ?_
  refine (obeys_branch .goto).bind (k := failed.sites + toSecond.sites)
    (fun passed given known => ?_) (zero_add _)
  obtain ⟨rfl, passing⟩ := known
  rw [← add_assoc, add_comm]
  refine (spends_resolve aside).andThen fun _ => ?_
  refine second.bind (k := passed.sites + failed.sites) (fun second given known => ?_) (zero_add _)
  obtain ⟨rfl, fits⟩ := known
  refine (obeys_mergeChains passing fits.yes).bind (k := failed.sites + second.falseJumps.sites)
    (fun trueJumps given known => ?_) (by simp only [Condition.sites]; abel)
  obtain ⟨rfl, yes⟩ := known
  rw [add_comm]
  refine (obeys_mergeChains failing fits.no).bind (k := trueJumps.sites)
    (fun falseJumps given known => ?_) rfl
  obtain ⟨rfl, no⟩ := known
  exact obeys_pure ⟨add_comm _ _, yes, no⟩

theorem spends_forceReference (type : Option FieldType) : Spends D 0 (forceReference type) := by
  unfold forceReference
  split
  · exact spends_force _
  · exact obeys_pure rfl

theorem obeys_chosenValue (type : Option FieldType) (tests : Obeys D 0 cond (Condition.Given D))
    (first : Hands D value) (second : Hands D target) :
    Obeys D 0 (chosenValue type cond value target) (Item.Held D) := by
  refine tests.then fun cond given known => ?_
  obtain ⟨rfl, fits⟩ := known
  refine (lift_obeys fits.jumpFalse).bind (k := cond.trueJumps.sites) (fun failed given known => ?_)
    (add_comm _ _)
  obtain ⟨rfl, failing⟩ := known
  have finish (done : Chain) (fits : done.Fits D) : Obeys D done.sites (do
      Asm.resolve done
      return .ofStack (.ofResult type) : Lowering Item) (Item.Held D) :=
    (spends_resolve fits).before fun _ => obeys_pure (Item.bare_ofStack _).held
  have rest (done : Chain) (fits : done.Fits D) : Obeys D (failed.sites + done.sites) (do
      if !failed.isEmpty then
        Asm.resolve failed
        discard (loadAs (.ofResult type) target)
        forceReference type
      Asm.resolve done
      return .ofStack (.ofResult type) : Lowering Item) (Item.Held D) := by
    dsimp only
    split
    · exact (spends_resolve failing).andThen fun _ => (spends_loadAs _ second).next fun _ =>
        (spends_forceReference type).next fun _ => finish done fits
    · next empty =>
      have none : failed = [] := by simpa using empty
      rw [none, Chain.sites_nil, zero_add]
      exact finish done fits
  dsimp only
  split
  · next never =>
    rw [Condition.trueJumps_of_isFalse never]
    exact Obeys.after_pure (rest [] Chain.fits_nil)
  · rw [add_comm]
    refine (spends_resolve fits.yes).andThen fun _ => ?_
    refine (spends_loadAs _ first).next fun _ => (spends_forceReference type).next fun _ => ?_
    refine (obeys_branch .goto).bind (k := failed.sites) (fun done given known => ?_) (zero_add _)
    obtain ⟨rfl, more⟩ := known
    rw [add_comm]
    exact rest done more

theorem spends_emitAll {instructions : List Instruction}
    (roomy : ∀ instruction ∈ instructions, instruction.Roomy) :
    Spends D 0 (liftM (Asm.emitAll instructions) : Lowering Unit) :=
  lift_spends (Asm.spends_emitAll roomy)

theorem spends_step (code : TypeCode) (up : Bool) : Spends D 0 (step code up) := by
  have rest (one : Instruction) (roomy : one.Roomy) (kind : NumKind) : Spends D 0 (do
      Asm.emit one
      Asm.emit (.arithmetic (if up then .add else .sub) kind)
      if code != .int && code.truncate == .int then
        Asm.emitAll (Instruction.conversions .int code) : Lowering Unit) := by
    refine (spends_emit one roomy).next fun _ => (spends_emit _ (by trivial)).next fun _ => ?_
    split
    · exact spends_emitAll (Instruction.roomy_conversions _ _)
    · exact obeys_pure rfl
  unfold step
  dsimp only
  split
  · exact Obeys.after_pure (rest (.pushInt 2) trivial .int)
  · exact Obeys.after_pure (rest (.pushLong 1) trivial .long)
  · exact Obeys.after_pure (rest (.pushFloat 1) trivial .float)
  · exact Obeys.after_pure (rest (.pushDouble 1) trivial .double)
  · exact obeys_fail_bind _

theorem isTarget_of_isIntVariable {item : Item} (steps : isIntVariable item = true) :
    item.IsTarget := by
  cases item with
  | localVar code register => trivial
  | _ => cases steps

theorem isIntVariable_eq_false {item : Item} (bad : ¬item.IsTarget) : isIntVariable item = false :=
  Bool.eq_false_iff.mpr fun steps => bad (isTarget_of_isIntVariable steps)

theorem hands_stepBefore (up : Bool) (given : Hands D value)
    (assignable : D.exact → Answers value Item.IsTarget) : Hands D (stepBefore up value) := by
  refine given.update assignable (fun item target fits => ?_) fun item bad => ?_
  · split
    · refine Spends.next (lift_spends (Item.spends_increment _ fits)) fun _ => ?_
      exact obeys_pure (target.held fits)
    · refine Spends.next (lift_spends target.duplicate) fun _ => ?_
      refine (lift_spends (target.held fits).spends_load).discard.next fun _ => ?_
      exact (spends_step _ _).next fun _ => obeys_pure ⟨rfl, fits⟩
  · rw [isIntVariable_eq_false bad]
    exact answers_bind fun _ => answers_bind fun _ => answers_bind fun _ => answers_pure bad

theorem hands_stepAfter (up : Bool) (given : Hands D value)
    (assignable : D.exact → Answers value Item.IsTarget) : Hands D (stepAfter up value) := by
  refine given.update assignable (fun item target fits => ?_) fun item bad => ?_
  · refine Spends.next (lift_spends target.duplicate) fun _ => ?_
    refine (lift_obeys (target.held fits).load).then fun old given bare => ?_
    obtain rfl := bare.none
    dsimp only
    split
    · refine Spends.next (lift_spends (Item.spends_increment _ fits)) fun _ => ?_
      exact obeys_pure bare.held
    · refine Spends.next (lift_spends (item.spends_stash _)) fun _ => (spends_step _ _).next fun _ => ?_
      exact Spends.next (lift_spends (Item.spends_store fits)) fun _ => obeys_pure bare.held
  · refine answers_bind fun _ => answers_bind fun old => ?_
    rw [isIntVariable_eq_false bad]
    exact answers_bind fun _ => answers_bind fun _ => (lift_fails (Item.fails_store bad)).bind

theorem hands_applyUnary (type : Option FieldType) (op : UnaryOp)
    (given : Hands D value) (tests : Obeys D 0 cond (Condition.Given D))
    (assignable : D.exact → op.IsStep → Answers value Item.IsTarget) :
    Hands D (applyUnary type op value cond) := by
  have computed : Obeys D 0 (pure (Item.ofStack (TypeCode.ofResult type)))
      (Item.Held D) := obeys_pure (Item.bare_ofStack _).held
  cases op with
  | not => exact Obeys.hands (tests.then fun cond given known => obeys_pure known.negate)
  | plus => exact Obeys.hands ((obeys_loadAs _ given).imp fun _ _ bare => bare.held)
  | neg =>
    refine Obeys.hands ((spends_loadAs _ given).next fun _ => ?_)
    dsimp only
    split
    · exact (spends_emit _ (by trivial)).next fun _ => computed
    · exact obeys_fail_bind _
  | compl =>
    refine Obeys.hands ((spends_loadAs _ given).next fun _ => ?_)
    have pushed (one two : Instruction) (first : one.Roomy) (second : two.Roomy) :
        Obeys D 0 (do
          Asm.emitAll [one, two]
          return .ofStack (.ofResult type) : Lowering Item) (Item.Held D) :=
      (spends_emitAll (by simp [first, second])).next fun _ => computed
    dsimp only
    split
    · exact pushed (.pushInt 0) (.bitwise .xor .int) trivial trivial
    · exact pushed (.pushConstant (.long (-1))) (.bitwise .xor .long) trivial trivial
    · exact obeys_fail_bind _
  | preInc | preDec => exact hands_stepBefore _ given fun exact => assignable exact trivial
  | postInc | postDec => exact hands_stepAfter _ given fun exact => assignable exact trivial

theorem spends_newStringBuilder : Spends D 0 newStringBuilder :=
  (spends_emit _ (by trivial)).next fun _ => (spends_emit _ (by trivial)).next fun _ => spends_emit _ trivial

theorem spends_append (parameter : FieldType) : Spends D 0 (append parameter) :=
  spends_emit _ trivial

theorem spends_appendValue (type : Option FieldType)
    (given : Hands D value) : Spends D 0 (appendValue type value) :=
  (spends_loadAs _ given).next fun _ => spends_append _

theorem obeys_builtString : Obeys D 0 builtString (Item.Bare D) :=
  (spends_emit _ (by trivial)).next fun _ => obeys_pure ⟨rfl, rfl, trivial⟩

theorem spends_builtString : Spends D 0 builtString :=
  obeys_builtString.imp fun _ _ bare => bare.none

theorem hands_concatAssign (type : Option FieldType) {appended : Lowering Unit}
    (given : Hands D target) (assignable : D.exact → Answers target Item.IsTarget)
    (more : Spends D 0 appended) : Hands D (concatAssign type target appended) := by
  refine spends_newStringBuilder.hands fun _ =>
    given.update assignable (fun item writable fits => ?_) fun item bad => ?_
  · have rest : Obeys D 0 (do
        discard item.load
        append (appendParameter type)
        appended
        discard builtString
        return .assign item : Lowering Item) (Item.Held D) := by
      refine (lift_spends (writable.held fits).spends_load).discard.next fun _ => ?_
      refine (spends_append _).next fun _ => more.next fun _ => ?_
      exact spends_builtString.discard.next fun _ => obeys_pure ⟨rfl, fits⟩
    dsimp only
    split
    · exact (spends_emit _ (by trivial)).next fun _ => rest
    · exact rest
  · have rest : Answers (do
        discard item.load
        append (appendParameter type)
        appended
        discard builtString
        return .assign item : Lowering Item) Item.IsUseless :=
      answers_bind fun _ => answers_bind fun _ => answers_bind fun _ => answers_bind fun _ =>
        answers_pure bad
    dsimp only
    split
    · exact answers_bind fun _ => rest
    · exact rest

theorem hands_compoundAssign (op : BinaryOp) (targetExpr valueExpr : Expr)
    (given : Hands D target) (assignable : D.exact → Answers target Item.IsTarget)
    (operand : Hands D value) :
    Hands D (compoundAssign op targetExpr valueExpr target value) := by
  refine given.update assignable (fun item writable fits => ?_) fun item bad => ?_
  · have taken {item : Item} {given : Multiset JumpSite} (code : TypeCode) (held : item.Held D given)
        {rest : Lowering Item} (next : Obeys D 0 rest (Item.Held D)) :
        Obeys D given (do
          discard (← item.coerce code).load
          rest : Lowering Item) (Item.Held D) := by
      refine (lift_obeys (held.coerce code)).then fun _ _ held => ?_
      exact (lift_spends held.spends_load).discard.before fun _ => next
    split
    · refine Spends.next (lift_spends (Item.spends_increment _ fits)) fun _ => ?_
      exact obeys_pure (writable.held fits)
    · refine (spends_operandCode _ _ _).next fun code => ?_
      refine Spends.next (lift_spends writable.duplicate) fun _ => taken code (writable.held fits) ?_
      refine (obeys_applyBinary op code valueExpr operand).then fun result given held => ?_
      exact taken _ held (obeys_pure ⟨rfl, fits⟩)
  · rw [isIntVariable_eq_false bad]
    refine answers_bind fun code => answers_bind fun _ => answers_bind fun _ => ?_
    refine answers_bind fun _ => answers_bind fun _ => answers_bind fun _ => ?_
    exact answers_bind fun _ => answers_pure bad

theorem hands_assign (targetExpr valueExpr : Expr) (given : Hands D target)
    (assignable : D.exact → Answers target Item.IsTarget) (operand : Hands D value) :
    Hands D (assign targetExpr valueExpr target value) := by
  refine given.update assignable (fun item writable fits => (spends_loadAs _ operand).next fun _ => ?_)
    fun item bad => answers_bind fun _ => ?_
  · have done : Obeys D 0 (pure (.assign item) : Lowering Item) (Item.Held D) :=
      obeys_pure ⟨rfl, fits⟩
    dsimp only
    split
    · exact (spends_force _).next fun _ => done
    · exact done
  · dsimp only
    split
    · exact answers_bind fun _ => answers_pure bad
    · exact answers_pure bad

theorem obeys_cast (type : Option FieldType) (inner : Expr)
    (given : Hands D value) : Obeys D 0 (cast type inner value) (Item.Held D) := by
  refine (obeys_loadAs _ given).then fun result given bare => ?_
  obtain rfl := bare.none
  have done : Obeys D 0 (pure result : Lowering Item) (Item.Held D) :=
    obeys_pure bare.held
  have checked (needed : Bool) (target : RefType) : Obeys D 0 (do
      if needed then Asm.emit (.checkCast target)
      return result : Lowering Item) (Item.Held D) := by
    cases needed with
    | true => exact (spends_emit _ (by trivial)).next fun _ => done
    | false => exact done
  refine spends_readThe.next fun _ => ?_
  dsimp only
  split
  · exact checked _ _
  · exact done

theorem spends_classLiteral (type : Option FieldType) : Spends D 0 (classLiteral type) := by
  unfold classLiteral
  dsimp only
  split
  · exact spends_emit _ trivial
  · exact spends_emit _ trivial
  · refine spends_read.next fun _ => ?_
    split
    · exact spends_emit _ trivial
    · exact (spends_emit _ (by trivial)).next fun _ => spends_emit _ trivial

theorem spends_checkDimensions (type : FieldType) : Spends D 0 (checkDimensions type) := by
  unfold checkDimensions
  split
  · split
    · exact obeys_throw trivial
    · exact obeys_pure rfl
  · exact obeys_pure rfl

theorem spends_createArray (type : RefType) (dims : Nat) : Spends D 0 (createArray type dims) := by
  refine (spends_checkDimensions _).next fun _ => ?_
  split
  · exact spends_emit _ trivial
  · split
    · exact spends_emit _ trivial
    · split
      · exact obeys_throw trivial
      · exact spends_emit _ trivial
  · exact obeys_fail _

theorem spends_pushLength (n : Nat) : Spends D 0 (pushLength n) := by
  unfold pushLength
  split
  · exact spends_emit _ (Literal.roomy_loadInstruction _)
  · exact obeys_fail _

theorem obeys_newArray (type : Option FieldType) (dims : Nat) {lengths : Lowering Unit}
    (elems : Option Nat) {store : TypeCode → Lowering Unit} (measured : Spends D 0 lengths)
    (stored : ∀ code, Spends D 0 (store code)) :
    Obeys D 0 (newArray type dims lengths elems store) (Item.Held D) := by
  have done : Obeys D 0 (pure (Item.stack .object)) (Item.Held D) :=
    obeys_pure ⟨rfl, trivial⟩
  unfold newArray
  dsimp only
  split
  · next array =>
    split
    · exact obeys_fail_bind _
    · split
      · refine (spends_pushLength _).next fun _ => (spends_createArray array 1).next fun _ => ?_
        exact (stored _).next fun _ => done
      · split
        · exact obeys_fail_bind _
        · exact measured.next fun _ => (spends_createArray array dims).next fun _ => done
  · exact obeys_fail _

theorem spends_storeElement (code : TypeCode) (index : Nat)
    (given : Hands D value) : Spends D 0 (storeElement code index value) := by
  refine (spends_emit _ (by trivial)).next fun _ => (spends_pushLength index).next fun _ => ?_
  exact (spends_loadAs code given).next fun _ => spends_emit _ trivial

omit [D.Basic] in
theorem hands_foldedOr (e : Expr) (given : Hands D value) : Hands D (foldedOr e value) := by
  unfold foldedOr
  split
  · exact Obeys.hands (obeys_pure ⟨rfl, trivial⟩)
  · exact given

theorem spends_checkArguments (descriptor : MethodDescriptor) (args : List Expr) :
    Spends D 0 (checkArguments descriptor args) := by
  unfold checkArguments
  split
  · exact obeys_fail _
  · exact obeys_pure rfl

/-- A binary operator other than the two that may skip their right operand. -/
theorem obeys_plainBinary (type : Option FieldType) (op : BinaryOp) (leftExpr rightExpr : Expr)
    (first : Hands D value)
    (second : Hands D target) {before after : Lowering Unit}
    (prepended : Spends D 0 before) (appended : Spends D 0 after) :
    Obeys D 0 (do
      if isConcat op type then
        newStringBuilder
        before
        after
        builtString
      else
        let code ← operandCode op leftExpr rightExpr
        discard (loadAs code value)
        applyBinary op code rightExpr target : Lowering Item) (Item.Held D) := by
  split
  · refine spends_newStringBuilder.next fun _ => prepended.next fun _ => appended.next fun _ => ?_
    exact obeys_builtString.imp fun _ _ bare => bare.held
  · refine (spends_operandCode _ _ _).next fun code => (spends_loadAs code first).next fun _ => ?_
    exact obeys_applyBinary op code rightExpr second

theorem obeys_tested (given : Hands D value) :
    Obeys D 0 (do (← (← value).coerce .byte).toCondition : Lowering Condition)
      (Condition.Given D) :=
  given.use (fun _ _ held => (lift_obeys (held.coerce .byte)).then fun _ _ held =>
      lift_obeys held.toCondition)
    fun _ useless => (lift_answers (Item.coerce_useless _ useless)).bind fun _ useless =>
      lift_fails (Item.fails_toCondition useless)

theorem spends_dropped (given : Hands D value) :
    Spends D 0 (do
      let item ← (← value).load
      item.drop : Lowering Unit) :=
  given.use (fun _ _ held => (lift_obeys held.load).then fun _ _ bare => lift_spends bare.held.drop)
    fun _ useless => (lift_fails (Item.fails_load useless)).bind

theorem answers_genItem {e : Expr} (target : e.IsTarget) : Answers (genItem e) Item.IsTarget := by
  obtain ⟨type, constant, kind⟩ := e
  obtain ⟨unfolded, shape⟩ := target
  rw [genItem, foldedOr, unfolded]
  dsimp only [Expr.kind] at shape ⊢
  cases kind with
  | localVar id =>
    rw [genKind]
    refine answers_bind fun σ => ?_
    split
    · exact answers_pure trivial
    · exact (fails_fail _).answers
  | field receiver ref =>
    rw [genKind]
    have both {x : Lowering Unit} (item : Item) (target : item.IsTarget) :
        Answers (do x; return item : Lowering Item) Item.IsTarget :=
      answers_bind fun _ => answers_pure target
    split
    · exact both (.static (.field ref)) trivial
    · exact both (.member (.field ref) false) trivial
  | index array index =>
    rw [genKind]
    exact answers_bind fun _ => answers_bind fun _ => answers_pure trivial
  | _ => exact shape.elim

end Parts

mutual

theorem hands_genItem [D.Basic] : ∀ e : Expr, (D.exact → e.Proper) → Hands D (genItem e)
  | .mk type constant kind, proper => by
    rw [genItem]
    exact hands_foldedOr _ (hands_genKind type kind proper)

theorem hands_genKind [D.Basic] (type : Option FieldType) : ∀ kind : ExprKind, (D.exact → kind.Proper) →
    Hands D (genKind type kind)
  | .literal value, _ => by
    rw [genKind]
    exact Obeys.hands (obeys_pure ⟨rfl, trivial⟩)
  | .null, _ => by
    rw [genKind]
    exact (spends_emit _ (by trivial)).hands fun _ => Obeys.hands (obeys_pure ⟨rfl, trivial⟩)
  | .localVar id, _ => by
    rw [genKind]
    exact Obeys.hands ((obeys_localItem id).imp fun _ _ bare => bare.held)
  | .self, _ => by
    rw [genKind]
    exact Obeys.hands (obeys_pure ⟨rfl, trivial⟩)
  | .field receiver ref, proper => by
    rw [genKind]
    split
    · exact Obeys.hands ((spends_genUnused receiver proper).next fun _ => obeys_pure ⟨rfl, trivial⟩)
    · exact Obeys.hands ((spends_genReceiver receiver proper).next fun _ => obeys_pure ⟨rfl, trivial⟩)
  | .invoke receiver ref args, proper => by
    rw [genKind]
    have called (item : Item) : Hands D (do
        checkArguments ref.descriptor args
        genArgs ref.descriptor.parameters args
        item.invoke : Lowering Item) := by
      refine (spends_checkArguments _ _).hands fun _ => ?_
      refine (spends_genArgs _ args fun exact => (proper exact).2).hands fun _ => ?_
      exact Obeys.hands ((lift_obeys item.obeys_invoke).imp fun _ _ bare => bare.held)
    dsimp only
    split
    · exact (spends_genUnused receiver fun exact => (proper exact).1).hands fun _ => called _
    · exact (spends_genReceiver receiver fun exact => (proper exact).1).hands fun _ =>
        spends_read.hands fun _ => called _
  | .construct constructor args, proper => by
    rw [genKind]
    refine (spends_emit _ (by trivial)).hands fun _ => (spends_emit _ (by trivial)).hands fun _ => ?_
    refine (spends_checkArguments _ _).hands fun _ => (spends_genArgs _ args proper).hands fun _ => ?_
    have called : Spends D 0 (liftM (Item.member (.method constructor) true).invoke) :=
      (lift_obeys (Item.obeys_invoke _)).imp fun _ _ bare => bare.none
    exact Obeys.hands (called.discard.next fun _ => obeys_pure ⟨rfl, trivial⟩)
  | .newArray dims none, proper => by
    rw [genKind]
    exact (obeys_newArray _ _ _ (spends_genLengths dims proper) fun _ => obeys_pure rfl).hands
  | .newArray dims (some elems), proper => by
    rw [genKind]
    refine (obeys_newArray _ _ _ (spends_genLengths dims fun exact => (proper exact).1) fun code => ?_).hands
    exact spends_genElements code 0 elems fun exact => (proper exact).2
  | .arrayLength array, proper => by
    rw [genKind]
    refine Obeys.hands ((spends_loadAs _ (hands_genItem array proper)).next fun _ => ?_)
    exact (spends_emit _ (by trivial)).next fun _ => obeys_pure ⟨rfl, trivial⟩
  | .index array index, proper => by
    rw [genKind]
    refine (spends_loadAs _ (hands_genItem array fun exact => (proper exact).1)).hands fun _ => ?_
    refine (spends_loadAs _ (hands_genItem index fun exact => (proper exact).2)).hands fun _ => ?_
    exact Obeys.hands (obeys_pure ⟨rfl, trivial⟩)
  | .assign target value, proper => by
    rw [genKind]
    exact hands_assign _ _ (hands_genItem target fun exact => (proper exact).2.1)
      (fun exact => answers_genItem (proper exact).1)
      (hands_genItem value fun exact => (proper exact).2.2)
  | .compoundAssign op target value, proper => by
    rw [genKind]
    have assigned := hands_genItem target fun exact => (proper exact).2.1
    have assignable (exact : D.exact) := answers_genItem (proper exact).1
    split
    · exact hands_concatAssign _ assigned assignable
        (spends_genAppended value fun exact => (proper exact).2.2)
    · exact hands_compoundAssign op _ _ assigned assignable
        (hands_genItem value fun exact => (proper exact).2.2)
  | .unary op operand, proper => by
    rw [genKind]
    exact hands_applyUnary type op (hands_genItem operand fun exact => (proper exact).2)
      (obeys_genCond operand fun exact => (proper exact).2)
      fun exact step => answers_genItem ((proper exact).1 step)
  | .binary op left right, proper => by
    have properLeft (exact : D.exact) := (proper exact).1
    have properRight (exact : D.exact) := (proper exact).2
    have plain := obeys_plainBinary type op left right (hands_genItem left properLeft)
      (hands_genItem right properRight) (spends_genAppended left properLeft)
      (spends_genAppended right properRight)
    cases op with
    | condAnd =>
      rw [genKind]
      exact (obeys_bothOf (obeys_genCond left properLeft) (obeys_genCond right properRight)).hands
    | condOr =>
      rw [genKind]
      exact (obeys_eitherOf (obeys_genCond left properLeft) (obeys_genCond right properRight)).hands
    | _ => exact plain.hands
  | .conditional cond yes no, proper => by
    rw [genKind]
    exact (obeys_chosenValue type (obeys_genCond cond fun exact => (proper exact).1)
      (hands_genItem yes fun exact => (proper exact).2.1)
      (hands_genItem no fun exact => (proper exact).2.2)).hands
  | .cast inner, proper => by
    rw [genKind]
    exact (obeys_cast type inner (hands_genItem inner proper)).hands
  | .instanceOf inner target, proper => by
    rw [genKind]
    refine Obeys.hands ((spends_loadAs _ (hands_genItem inner proper)).next fun _ => ?_)
    exact (spends_emit _ (by trivial)).next fun _ => obeys_pure ⟨rfl, trivial⟩
  | .classLiteral target, _ => by
    rw [genKind]
    exact Obeys.hands ((spends_classLiteral target).next fun _ => obeys_pure ⟨rfl, trivial⟩)

theorem obeys_genCond [D.Basic] : ∀ e : Expr, (D.exact → e.Proper) →
    Obeys D 0 (genCond e) (Condition.Given D)
  | .mk type constant kind, proper => by
    have tested :=
      obeys_tested (hands_foldedOr (.mk type constant kind) (hands_genKind type kind proper))
    unfold genCond
    cases kind with
    | conditional cond yes no =>
      dsimp only
      split
      · exact tested
      · exact obeys_chosenCondition (obeys_genCond cond fun exact => (proper exact).1)
          (obeys_genCond yes fun exact => (proper exact).2.1)
          (obeys_genCond no fun exact => (proper exact).2.2)
    | _ =>
      dsimp only
      split
      · exact tested
      · exact tested

theorem spends_genAppended [D.Basic] : ∀ e : Expr, (D.exact → e.Proper) → Spends D 0 (genAppended e)
  | .mk type constant kind, proper => by
    have whole := spends_appendValue type
      (hands_foldedOr (.mk type constant kind) (hands_genKind type kind proper))
    unfold genAppended
    cases kind with
    | binary op left right =>
      dsimp only
      split
      · exact (spends_genAppended left fun exact => (proper exact).1).next fun _ =>
          spends_genAppended right fun exact => (proper exact).2
      · exact whole
    | _ => exact whole

theorem spends_genReceiver [D.Basic] : ∀ receiver : Receiver, (D.exact → receiver.Proper) →
    Spends D 0 (genReceiver receiver)
  | .implicit, _ | .self, _ => by
    rw [genReceiver]
    have plain : Item.self.Held D 0 := ⟨rfl, trivial⟩
    exact (lift_spends plain.spends_load).discard
  | .super, _ => by
    rw [genReceiver]
    have plain : Item.super.Held D 0 := ⟨rfl, trivial⟩
    exact (lift_spends plain.spends_load).discard
  | .expr value, proper => by
    rw [genReceiver]
    exact spends_loadAs _ (hands_genItem value proper)

theorem spends_genUnused [D.Basic] : ∀ receiver : Receiver, (D.exact → receiver.Proper) →
    Spends D 0 (genUnused receiver)
  | .implicit, _ | .self, _ | .super, _ => by
    rw [genUnused]
    · exact obeys_pure rfl
    all_goals simp
  | .expr value, proper => by
    rw [genUnused]
    exact spends_dropped (hands_genItem value proper)

theorem spends_genArgs [D.Basic] : ∀ (types : List FieldType) (args : List Expr),
    (D.exact → Expr.ProperAll args) → Spends D 0 (genArgs types args)
  | [], _, _ | _ :: _, [], _ => by
    rw [genArgs]
    · exact obeys_pure rfl
    all_goals simp
  | type :: types, arg :: args, proper => by
    rw [genArgs]
    exact (spends_loadAs _ (hands_genItem arg fun exact => (proper exact).1)).next fun _ =>
      spends_genArgs types args fun exact => (proper exact).2

theorem spends_genLengths [D.Basic] : ∀ dims : List Expr, (D.exact → Expr.ProperAll dims) →
    Spends D 0 (genLengths dims)
  | [], _ => by
    rw [genLengths]
    exact obeys_pure rfl
  | dim :: dims, proper => by
    rw [genLengths]
    exact (spends_loadAs _ (hands_genItem dim fun exact => (proper exact).1)).next fun _ =>
      spends_genLengths dims fun exact => (proper exact).2

theorem spends_genElements [D.Basic] (code : TypeCode) : ∀ (index : Nat) (elems : List Expr),
    (D.exact → Expr.ProperAll elems) → Spends D 0 (genElements code index elems)
  | _, [], _ => by
    rw [genElements]
    exact obeys_pure rfl
  | index, elem :: elems, proper => by
    rw [genElements]
    exact (spends_storeElement _ _ (hands_genItem elem fun exact => (proper exact).1)).next fun _ =>
      spends_genElements code _ elems fun exact => (proper exact).2

end

theorem spends_genEffect [D.Basic] (e : Expr) (proper : D.exact → e.Proper) : Spends D 0 (genEffect e) := by
  have dropped {value : Lowering Item} (given : Hands D value) :
      Spends D 0 (do
        let item ← value
        item.drop : Lowering Unit) :=
    given.use (fun _ _ held => lift_spends held.drop)
      fun _ useless => lift_fails (Item.fails_drop useless)
  -- The old value of a step is not needed, so it is done as if the new one were.
  have stepped (type : Option FieldType) (op : UnaryOp) (operand : Expr)
      (proper : D.exact → operand.IsTarget ∧ operand.Proper) :
      Hands D (applyUnary type op (genItem operand) (genCond operand)) :=
    hands_applyUnary _ _ (hands_genItem operand fun exact => (proper exact).2)
      (obeys_genCond operand fun exact => (proper exact).2)
      fun exact _ => answers_genItem (proper exact).1
  obtain ⟨type, constant, kind⟩ := e
  unfold genEffect
  dsimp only [Expr.kind]
  split
  · exact dropped (stepped _ _ _ fun exact => ⟨(proper exact).1 trivial, (proper exact).2⟩)
  · exact dropped (stepped _ _ _ fun exact => ⟨(proper exact).1 trivial, (proper exact).2⟩)
  · exact dropped (hands_genItem _ proper)

end Lowering

end ClassForge
