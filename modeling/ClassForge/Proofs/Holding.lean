import ClassForge.Lowering.Scope
import ClassForge.Proofs.Ownership
import Mathlib.Tactic.Abel

namespace ClassForge

def ScopeRecord.pcs (record : ScopeRecord) : Multiset Nat :=
  record.exit.pcs + record.next.pcs + record.calls.pcs

def MethodState.pcs (σ : MethodState) : Multiset Nat := (σ.records.map ScopeRecord.pcs).sum

def MethodState.gaps (σ : MethodState) : List (Array Nat) := σ.records.map (·.gaps)

namespace Lowering

variable {e : Error} {chain : Chain} {σ : MethodState}

section Runs

variable {α β : Type} {mc : MethodContext} {ctx : Context} {σ σ' : MethodState} {b b' : Buffer}
  {f : α → Lowering β}

theorem bind_ok {x : Lowering α} {y : β} :
    (x >>= f) mc σ ctx b = .ok (y, σ') b' ↔
      ∃ a between c, x mc σ ctx b = .ok (a, between) c ∧ f a mc between ctx c = .ok (y, σ') b' := by
  refine Iff.trans estate_bind_ok ?_
  constructor
  · rintro ⟨⟨a, between⟩, c, first, second⟩
    exact ⟨a, between, c, first, second⟩
  · rintro ⟨a, between, c, first, second⟩
    exact ⟨(a, between), c, first, second⟩

theorem pure_ok {a y : α} :
    (pure a : Lowering α) mc σ ctx b = .ok (y, σ') b' ↔ a = y ∧ σ = σ' ∧ b = b' := by
  refine Iff.trans estate_pure_ok ?_
  simp [Prod.ext_iff, and_assoc]

theorem lift_ok {x : Asm α} {y : α} :
    (liftM x : Lowering α) mc σ ctx b = .ok (y, σ') b' ↔ σ = σ' ∧ x ctx b = .ok y b' := by
  change (x >>= fun a => pure (a, σ) : Asm (α × MethodState)) ctx b = _ ↔ _
  rw [Asm.bind_ok]
  constructor
  · rintro ⟨a, c, run, answered⟩
    obtain ⟨same, rfl⟩ := Asm.pure_ok.mp answered
    cases same
    exact ⟨rfl, run⟩
  · rintro ⟨rfl, run⟩
    exact ⟨y, b', run, Asm.pure_ok.mpr ⟨rfl, rfl⟩⟩

theorem lift_bind_ok {x : Asm α} {y : β} :
    (liftM x >>= f : Lowering β) mc σ ctx b = .ok (y, σ') b' ↔
      ∃ a c, x ctx b = .ok a c ∧ f a mc σ ctx c = .ok (y, σ') b' := by
  rw [bind_ok]
  constructor
  · rintro ⟨a, _, c, first, second⟩
    obtain ⟨rfl, ran⟩ := lift_ok.mp first
    exact ⟨a, c, ran, second⟩
  · rintro ⟨a, c, ran, second⟩
    exact ⟨a, σ, c, lift_ok.mpr ⟨rfl, ran⟩, second⟩

theorem get_ok {y : MethodState} :
    (get : Lowering MethodState) mc σ ctx b = .ok (y, σ') b' ↔ σ = y ∧ σ = σ' ∧ b = b' := by
  change EStateM.Result.ok (σ, σ) b = _ ↔ _
  simp [Prod.ext_iff, and_assoc]

theorem modify_ok {f : MethodState → MethodState} {y : PUnit} :
    (modify f : Lowering PUnit) mc σ ctx b = .ok (y, σ') b' ↔ f σ = σ' ∧ b = b' := by
  change EStateM.Result.ok (PUnit.unit, f σ) b = _ ↔ _
  simp [Prod.ext_iff]

theorem read_ok {y : MethodContext} :
    (read : Lowering MethodContext) mc σ ctx b = .ok (y, σ') b' ↔ mc = y ∧ σ = σ' ∧ b = b' := by
  change EStateM.Result.ok (mc, σ) b = _ ↔ _
  simp [Prod.ext_iff, and_assoc]

theorem readThe_ok {y : Context} :
    (readThe Context : Lowering Context) mc σ ctx b = .ok (y, σ') b' ↔
      ctx = y ∧ σ = σ' ∧ b = b' := by
  change EStateM.Result.ok (ctx, σ) b = _ ↔ _
  simp [Prod.ext_iff, and_assoc]

theorem buffer_ok {y : Buffer} :
    buffer mc σ ctx b = .ok (y, σ') b' ↔ b = y ∧ σ = σ' ∧ b = b' := by
  change EStateM.Result.ok (b, σ) b = _ ↔ _
  simp [Prod.ext_iff, and_assoc]

section Looks

variable (depth : Nat) (change : MethodState → MethodState) (alter : ScopeRecord → ScopeRecord)

theorem get_bind (f : MethodState → Lowering β) : (get >>= f) mc σ ctx b = f σ mc σ ctx b := rfl

theorem read_bind (f : MethodContext → Lowering β) : (read >>= f) mc σ ctx b = f mc mc σ ctx b :=
  rfl

theorem readThe_bind (f : Context → Lowering β) :
    (readThe Context >>= f) mc σ ctx b = f ctx mc σ ctx b := rfl

theorem buffer_bind (f : Buffer → Lowering β) : (buffer >>= f) mc σ ctx b = f b mc σ ctx b := rfl

theorem isAlive_bind (f : Bool → Lowering β) : (isAlive >>= f) mc σ ctx b = f b.isAlive mc σ ctx b :=
  rfl

theorem nextRegister_bind (f : UInt16 → Lowering β) :
    (nextRegister >>= f) mc σ ctx b = f (.ofNat b.nextRegister) mc σ ctx b := rfl

theorem pendingLine_bind (f : Option UInt16 → Lowering β) :
    (pendingLine >>= f) mc σ ctx b = f b.pendingLine mc σ ctx b := rfl

theorem record_bind (f : ScopeRecord → Lowering β) :
    (record depth >>= f) mc σ ctx b = f (σ.records.getD depth {}) mc σ ctx b := rfl

theorem modify_bind (f : PUnit → Lowering β) :
    (modify change >>= f) mc σ ctx b = f ⟨⟩ mc (change σ) ctx b := rfl

theorem changeRecord_bind (f : Unit → Lowering β) : (changeRecord depth alter >>= f) mc σ ctx b =
    f () mc { σ with records := σ.records.modify depth alter } ctx b := rfl

end Looks

theorem throw_ok {y : α} : (throw e : Lowering α) mc σ ctx b = .ok (y, σ') b' ↔ False := by
  change EStateM.Result.error e b = _ ↔ _
  simp

theorem discard_ok {x : Lowering α} {y : Unit} :
    (discard x : Lowering Unit) mc σ ctx b = .ok (y, σ') b' ↔
      ∃ a, x mc σ ctx b = .ok (a, σ') b' := by
  change (x mc σ >>= fun found => pure ((), found.2) : Asm (Unit × MethodState)) ctx b = _ ↔ _
  rw [Asm.bind_ok]
  constructor
  · rintro ⟨⟨a, between⟩, c, run, answered⟩
    obtain ⟨same, rfl⟩ := Asm.pure_ok.mp answered
    cases same
    exact ⟨a, run⟩
  · rintro ⟨a, run⟩
    exact ⟨(a, σ'), b', run, Asm.pure_ok.mpr ⟨rfl, rfl⟩⟩

end Runs

/-- Lowering owns the given jumps and those in its records, and knows the gaps in them. -/
structure Holds (ctx : Context) (s : Session) (σ : MethodState) (b : Buffer)
    (owned : Multiset Nat) : Prop where
  owns : s.Owns ctx b (owned + σ.pcs)
  gaps : ∀ record ∈ σ.records, ∀ p ∈ record.gaps.toList, p ∈ s.observed

theorem Holds.mono {ctx : Context} {s : Session} {b : Buffer} {owned fewer : Multiset Nat}
    (holds : Holds ctx s σ b owned) (less : fewer ≤ owned) : Holds ctx s σ b fewer :=
  ⟨holds.owns.mono (add_le_add_left less _), holds.gaps⟩

abbrev Change := Session → MethodState → Session → MethodState → Prop

/-- Code that touches neither the gaps nor the exception table counts as no change, and changes add
up. -/
class Change.Lawful (how : Change) : Prop where
  still : ∀ {s s' σ σ'}, s.Steady s' → σ'.gaps = σ.gaps → how s σ s' σ'
  trans : ∀ {s s1 s2 σ σ1 σ2}, how s σ s1 σ1 → how s1 σ1 s2 σ2 → how s σ s2 σ2

theorem Change.Lawful.refl {how : Change} [how.Lawful] (s : Session) (σ : MethodState) :
    how s σ s σ :=
  still (.refl s) rfl

variable {α β : Type} {how : Change} {owned fewer k total : Multiset Nat} {given : α → Multiset Nat}

/-- Whenever lowering succeeds with an answer that gives something, it has respected what it owns,
and what has changed is as expected. -/
def Yields (how : Change) (owned : Multiset Nat) (action : Lowering α)
    (gives : α → Option (Multiset Nat)) : Prop :=
  ∀ ⦃mc ctx σ σ' b b' x⦄, action mc σ ctx b = .ok (x, σ') b' → ∀ ⦃s rest given⦄,
    Holds ctx s σ b (owned + rest) → gives x = some given →
    ∃ s', how s σ s' σ' ∧ Holds ctx s' σ' b' (given + rest)

abbrev Keeps (how : Change) (owned : Multiset Nat) (action : Lowering α)
    (gives : α → Multiset Nat) : Prop :=
  Yields how owned action fun x => some (gives x)

def Answers (action : Lowering α) (good : α → Prop) : Prop :=
  ∀ ⦃mc ctx σ σ' b b' x⦄, action mc σ ctx b = .ok (x, σ') b' → good x

abbrev Fails (action : Lowering α) : Prop := Answers action fun _ => False

variable {gives : α → Option (Multiset Nat)} {last : β → Option (Multiset Nat)}
  {x action : Lowering α} {f : α → Lowering β} {good : α → Prop} {fit : β → Prop} {a answer : α}

theorem Holds.asm {a : Asm α} {ctx : Context} {s : Session} {b b' : Buffer} {y : α}
    {rest : Multiset Nat} (holds : Holds ctx s σ b (owned + rest)) (keeps : Asm.Keeps owned a given)
    (ran : a ctx b = .ok y b') : ∃ s', s.Steady s' ∧ Holds ctx s' σ b' (given y + rest) := by
  have owns := holds.owns
  rw [add_assoc] at owns
  obtain ⟨s', steady, owns'⟩ := keeps ran owns
  rw [← add_assoc] at owns'
  exact ⟨s', steady, owns', fun record member p gap => steady.known (holds.gaps record member p gap)⟩

section Calls

variable {ctx : Context} {s : Session} {σ : MethodState} {b b' : Buffer} {rest : Multiset Nat}
  {pc : Nat}

theorem Holds.spend {a : Asm α} (holds : Holds ctx s σ b owned) (keeps : Asm.Keeps 0 a fun _ => 0)
    (ran : a ctx b = .ok answer b') : ∃ s', s.Steady s' ∧ Holds ctx s' σ b' owned := by
  obtain ⟨s', steady, holds'⟩ := Holds.asm (holds.mono (zero_add owned).le) keeps ran
  exact ⟨s', steady, holds'.mono (zero_add owned).ge⟩

theorem Keeps.run {mc : MethodContext} {σ' : MethodState} (keeps : Keeps how 0 x fun _ => 0)
    (ran : x mc σ ctx b = .ok (answer, σ') b') (holds : Holds ctx s σ b owned) :
    ∃ s', how s σ s' σ' ∧ Holds ctx s' σ' b' owned := by
  obtain ⟨s', changed, holds'⟩ := keeps ran (holds.mono (zero_add owned).le) rfl
  exact ⟨s', changed, holds'.mono (zero_add owned).ge⟩

theorem Holds.perform (call : Call α) (holds : Holds ctx s σ b (call.takes + rest))
    (slots : ∀ pc ∈ call.fills, ∃ place ∈ s.switches, place.IsSlot pc) (complete : call.Complete)
    (legal : call.Legal s) (run : call.perform ctx b = .ok answer b') :
    ∃ log, call.Logs ctx b b' log ∧
      Holds ctx (s.after call answer b' log) σ b' (call.gives answer + rest) := by
  have owns := holds.owns
  rw [add_assoc] at owns
  obtain ⟨log, logs, owns'⟩ := owns.perform slots complete legal run
  rw [← add_assoc] at owns'
  exact ⟨log, logs, owns', fun record member p gap =>
    (s.extends_after call answer b' log).known (holds.gaps record member p gap)⟩

theorem Holds.ask (call : Call α) (holds : Holds ctx s σ b owned) (takes : call.takes = 0)
    (fills : call.fills = []) (complete : call.Complete) (legal : call.Legal s)
    (run : call.perform ctx b = .ok answer b') :
    ∃ log, call.Logs ctx b b' log ∧ Holds ctx (s.after call answer b' log) σ b' owned := by
  have enough : Holds ctx s σ b (call.takes + owned) := by
    rw [takes, zero_add]
    exact holds
  obtain ⟨log, logs, holds'⟩ := enough.perform call (by simp [fills]) complete legal run
  exact ⟨log, logs, holds'.mono (Multiset.le_add_left _ _)⟩

theorem Holds.note (change : Note) (holds : Holds ctx s σ b owned) (legal : change.Legal s)
    (rows : change.rows = []) (run : change.perform ctx b = .ok () b') :
    ∃ s', s.Steady s' ∧ Holds ctx s' σ b' owned := by
  obtain ⟨log, _, holds'⟩ := holds.ask (.note change) rfl rfl trivial legal run
  obtain rfl := holds.owns.buffer
  exact ⟨_, Session.steady_after (.note change) rfl rows run, holds'⟩

theorem Holds.position (holds : Holds ctx s σ b owned) (run : Asm.position ctx b = .ok pc b') :
    ∃ s', s.Steady s' ∧ s'.observed = pc :: s.observed ∧ Holds ctx s' σ b' owned := by
  obtain ⟨log, _, holds'⟩ := holds.ask .position rfl rfl trivial trivial run
  obtain rfl := holds.owns.buffer
  exact ⟨_, Session.steady_after .position rfl rfl run, rfl, holds'⟩

theorem Holds.entryPoint (holds : Holds ctx s σ b owned)
    (run : Asm.entryPoint ctx b = .ok pc b') :
    ∃ s', s.Steady s' ∧ s'.observed = pc :: s.observed ∧ pc ∈ s'.entries ∧
      Holds ctx s' σ b' owned := by
  obtain ⟨log, _, holds'⟩ := holds.ask .entryPoint rfl rfl trivial trivial run
  obtain rfl := holds.owns.buffer
  exact ⟨_, Session.steady_after .entryPoint rfl rfl run, rfl, .head _, holds'⟩

theorem Holds.entryPointWith {state : State} {pushed : Option VType}
    (holds : Holds ctx s σ b owned) (run : Asm.entryPointWith state pushed ctx b = .ok pc b') :
    ∃ s', s.Steady s' ∧ s'.observed = pc :: s.observed ∧ pc ∈ s'.entries ∧
      Holds ctx s' σ b' owned := by
  obtain ⟨log, _, holds'⟩ :=
    holds.ask (.entryPointWith state pushed) rfl rfl trivial trivial run
  obtain rfl := holds.owns.buffer
  exact ⟨_, Session.steady_after (.entryPointWith state pushed) rfl rfl run, rfl, .head _, holds'⟩

theorem Holds.resolveTo (holds : Holds ctx s σ b (chain.pcs + owned)) (entered : pc ∈ s.entries)
    (run : Asm.resolveTo chain pc ctx b = .ok () b') :
    ∃ s', s.Steady s' ∧ Holds ctx s' σ b' owned := by
  obtain ⟨log, _, holds'⟩ := holds.perform (.resolveTo chain pc) (by simp [Call.fills]) trivial
    entered run
  obtain rfl := holds.owns.buffer
  exact ⟨_, Session.steady_after (.resolveTo chain pc) rfl rfl run, holds'.mono (zero_add _).ge⟩

end Calls

theorem Yields.mono (yields : Yields how fewer x gives) (less : fewer ≤ owned) :
    Yields how owned x gives :=
  fun _ _ _ _ _ _ _ run _ _ _ holds known =>
    yields run (holds.mono (add_le_add_left less _)) known

theorem Yields.weaken {more : Change} (yields : Yields how owned x gives)
    (imp : ∀ {s s' σ σ'}, how s σ s' σ' → more s σ s' σ') : Yields more owned x gives := by
  intro mc ctx σ σ' b b' y run s rest given holds known
  obtain ⟨s', changed, holds'⟩ := yields run holds known
  exact ⟨s', imp changed, holds'⟩

theorem Yields.after_pure (second : Yields how owned (f a) last) :
    Yields how owned (pure a >>= f) last := by
  intro mc ctx σ σ' b b' y run
  obtain ⟨_, _, _, ran, run⟩ := bind_ok.mp run
  obtain ⟨rfl, rfl, rfl⟩ := pure_ok.mp ran
  exact second run

theorem Answers.yields (useless : Answers x (gives · = none)) : Yields how owned x gives := by
  intro mc ctx σ σ' b b' y run s rest given holds known
  rw [useless run] at known
  cases known

theorem Fails.answers (fails : Fails x) : Answers x good :=
  fun _ _ _ _ _ _ _ run => (fails run).elim

theorem Fails.yields (fails : Fails x) : Yields how owned x gives := fails.answers.yields

theorem fails_throw : Fails (throw e : Lowering α) :=
  fun _ _ _ _ _ _ _ run => throw_ok.mp run

theorem fails_fail (cause : TreeFault) : Fails (fail cause : Lowering α) := fails_throw

theorem answers_pure (known : good a) : Answers (pure a) good := by
  intro mc ctx σ σ' b b' y run
  obtain ⟨rfl, _⟩ := pure_ok.mp run
  exact known

theorem Fails.bind (fails : Fails x) : Answers (x >>= f) fit := by
  intro mc ctx σ σ' b b' y run
  obtain ⟨a, _, _, ran, _⟩ := bind_ok.mp run
  exact (fails ran).elim

theorem Answers.bind (first : Answers x good) (second : ∀ a, good a → Answers (f a) fit) :
    Answers (x >>= f) fit := by
  intro mc ctx σ σ' b b' y run
  obtain ⟨a, _, _, ran, run⟩ := bind_ok.mp run
  exact second a (first ran) run

theorem answers_bind (second : ∀ a, Answers (f a) fit) : Answers (x >>= f) fit := by
  intro mc ctx σ σ' b b' y run
  obtain ⟨a, _, _, _, run⟩ := bind_ok.mp run
  exact second a run

theorem Fails.discard (fails : Fails x) : Fails (discard x) := by
  intro mc ctx σ σ' b b' y run
  obtain ⟨a, ran⟩ := discard_ok.mp run
  exact fails ran

theorem keeps_fail (cause : TreeFault) : Keeps how owned (fail cause : Lowering α) given :=
  (fails_fail cause).yields

theorem Keeps.discard (keeps : Keeps how owned x given) :
    Keeps how owned (discard x) fun _ => 0 := by
  intro mc ctx σ σ' b b' y run s rest none holds known
  cases known
  obtain ⟨a, ran⟩ := discard_ok.mp run
  obtain ⟨s', changed, holds'⟩ := keeps ran holds rfl
  exact ⟨s', changed, holds'.mono (add_le_add_left (Multiset.zero_le _) _)⟩

theorem lift_answers {a : Asm α} (answers : Asm.Answers a good) :
    Answers (liftM a : Lowering α) good :=
  fun _ _ _ _ _ _ _ run => answers (lift_ok.mp run).2

theorem lift_fails {a : Asm α} (fails : Asm.Fails a) : Fails (liftM a : Lowering α) :=
  lift_answers fails

variable {earlier later : Change}

/-- One action after another, each with changes of its own; the second may use what the first gives
and what it leaves alone. -/
theorem Yields.bind_of (first : Yields earlier owned x gives)
    (second : ∀ a given, gives a = some given → Yields later (given + k) (f a) last)
    (doomed : ∀ a, gives a = none → Answers (f a) (last · = none)) (split : owned + k ≤ total)
    (both : ∀ {s s1 s2 σ σ1 σ2}, earlier s σ s1 σ1 → later s1 σ1 s2 σ2 → how s σ s2 σ2) :
    Yields how total (x >>= f) last := by
  intro mc ctx σ σ'' b b'' y run s rest given holds known
  obtain ⟨a, σ', between, ran, run⟩ := bind_ok.mp run
  have holds' : Holds ctx s σ b (owned + (k + rest)) := by
    refine holds.mono ?_
    rw [← add_assoc]
    exact add_le_add_left split _
  cases middle : gives a with
  | none =>
    rw [doomed a middle run] at known
    cases known
  | some held =>
    obtain ⟨s1, changed, holds1⟩ := first ran holds' middle
    rw [← add_assoc] at holds1
    obtain ⟨s2, changed', holds2⟩ := second a held middle run holds1 known
    exact ⟨s2, both changed changed', holds2⟩

theorem Keeps.bind_of (first : Keeps earlier owned x given)
    (second : ∀ a, Yields later (given a + k) (f a) last) (split : owned + k ≤ total)
    (both : ∀ {s s1 s2 σ σ1 σ2}, earlier s σ s1 σ1 → later s1 σ1 s2 σ2 → how s σ s2 σ2) :
    Yields how total (x >>= f) last :=
  Yields.bind_of first (fun a _ same => Option.some.inj same ▸ second a) (by simp) split both

variable [how.Lawful]

theorem lift_keeps {a : Asm α} (keeps : Asm.Keeps owned a given) :
    Keeps how owned (liftM a : Lowering α) given := by
  intro mc ctx σ σ' b b' y run s rest _ holds known
  cases known
  obtain ⟨rfl, ran⟩ := lift_ok.mp run
  obtain ⟨s', steady, holds'⟩ := holds.asm keeps ran
  exact ⟨s', Change.Lawful.still steady rfl, holds'⟩

theorem keeps_of_same (same : ∀ {mc ctx σ σ' b b' y},
    x mc σ ctx b = .ok (y, σ') b' → σ = σ' ∧ b = b') : Keeps how 0 x fun _ => 0 := by
  intro mc ctx σ σ' b b' y run s rest given holds known
  cases known
  obtain ⟨rfl, rfl⟩ := same run
  exact ⟨s, Change.Lawful.refl s σ, holds⟩

theorem yields_pure {given : Multiset Nat} (known : gives a = some given) (less : given ≤ owned) :
    Yields how owned (pure a) gives := by
  intro mc ctx σ σ' b b' y run s rest given' holds known'
  obtain ⟨rfl, rfl, rfl⟩ := pure_ok.mp run
  rw [known] at known'
  cases known'
  exact ⟨s, Change.Lawful.refl s σ, holds.mono (add_le_add_left less _)⟩

theorem keeps_pure (less : given a ≤ owned) : Keeps how owned (pure a) given :=
  yields_pure rfl less

theorem Keeps.bind (first : Keeps how owned x given)
    (second : ∀ a, Yields how (given a + k) (f a) last) (split : owned + k ≤ total) :
    Yields how total (x >>= f) last :=
  first.bind_of second split Change.Lawful.trans

theorem Keeps.next (first : Keeps how 0 x fun _ => 0) (second : ∀ a, Yields how owned (f a) last) :
    Yields how owned (x >>= f) last :=
  first.bind (fun a => (second a).mono (zero_add owned).ge) (zero_add owned).le

theorem Keeps.next_of (first : Keeps how 0 x fun _ => 0) (answers : Answers x good)
    (second : ∀ a, good a → Yields how owned (f a) last) : Yields how owned (x >>= f) last := by
  intro mc ctx σ σ'' b b'' y run s rest given holds known
  obtain ⟨a, σ', between, ran, run⟩ := bind_ok.mp run
  obtain ⟨s1, changed, holds1⟩ := first.run ran holds
  obtain ⟨s2, changed', holds2⟩ := second a (answers ran) run holds1 known
  exact ⟨s2, Change.Lawful.trans changed changed', holds2⟩

theorem keeps_buffer : Keeps how 0 buffer fun _ => 0 := keeps_of_same fun run => (buffer_ok.mp run).2

theorem keeps_read : Keeps how 0 (read : Lowering MethodContext) fun _ => 0 :=
  keeps_of_same fun run => (read_ok.mp run).2

theorem keeps_readThe : Keeps how 0 (readThe Context : Lowering Context) fun _ => 0 :=
  keeps_of_same fun run => (readThe_ok.mp run).2

theorem keeps_get : Keeps how 0 (get : Lowering MethodState) fun _ => 0 :=
  keeps_of_same fun run => (get_ok.mp run).2

theorem keeps_isAlive : Keeps how 0 isAlive fun _ => 0 :=
  keeps_buffer.next fun _ => keeps_pure le_rfl

theorem keeps_nextRegister : Keeps how 0 nextRegister fun _ => 0 :=
  keeps_buffer.next fun _ => keeps_pure le_rfl

theorem keeps_pendingLine : Keeps how 0 pendingLine fun _ => 0 :=
  keeps_buffer.next fun _ => keeps_pure le_rfl

theorem keeps_emit (instruction : Instruction) :
    Keeps how 0 (liftM (Asm.emit instruction) : Lowering Unit) fun _ => 0 :=
  lift_keeps (Asm.keeps_emit instruction)

theorem keeps_branch (jump : Jump) :
    Keeps how 0 (liftM (Asm.branch jump) : Lowering Chain) Chain.pcs :=
  lift_keeps (Asm.keeps_branch jump)

theorem keeps_resolve (chain : Chain) :
    Keeps how chain.pcs (liftM (Asm.resolve chain) : Lowering Unit) fun _ => 0 :=
  lift_keeps (Asm.keeps_resolve chain)

theorem keeps_endScopes (first : UInt16) :
    Keeps how 0 (liftM (Asm.endScopes first) : Lowering Unit) fun _ => 0 :=
  lift_keeps (Asm.keeps_endScopes first)

theorem keeps_modify {f : MethodState → MethodState} (same : ∀ σ, (f σ).records = σ.records) :
    Keeps how 0 (modify f : Lowering PUnit) fun _ => 0 := by
  intro mc ctx σ σ' b b' y run s rest given holds known
  cases known
  obtain ⟨rfl, rfl⟩ := modify_ok.mp run
  have pcs : (f σ).pcs = σ.pcs := by unfold MethodState.pcs; rw [same]
  have gaps : (f σ).gaps = σ.gaps := by unfold MethodState.gaps; rw [same]
  exact ⟨s, Change.Lawful.still (.refl s) gaps, pcs ▸ holds.owns, same σ ▸ holds.gaps⟩

theorem keeps_checkDimensions (type : FieldType) : Keeps how 0 (checkDimensions type) fun _ => 0 := by
  unfold checkDimensions
  split
  · split
    · exact fails_throw.yields
    · exact keeps_pure le_rfl
  · exact keeps_pure le_rfl

theorem keeps_temporary (type : VType) : Keeps how 0 (temporary type) fun _ => 0 :=
  lift_keeps (Asm.keeps_newLocal type none)

theorem keeps_declare (var : VarDecl) : Keeps how 0 (declare var) fun _ => 0 := by
  refine (keeps_checkDimensions _).next fun _ => ?_
  refine (lift_keeps (Asm.keeps_newLocal _ _)).next fun _ => ?_
  refine Keeps.next (keeps_modify ?_) fun _ => keeps_pure le_rfl
  exact fun σ => rfl

section Records

variable {mc : MethodContext} {ctx : Context} {σ σ' : MethodState} {b b' : Buffer} {s s' : Session}

theorem sum_modify_le (records : List ScopeRecord) (depth : Nat)
    (change : ScopeRecord → ScopeRecord) :
    ((records.modify depth change).map ScopeRecord.pcs).sum + (records.getD depth {}).pcs ≤
      (records.map ScopeRecord.pcs).sum + (change (records.getD depth {})).pcs := by
  induction records generalizing depth with
  | nil =>
    have none : (([] : List ScopeRecord).getD depth {}).pcs = 0 := by simp; rfl
    rw [none, List.modify_nil, List.map_nil, List.sum_nil, add_zero]
    exact Multiset.zero_le _
  | cons record rest ih =>
    cases depth with
    | zero =>
      simp only [List.modify_zero_cons, List.map_cons, List.sum_cons, List.getD_cons_zero]
      rw [add_right_comm, add_comm (change record).pcs]
      exact (add_right_comm _ _ _).le
    | succ depth =>
      simp only [List.modify_succ_cons, List.map_cons, List.sum_cons, List.getD_cons_succ, add_assoc]
      exact add_le_add_right (ih depth) _

theorem Holds.change {depth : Nat} {f : ScopeRecord → ScopeRecord}
    (holds : Holds ctx s σ b owned)
    (fair : k + (f (σ.records.getD depth {})).pcs ≤ owned + (σ.records.getD depth {}).pcs)
    (known : ∀ p ∈ (f (σ.records.getD depth {})).gaps.toList, p ∈ s.observed) :
    Holds ctx s { σ with records := σ.records.modify depth f } b k where
  owns := by
    refine holds.owns.mono ?_
    have balance := add_le_add fair (sum_modify_le σ.records depth f)
    rw [add_add_add_comm, add_add_add_comm owned, add_comm (ScopeRecord.pcs _)] at balance
    exact le_of_add_le_add_right balance
  gaps record member p gap := by
    obtain ⟨i, bound, rfl⟩ := List.mem_iff_getElem.mp member
    rw [List.getElem_modify] at gap
    rw [List.length_modify] at bound
    split at gap
    · next here =>
      subst here
      have found : σ.records.getD depth {} = σ.records[depth] := by
        rw [List.getD_eq_getElem?_getD, List.getElem?_eq_getElem bound, Option.getD_some]
      exact known p (found ▸ gap)
    · exact holds.gaps _ (List.getElem_mem bound) p gap

theorem changeRecord_ok {depth : Nat} {f : ScopeRecord → ScopeRecord} {y : Unit} :
    changeRecord depth f mc σ ctx b = .ok (y, σ') b' ↔
      { σ with records := σ.records.modify depth f } = σ' ∧ b = b' :=
  modify_ok

theorem Holds.gap (holds : Holds ctx s σ b owned) (depth : Nat) :
    ∀ p ∈ (σ.records.getD depth {}).gaps.toList, p ∈ s.observed := by
  intro p gap
  rw [List.getD_eq_getElem?_getD] at gap
  cases found : σ.records[depth]? with
  | none => simp [found] at gap
  | some record =>
    rw [found] at gap
    exact holds.gaps record (List.mem_of_getElem? found) p gap

theorem gaps_modify (depth : Nat) {f : ScopeRecord → ScopeRecord}
    (same : ∀ record, (f record).gaps = record.gaps) :
    ({ σ with records := σ.records.modify depth f } : MethodState).gaps = σ.gaps := by
  refine List.ext_getElem? fun i => ?_
  simp only [MethodState.gaps, List.getElem?_map, List.getElem?_modify]
  split
  · cases σ.records[i]? with
    | none => rfl
    | some record => exact congrArg some (same record)
  · simp

/-- A chain that a record holds for some purpose. -/
structure RecordChain where
  chain : ScopeRecord → Chain
  put : Chain → ScopeRecord → ScopeRecord
  swap : ∀ c r, (put c r).pcs + (chain r).pcs = r.pcs + c.pcs
  gaps : ∀ c r, (put c r).gaps = r.gaps
  overwrite : ∀ c d r, put c (put d r) = put c r

namespace RecordChain

def exit : RecordChain where
  chain := (·.exit)
  put c r := { r with exit := c }
  swap c r := by
    simp only [ScopeRecord.pcs]
    abel
  gaps _ _ := rfl
  overwrite _ _ _ := rfl

def next : RecordChain where
  chain := (·.next)
  put c r := { r with next := c }
  swap c r := by
    simp only [ScopeRecord.pcs]
    abel
  gaps _ _ := rfl
  overwrite _ _ _ := rfl

def calls : RecordChain where
  chain := (·.calls)
  put c r := { r with calls := c }
  swap c r := by
    simp only [ScopeRecord.pcs]
    abel
  gaps _ _ := rfl
  overwrite _ _ _ := rfl

end RecordChain

variable (lens : RecordChain) (depth : Nat)

theorem Holds.takeOut (holds : Holds ctx s σ b owned) :
    Holds ctx s { σ with records := σ.records.modify depth (lens.put []) } b
      ((lens.chain (σ.records.getD depth {})).pcs + owned) := by
  refine holds.change ?_ ?_
  · have swapped := lens.swap [] (σ.records.getD depth {})
    rw [show Chain.pcs [] = 0 from rfl, add_zero, add_comm] at swapped
    rw [add_right_comm, swapped, add_comm]
  · rw [lens.gaps]
    exact holds.gap depth

theorem Holds.putBack
    (holds : Holds ctx s { σ with records := σ.records.modify depth (lens.put []) } b
      (chain.pcs + owned)) :
    Holds ctx s { σ with records := σ.records.modify depth (lens.put chain) } b owned := by
  have twice : (σ.records.modify depth (lens.put [])).modify depth (lens.put chain) =
      σ.records.modify depth (lens.put chain) := by
    rw [List.modify_modify_eq]
    exact congrArg (σ.records.modify depth) (funext fun r => lens.overwrite chain [] r)
  rw [← twice]
  refine holds.change ?_ ?_
  · rw [add_comm chain.pcs, add_assoc, add_comm chain.pcs, ← lens.swap]
    exact add_le_add_right (Multiset.le_add_right _ _) _
  · rw [lens.gaps]
    exact holds.gap depth

theorem Yields.joined {how : Change} (jump : Chain) {rest : Lowering α}
    (next : Yields how k rest gives)
    (absorbs : ∀ {s s1 s2 σ σ1 σ2}, s.Steady s1 → σ1.gaps = σ.gaps → how s1 σ1 s2 σ2 →
      how s σ s2 σ2) :
    Yields how (jump.pcs + k) (do
      let joined ← Asm.mergeChains (lens.chain (← record depth)) jump
      changeRecord depth (lens.put joined)
      rest : Lowering α) gives := by
  intro mc ctx σ σ'' b b'' y run s rest given holds known
  rw [record_bind] at run
  obtain ⟨joined, c, ran, run⟩ := lift_bind_ok.mp run
  rw [changeRecord_bind] at run
  have taken := holds.takeOut lens depth
  rw [add_assoc jump.pcs, ← add_assoc] at taken
  obtain ⟨s1, steady, holds1⟩ := taken.asm (Asm.keeps_mergeChains _ _) ran
  obtain ⟨s2, changed, holds2⟩ := next run (holds1.putBack lens depth) known
  have gaps := gaps_modify (σ := σ) depth (lens.gaps joined)
  exact ⟨s2, absorbs steady gaps changed, holds2⟩

theorem of_enclosed {found : α × ScopeRecord}
    (run : enclosed action mc σ ctx b = .ok (found, σ') b') :
    ∃ inner, action mc { σ with records := {} :: σ.records } ctx b = .ok (found.1, inner) b' ∧
      found.2 = inner.records.getD 0 {} ∧ σ' = { inner with records := inner.records.drop 1 } := by
  rw [enclosed, modify_bind] at run
  obtain ⟨a, inner, _, ran, run⟩ := bind_ok.mp run
  rw [record_bind] at run
  rw [modify_bind] at run
  obtain ⟨rfl, rfl, rfl⟩ := pure_ok.mp run
  exact ⟨inner, ran, rfl, rfl⟩

theorem Holds.enclose (holds : Holds ctx s σ b owned) :
    Holds ctx s { σ with records := {} :: σ.records } b owned where
  owns := by
    have same : ({ σ with records := {} :: σ.records } : MethodState).pcs = σ.pcs := by
      simp [MethodState.pcs, ScopeRecord.pcs, Chain.pcs]
    exact same ▸ holds.owns
  gaps record member p gap := by
    rcases List.mem_cons.mp member with rfl | member
    · cases gap
    · exact holds.gaps record member p gap

theorem Holds.disclose (holds : Holds ctx s σ b owned) :
    Holds ctx s { σ with records := σ.records.drop 1 } b
      (owned + (σ.records.getD 0 {}).pcs) where
  owns := by
    refine holds.owns.mono ?_
    rw [add_assoc]
    refine add_le_add_right ?_ _
    unfold MethodState.pcs
    cases σ.records with
    | nil => exact (zero_add _).le
    | cons record rest => simp
  gaps record member := holds.gaps record (List.mem_of_mem_drop member)

variable {inner outer : Change}

theorem keeps_enclosed (keeps : Keeps inner owned action given)
    (out : ∀ {s s' σ σ'}, inner s { σ with records := {} :: σ.records } s' σ' → outer s σ s' { σ'
      with records := σ'.records.drop 1 }) :
    Keeps outer owned (enclosed action) fun found => given found.1 + found.2.pcs := by
  intro mc ctx σ σ' b b' found run s rest _ holds known
  cases known
  obtain ⟨inside, ran, record, rfl⟩ := of_enclosed run
  obtain ⟨s', changed, holds'⟩ := keeps ran holds.enclose rfl
  dsimp only
  rw [record, add_right_comm]
  exact ⟨s', out changed, holds'.disclose⟩

theorem keeps_outside {action : Lowering Unit} (keeps : Keeps outer 0 action fun _ => 0)
    (extends_ : ∀ {s s'}, (∃ σ σ', outer s σ s' σ') → s.Extends s')
    (back : ∀ {s s' σ σ'}, outer s { σ with records := σ.records.drop depth } s' σ' →
      inner s σ s' { σ' with records := σ.records.take depth ++ σ'.records }) :
    Keeps inner 0 (outside depth action) fun _ => 0 := by
  intro mc ctx σ σ' b b' y run s rest _ holds known
  cases known
  rw [outside, get_bind] at run
  rw [modify_bind] at run
  obtain ⟨_, after, _, ran, run⟩ := bind_ok.mp run
  obtain ⟨rfl, rfl⟩ := modify_ok.mp run
  have parts : ((σ.records.take depth).map ScopeRecord.pcs).sum +
      ((σ.records.drop depth).map ScopeRecord.pcs).sum = σ.pcs := by
    rw [← List.sum_append, ← List.map_append, List.take_append_drop]
    rfl
  have apart : Holds ctx s { σ with records := σ.records.drop depth } b
      (0 + (rest + ((σ.records.take depth).map ScopeRecord.pcs).sum)) := by
    refine ⟨holds.owns.mono ?_, fun record member => holds.gaps record (List.mem_of_mem_drop member)⟩
    rw [← parts, ← add_assoc, ← add_assoc]
    exact le_rfl
  obtain ⟨s', changed, holds'⟩ := keeps ran apart rfl
  refine ⟨s', back changed, holds'.owns.mono ?_, fun record member p gap => ?_⟩
  · simp only [MethodState.pcs, List.map_append, List.sum_append, ← add_assoc]
    exact le_rfl
  · rcases List.mem_append.mp member with member | member
    · exact (extends_ ⟨_, _, changed⟩).known (holds.gaps record (List.mem_of_mem_take member) p gap)
    · exact holds'.gaps record member p gap

end Records

end Lowering

end ClassForge
