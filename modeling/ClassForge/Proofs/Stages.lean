import ClassForge.Proofs.Expressions
import ClassForge.Proofs.Liveness

namespace ClassForge

variable {change : ScopeRecord → ScopeRecord} {records : List ScopeRecord} {depth : Nat}
  {scopes : List Scope} {floors : List Nat}

namespace Scope

def isLeft : Scope → Bool
  | .loop | .switch | .labelled _ => true
  | _ => false

def isCalled : Scope → Bool
  | .guarded (some _) true => true
  | _ => false

end Scope

inductive Outlet where
  | exit
  | next
  | calls

namespace Outlet

def of (record : ScopeRecord) : Outlet → Chain
  | .exit => record.exit
  | .next => record.next
  | .calls => record.calls

def put (chain : Chain) (record : ScopeRecord) : Outlet → ScopeRecord
  | .exit => { record with exit := chain }
  | .next => { record with next := chain }
  | .calls => { record with calls := chain }

/-- A jump that the statement goes on with. Calls of a finalizer come after the start of the body. -/
def Accepts (scope : Scope) (floor : Nat) (site : JumpSite) : Outlet → Prop
  | .exit => scope.isLeft = true
  | .next => scope.isLoop = true
  | .calls => scope.isCalled = true ∧ floor ≤ site.pc

theorem of_put (outlet other : Outlet) (chain : Chain) (record : ScopeRecord) :
    other.of (outlet.put chain record) = chain ∧ other = outlet ∨
      other.of (outlet.put chain record) = other.of record := by
  cases outlet <;> cases other <;> simp [of, put]

end Outlet

def ScopeRecord.sites (record : ScopeRecord) : Multiset JumpSite :=
  record.exit.sites + record.next.sites + record.calls.sites

theorem Outlet.sites_put (outlet : Outlet) (chain : Chain) (record : ScopeRecord) :
    (outlet.put chain record).sites + (outlet.of record).sites = record.sites + chain.sites := by
  cases outlet <;> simp only [put, of, ScopeRecord.sites] <;> abel

/-- The jumps in a record are taken in fitting states, and the statement goes on with them. -/
def ScopeRecord.Fits (D : Discipline) (scope : Scope) (floor : Nat) (record : ScopeRecord) : Prop :=
  ∀ outlet : Outlet, ∀ site ∈ outlet.of record,
    D.fits site.state ∧ (D.exact → outlet.Accepts scope floor site)

namespace ScopeRecord

variable {D : Discipline} {scope other : Scope} {floor : Nat} {record : ScopeRecord}

theorem fits_empty : ScopeRecord.Fits D scope floor {} := by
  intro outlet site member
  cases outlet <;> cases member

theorem Fits.chain (fits : record.Fits D scope floor) (outlet : Outlet) :
    (outlet.of record).Fits D :=
  fun site member => (fits outlet site member).1

theorem Fits.put (fits : record.Fits D scope floor) (outlet : Outlet) {chain : Chain}
    (accepted : ∀ site ∈ chain,
      D.fits site.state ∧ (D.exact → outlet.Accepts other floor site))
    (same : ∀ kept : Outlet, kept ≠ outlet → ∀ site, kept.Accepts scope floor site →
      kept.Accepts other floor site) : (outlet.put chain record).Fits D other floor := by
  intro kept site member
  by_cases changed : kept = outlet
  · subst changed
    have here : kept.of (kept.put chain record) = chain := by cases kept <;> rfl
    exact accepted site (here ▸ member)
  · rcases outlet.of_put kept chain record with ⟨_, same⟩ | unchanged
    · exact absurd same changed
    · rw [unchanged] at member
      obtain ⟨fit, accepts⟩ := fits kept site member
      exact ⟨fit, fun exact => same kept changed site (accepts exact)⟩

theorem Fits.none (fits : record.Fits D scope floor) (exact : D.exact)
    (closed : ∀ (outlet : Outlet) (site), ¬outlet.Accepts scope floor site) : record.sites = 0 := by
  have empty (outlet : Outlet) : outlet.of record = [] :=
    List.eq_nil_iff_forall_not_mem.mpr fun site member =>
      closed outlet site ((fits outlet site member).2 exact)
  have exit : record.exit = [] := empty .exit
  have next : record.next = [] := empty .next
  have calls : record.calls = [] := empty .calls
  simp [ScopeRecord.sites, exit, next, calls]

end ScopeRecord

def recordSites (records : List ScopeRecord) : Multiset JumpSite :=
  (records.map ScopeRecord.sites).sum

@[simp] theorem recordSites_cons (record : ScopeRecord) (records : List ScopeRecord) :
    recordSites (record :: records) = record.sites + recordSites records := by
  simp [recordSites]

@[simp] theorem recordSites_append (inner outer : List ScopeRecord) :
    recordSites (inner ++ outer) = recordSites inner + recordSites outer := by
  simp [recordSites]

theorem recordSites_take_drop (depth : Nat) (records : List ScopeRecord) :
    recordSites (records.take depth) + recordSites (records.drop depth) = recordSites records := by
  rw [← recordSites_append, List.take_append_drop]

theorem recordSites_modify (change : ScopeRecord → ScopeRecord) (inside : depth < records.length) :
    recordSites (records.modify depth change) + (records.getD depth {}).sites =
      recordSites records + (change (records.getD depth {})).sites := by
  induction records generalizing depth with
  | nil => cases inside
  | cons record rest ih =>
    cases depth with
    | zero =>
      simp only [List.modify_zero_cons, recordSites_cons, List.getD_cons_zero]
      abel
    | succ depth =>
      have inner := ih (Nat.lt_of_succ_lt_succ inside)
      simp only [List.modify_succ_cons, recordSites_cons, List.getD_cons_succ, add_assoc, inner]

theorem recordSites_put (outlet : Outlet) (chain : Chain) (inside : depth < records.length) :
    recordSites (records.modify depth (outlet.put chain)) + (outlet.of (records.getD depth {})).sites =
      recordSites records + chain.sites := by
  have moved := recordSites_modify (outlet.put chain) inside
  have swapped := outlet.sites_put chain (records.getD depth {})
  refine add_right_cancel (b := (records.getD depth {}).sites) ?_
  rw [add_right_comm, moved, add_assoc, swapped]
  abel

/-- The records fit the statements that they are about, each with the start of its body where calls are
counted from. -/
inductive Orderly (D : Discipline) : List Scope → List Nat → List ScopeRecord → Prop
  | nil : Orderly D [] [] []
  | cons {scope : Scope} {scopes : List Scope} {floor : Nat} {floors : List Nat}
      {record : ScopeRecord} {records : List ScopeRecord} :
      record.Fits D scope floor → Orderly D scopes floors records →
      Orderly D (scope :: scopes) (floor :: floors) (record :: records)

namespace Orderly

variable {D : Discipline} {scopes : List Scope} {floors : List Nat} {records : List ScopeRecord}
  {scope : Scope} {depth : Nat}

section

variable (kept : Orderly D scopes floors records)

include kept

theorem length_eq : records.length = scopes.length := by
  induction kept with
  | nil => rfl
  | cons _ _ ih => simp [ih]

theorem get (here : scopes[depth]? = some scope) :
    (records.getD depth {}).Fits D scope (floors.getD depth 0) := by
  induction kept generalizing depth with
  | nil => cases here
  | cons fits _ ih =>
    cases depth with
    | zero =>
      cases here
      exact fits
    | succ depth => exact ih here

theorem modify
    (fits : ∀ scope, scopes[depth]? = some scope →
      (change (records.getD depth {})).Fits D scope (floors.getD depth 0)) :
    Orderly D scopes floors (records.modify depth change) := by
  induction kept generalizing depth with
  | nil => cases depth <;> exact .nil
  | cons first rest ih =>
    cases depth with
    | zero => exact .cons (fits _ rfl) rest
    | succ depth => exact .cons first (ih fun scope here => fits scope here)

theorem drop (depth : Nat) :
    Orderly D (scopes.drop depth) (floors.drop depth) (records.drop depth) := by
  induction kept generalizing depth with
  | nil => cases depth <;> exact .nil
  | cons first rest ih =>
    cases depth with
    | zero => exact .cons first rest
    | succ depth => exact ih depth

theorem replace {outer : List ScopeRecord}
    (others : Orderly D (scopes.drop depth) (floors.drop depth) outer) :
    Orderly D scopes floors (records.take depth ++ outer) := by
  induction kept generalizing depth with
  | nil =>
    cases depth <;> exact others
  | cons first rest ih =>
    cases depth with
    | zero => exact others
    | succ depth => exact .cons first (ih others)

end

theorem becomes {other : Scope} {floor above : Nat}
    (kept : Orderly D (scope :: scopes) (floor :: floors) records)
    (same : ∀ (outlet : Outlet) (site), outlet.Accepts scope floor site →
      outlet.Accepts other above site) : Orderly D (other :: scopes) (above :: floors) records := by
  cases kept with
  | cons fits kept =>
    refine .cons (fun outlet site member => ?_) kept
    obtain ⟨fit, accepts⟩ := fits outlet site member
    exact ⟨fit, fun exact => same outlet site (accepts exact)⟩

end Orderly

def Fresh (D : Discipline) (scopes : List Scope) (floors : List Nat) (records : List ScopeRecord) :
    Prop :=
  ∃ outer, records = {} :: outer ∧ Orderly D scopes floors outer

theorem Fresh.orderly {D : Discipline} (fresh : Fresh D scopes floors records) (scope : Scope)
    (floor : Nat) : Orderly D (scope :: scopes) (floor :: floors) records := by
  obtain ⟨outer, rfl, kept⟩ := fresh
  exact .cons ScopeRecord.fits_empty kept

def Landmarks.Cover (marks : Landmarks) (floors : List Nat) : Prop :=
  ∀ p ∈ floors, p = 0 ∨ p ∈ marks.floors

def MethodState.sites (σ : MethodState) : Multiset JumpSite := recordSites σ.records

namespace Lowering

variable {mc : MethodContext} {σ : MethodState}
variable {α β : Type} {D : Discipline} {a : Asm α}

/-- From the buffer on, the action leads from records of one kind to those of another. It uses up the
jumps that it is given and gives those in its answer. -/
def ObeysAt (D : Discipline) (ctx : Context) (b : Buffer) (marks : Landmarks)
    (S T : List ScopeRecord → Prop) (owned : Multiset JumpSite) (action : Lowering α)
    (gives : α → Multiset JumpSite → Prop) : Prop :=
  ∀ mc σ, (D.rooms → σ.Roomy) → S σ.records →
    Asm.ObeysAt D ctx b marks (owned + σ.sites) (action mc σ) fun found given =>
      (D.rooms → found.2.Roomy) ∧ T found.2.records ∧ ∃ own, given = own + found.2.sites ∧ gives found.1 own

abbrev SpendsAt (D : Discipline) (ctx : Context) (b : Buffer) (marks : Landmarks)
    (S T : List ScopeRecord → Prop) (owned : Multiset JumpSite) (action : Lowering α) : Prop :=
  ObeysAt D ctx b marks S T owned action fun _ given => given = 0

abbrev StaysAt (D : Discipline) (ctx : Context) (b : Buffer) (marks : Landmarks)
    (scopes : List Scope) (floors : List Nat) (action : Lowering α) : Prop :=
  SpendsAt D ctx b marks (Orderly D scopes floors) (Orderly D scopes floors) 0 action

def Ran (action : Lowering α) (ctx : Context) (b : Buffer) (answer : α) (b' : Buffer) : Prop :=
  ∃ mc σ σ', action mc σ ctx b = .ok (answer, σ') b'

variable {ctx : Context} {b b' : Buffer} {marks : Landmarks} {S T U : List ScopeRecord → Prop}
  {owned k total : Multiset JumpSite} {gives fewer : α → Multiset JumpSite → Prop}
  {last : β → Multiset JumpSite → Prop} {x : Lowering α} {f : α → Lowering β}

theorem Ran.lift {answer : α} (ran : Ran (liftM a) ctx b answer b') : a ctx b = .ok answer b' := by
  obtain ⟨mc, σ, σ', run⟩ := ran
  exact (lift_ok.mp run).2

theorem ObeysAt.imp (obeys : ObeysAt D ctx b marks S T owned x gives)
    (more : ∀ a given, gives a given → fewer a given) :
    ObeysAt D ctx b marks S T owned x fewer := by
  intro mc σ roomy known
  refine (obeys mc σ roomy known).imp fun found given gave => ?_
  obtain ⟨roomy', known', own, same, gave⟩ := gave
  exact ⟨roomy', known', own, same, more found.1 own gave⟩

theorem ObeysAt.knowing (kept : S records) (obeys : ObeysAt D ctx b marks S T owned x gives) :
    ObeysAt D ctx b marks (· = records) T owned x gives := by
  intro mc σ roomy same
  obtain rfl : σ.records = records := same
  exact obeys mc σ roomy kept

theorem ObeysAt.strengthen (obeys : ObeysAt D ctx b marks S T owned x gives)
    (enough : ∀ records, U records → S records) : ObeysAt D ctx b marks U T owned x gives :=
  fun mc σ roomy kept => obeys mc σ roomy (enough _ kept)

theorem ObeysAt.weaken (obeys : ObeysAt D ctx b marks S T owned x gives)
    (less : ∀ records, T records → U records) : ObeysAt D ctx b marks S U owned x gives := by
  intro mc σ roomy kept
  refine (obeys mc σ roomy kept).imp fun found given gave => ?_
  obtain ⟨roomy', kept', rest⟩ := gave
  exact ⟨roomy', less _ kept', rest⟩

theorem obeysAt_pure {a : α} (known : gives a owned) :
    ObeysAt D ctx b marks S S owned (pure a) gives :=
  fun _ _ roomy kept => Asm.obeysAt_pure ⟨roomy, kept, owned, rfl, known⟩

/-- One action after another; the second is given what the first gives and what it leaves alone. -/
theorem ObeysAt.bind (first : ObeysAt D ctx b marks S T owned x gives)
    (second : ∀ a b' given, Ran x ctx b a b' → gives a given →
      ObeysAt D ctx b' marks T U (given + k) (f a) last)
    (split : owned + k = total) : ObeysAt D ctx b marks S U total (x >>= f) last := by
  intro mc σ roomy kept
  refine Asm.ObeysAt.bind (k := k) (first mc σ roomy kept)
    (fun found b' given ran gave => ?_) (by rw [← split]; abel)
  obtain ⟨roomy', kept', own, rfl, gave⟩ := gave
  have rest := second found.1 b' own ⟨mc, σ, found.2, ran⟩ gave mc found.2 roomy' kept'
  rw [add_right_comm]
  exact rest

theorem SpendsAt.andThen (first : SpendsAt D ctx b marks S T owned x)
    (second : ∀ a b', Ran x ctx b a b' → ObeysAt D ctx b' marks T U k (f a) last) :
    ObeysAt D ctx b marks S U (owned + k) (x >>= f) last := by
  refine ObeysAt.bind first (fun a b' given ran none => ?_) rfl
  rw [none, zero_add]
  exact second a b' ran

theorem SpendsAt.next (first : SpendsAt D ctx b marks S T 0 x)
    (second : ∀ a b', Ran x ctx b a b' → ObeysAt D ctx b' marks T U owned (f a) last) :
    ObeysAt D ctx b marks S U owned (x >>= f) last := by
  refine ObeysAt.bind first (fun a b' given ran none => ?_) (zero_add owned)
  rw [none, zero_add]
  exact second a b' ran

theorem ObeysAt.then (first : ObeysAt D ctx b marks S T owned x gives)
    (second : ∀ a b' given, Ran x ctx b a b' → gives a given →
      ObeysAt D ctx b' marks T U given (f a) last) :
    ObeysAt D ctx b marks S U owned (x >>= f) last := by
  refine first.bind (fun a b' given ran known => ?_) (add_zero owned)
  rw [add_zero]
  exact second a b' given ran known

theorem ObeysAt.congr {y : Lowering α} (same : ∀ mc σ, S σ.records → x mc σ ctx b = y mc σ ctx b)
    (obeys : ObeysAt D ctx b marks S T owned y gives) :
    ObeysAt D ctx b marks S T owned x gives := by
  intro mc σ roomy kept
  refine ⟨fun b' found ran => ?_, fun e b' failed => ?_⟩
  · exact (obeys mc σ roomy kept).ok (same mc σ kept ▸ ran)
  · exact (obeys mc σ roomy kept).tame (same mc σ kept ▸ failed)

theorem ObeysAt.after_look {a : α} (same : ∀ mc σ, S σ.records → x mc σ ctx b = .ok (a, σ) b)
    (second : ObeysAt D ctx b marks S T owned (f a) last) :
    ObeysAt D ctx b marks S T owned (x >>= f) last := by
  refine ObeysAt.congr (fun mc σ kept => ?_) second
  change EStateM.bind (x mc σ ctx) (fun found => f found.1 mc found.2 ctx) b = _
  rw [EStateM.bind, same mc σ kept]

theorem ObeysAt.after_pure {a : α} (second : ObeysAt D ctx b marks S T owned (f a) last) :
    ObeysAt D ctx b marks S T owned (pure a >>= f) last :=
  second.after_look fun _ _ _ => rfl

theorem ObeysAt.each (obeys : ∀ records, S records →
      ObeysAt D ctx b marks (· = records) T owned x gives) :
    ObeysAt D ctx b marks S T owned x gives :=
  fun mc σ roomy kept => obeys σ.records kept mc σ roomy rfl

theorem Obeys.at (obeys : Obeys D owned x gives) : ObeysAt D ctx b marks S S owned x gives := by
  intro mc σ roomy kept
  have whole := obeys mc σ roomy ctx b marks
  refine ⟨fun b' found run rest holds => ?_, fun e b' failed rest holds => ?_⟩
  · rw [add_assoc] at holds
    obtain ⟨given, ⟨same, gave⟩, holds'⟩ := whole.ok run holds
    rw [← add_assoc] at holds'
    rw [same]
    exact ⟨given + σ.sites, ⟨roomy, kept, given, rfl, gave⟩, holds'⟩
  · rw [add_assoc] at holds
    exact whole.tame failed holds

theorem lift_at (obeys : Asm.ObeysAt D ctx b marks owned a gives) :
    ObeysAt D ctx b marks S S owned (liftM a : Lowering α) gives := by
  intro mc σ roomy kept
  refine ⟨fun b' found run rest holds => ?_, fun e b' failed rest holds => ?_⟩
  · obtain ⟨same, ran⟩ := lift_ok.mp run
    rw [add_assoc] at holds
    obtain ⟨given, gave, holds'⟩ := obeys.ok ran holds
    rw [← add_assoc] at holds'
    rw [← same]
    exact ⟨given + σ.sites, ⟨roomy, kept, given, rfl, gave⟩, holds'⟩
  · rw [add_assoc] at holds
    rcases Asm.bind_error.mp failed with early | ⟨y, c, _, late⟩
    · exact obeys.tame early holds
    · cases late

theorem spendsAt_modify {change : MethodState → MethodState}
    (same : ∀ σ, (change σ).records = σ.records) (roomy : ∀ σ, σ.Roomy → (change σ).Roomy) :
    SpendsAt D ctx b marks S S 0 (modify change : Lowering PUnit) := by
  intro mc σ room kept
  refine ⟨fun b' found run rest holds => ?_, fun e b' failed => ?_⟩
  · obtain ⟨changed, rfl⟩ := modify_ok.mp run
    rw [← changed]
    refine ⟨0 + σ.sites, ⟨fun rooms => roomy σ (room rooms), (same σ).symm ▸ kept, 0, ?_, rfl⟩, holds⟩
    simp only [MethodState.sites, same]
  · cases failed

theorem SpendsAt.discard (spends : SpendsAt D ctx b marks S T owned x) :
    SpendsAt D ctx b marks S T owned (discard x) := by
  intro mc σ roomy kept
  refine Asm.ObeysAt.bind (k := 0) (spends mc σ roomy kept) (fun found b' given ran gave => ?_)
    (add_zero _)
  rw [add_zero]
  exact Asm.obeysAt_pure gave

theorem lift_bind : (liftM a >>= f : Lowering β) mc σ = a >>= fun y => f y mc σ := by
  funext ctx b
  change EStateM.bind (EStateM.bind (a ctx) fun y => EStateM.pure (y, σ))
    (fun found => f found.1 mc found.2 ctx) b = EStateM.bind (a ctx) (fun y => f y mc σ ctx) b
  unfold EStateM.bind
  cases a ctx b <;> rfl

section Records

variable {action : Lowering Unit}
variable {scopes : List Scope} {floors : List Nat} {scope : Scope} {floor : Nat}
  {records : List ScopeRecord}

theorem enclosed_run :
    enclosed x mc σ = (x mc { σ with records := {} :: σ.records } >>= fun found =>
      pure ((found.1, found.2.records.getD 0 {}),
        { found.2 with records := found.2.records.drop 1 }) : Asm _) := by
  funext ctx b
  change EStateM.bind (x mc { σ with records := {} :: σ.records } ctx) _ b =
    EStateM.bind (x mc { σ with records := {} :: σ.records } ctx) _ b
  unfold EStateM.bind
  cases x mc { σ with records := {} :: σ.records } ctx b <;> rfl

theorem outside_run (depth : Nat) :
    outside depth action mc σ = (action mc { σ with records := σ.records.drop depth } >>= fun found =>
      pure ((), { found.2 with records := σ.records.take depth ++ found.2.records }) : Asm _) := by
  funext ctx b
  change EStateM.bind (action mc { σ with records := σ.records.drop depth } ctx) _ b =
    EStateM.bind (action mc { σ with records := σ.records.drop depth } ctx) _ b
  unfold EStateM.bind
  cases action mc { σ with records := σ.records.drop depth } ctx b <;> rfl

/-- What is inside a statement. Afterwards its record fits the statement, or another one that it
has become. -/
theorem ObeysAt.enclosed (inner : ObeysAt D ctx b marks (Fresh D scopes floors)
      (Orderly D (scope :: scopes) (floor :: floors)) owned x gives) :
    ObeysAt D ctx b marks (Orderly D scopes floors) (Orderly D scopes floors) owned
      (enclosed x) fun found own => ∃ given, gives found.1 given ∧ own = given + found.2.sites ∧
        found.2.Fits D scope floor := by
  intro mc σ roomy kept
  have sites : ({ σ with records := {} :: σ.records } : MethodState).sites = σ.sites := by
    simp [MethodState.sites, ScopeRecord.sites]
  have whole := inner mc { σ with records := {} :: σ.records } roomy ⟨σ.records, rfl, kept⟩
  rw [sites] at whole
  rw [enclosed_run]
  refine whole.bind (k := 0) (fun found b' given _ gave => ?_) (add_zero _)
  obtain ⟨a, σ'⟩ := found
  obtain ⟨roomy', kept', own, rfl, gave⟩ := gave
  refine Asm.obeysAt_pure ⟨roomy', ?_⟩
  dsimp only [MethodState.sites] at kept' gave ⊢
  cases records : σ'.records with
  | nil =>
    rw [records] at kept'
    cases kept'
  | cons record outer =>
    rw [records] at kept'
    cases kept' with
    | cons fits kept' =>
      refine ⟨kept', own + record.sites, ?_, own, gave, rfl, fits⟩
      rw [recordSites_cons, List.drop_succ_cons, List.drop_zero, add_zero, add_assoc]

theorem SpendsAt.outside (depth : Nat)
    (outer : StaysAt D ctx b marks (scopes.drop depth) (floors.drop depth) action) :
    StaysAt D ctx b marks scopes floors (outside depth action) := by
  intro mc σ roomy kept
  have whole := outer mc { σ with records := σ.records.drop depth } roomy (kept.drop depth)
  rw [outside_run]
  refine whole.bind (k := recordSites (σ.records.take depth)) (fun found b' given _ gave => ?_) ?_
  · obtain ⟨roomy', kept', own, rfl, rfl⟩ := gave
    refine Asm.obeysAt_pure ⟨roomy', kept.replace kept', 0, ?_, rfl⟩
    simp only [MethodState.sites, recordSites_append]
    abel
  · simp only [MethodState.sites, zero_add]
    rw [add_comm, recordSites_take_drop]

theorem ObeysAt.fresh (scope : Scope) (floor : Nat) (obeys : ObeysAt D ctx b marks
      (Orderly D (scope :: scopes) (floor :: floors)) T owned x gives) :
    ObeysAt D ctx b marks (Fresh D scopes floors) T owned x gives :=
  obeys.strengthen fun _ fresh => fresh.orderly scope floor

theorem ObeysAt.after_record {f : ScopeRecord → Lowering β} (depth : Nat)
    (second : ObeysAt D ctx b marks (· = records) T owned (f (records.getD depth {})) last) :
    ObeysAt D ctx b marks (· = records) T owned (record depth >>= f) last := by
  refine second.after_look fun mc σ known => ?_
  rw [← known]
  rfl

theorem obeysAt_changeRecord (depth : Nat) (known : S (records.modify depth change))
    (same : owned + recordSites records = k + recordSites (records.modify depth change)) :
    ObeysAt D ctx b marks (· = records) S owned (changeRecord depth change)
      fun _ given => given = k := by
  intro mc σ roomy kept
  obtain rfl : σ.records = records := kept
  refine ⟨fun b' found run rest holds => ?_, fun e b' failed => ?_⟩
  · obtain ⟨changed, rfl⟩ := changeRecord_ok.mp run
    rw [← changed]
    refine ⟨owned + σ.sites, ⟨roomy, known, k, ?_, rfl⟩, holds⟩
    exact same
  · cases failed

theorem spendsAt_changeRecord (depth : Nat)
    (same : ∀ (record : ScopeRecord) (outlet : Outlet), outlet.of (change record) = outlet.of record) :
    StaysAt D ctx b marks scopes floors (changeRecord depth change) := by
  refine ObeysAt.each fun records kept => obeysAt_changeRecord depth ?_ ?_
  · refine kept.modify fun scope here outlet site member => ?_
    rw [same] at member
    exact kept.get here outlet site member
  · have sites (record : ScopeRecord) : (change record).sites = record.sites := by
      have exit : (change record).exit = record.exit := same record .exit
      have next : (change record).next = record.next := same record .next
      have calls : (change record).calls = record.calls := same record .calls
      simp only [ScopeRecord.sites, exit, next, calls]
    rw [zero_add, zero_add]
    by_cases inside : depth < records.length
    · have moved := recordSites_modify change inside
      rw [sites] at moved
      exact (add_right_cancel moved).symm
    · rw [List.modify_eq_self (not_lt.mp inside)]

/-- A chain is taken out of the innermost record, whose statement may become another one. -/
theorem ObeysAt.takeOut {f : Chain → Lowering β} (other : Scope) (outlet : Outlet)
    (becomes : ∀ kept : Outlet, kept ≠ outlet → ∀ site, kept.Accepts scope floor site →
      kept.Accepts other floor site) (rest : ∀ chain : Chain, (∀ site ∈ chain, D.fits site.state ∧
        (D.exact → outlet.Accepts scope floor site)) →
      ObeysAt D ctx b marks (Orderly D (other :: scopes) (floor :: floors)) T
        (chain.sites + k) (f chain) last) :
    ObeysAt D ctx b marks (Orderly D (scope :: scopes) (floor :: floors)) T k (do
      let found ← record 0
      changeRecord 0 (outlet.put [])
      f (outlet.of found)) last := by
  refine ObeysAt.each fun records kept => ObeysAt.after_record 0 ?_
  cases kept with
  | @cons _ _ _ _ record outer fits kept =>
    have emptied := recordSites_put outlet [] (show 0 < (record :: outer).length from Nat.zero_lt_succ _)
    rw [Chain.sites_nil, add_zero] at emptied
    have changed : ObeysAt D ctx b marks (· = record :: outer)
        (Orderly D (other :: scopes) (floor :: floors)) k (changeRecord 0 (outlet.put []))
        fun _ given => given = (outlet.of record).sites + k := by
      refine obeysAt_changeRecord 0 (.cons ?_ kept) ?_
      · exact fits.put outlet (nofun) becomes
      · rw [← emptied, List.getD_cons_zero]
        abel
    refine changed.then fun _ b' given ran same => ?_
    obtain ⟨mc, σ, σ', run⟩ := ran
    obtain ⟨_, rfl⟩ := changeRecord_ok.mp run
    rw [same]
    exact rest _ (fits outlet)

end Records

variable [D.Lawful]

theorem ObeysAt.looking (obeys : D.fits b.state → ObeysAt D ctx b marks S T owned x gives) :
    ObeysAt D ctx b marks S T owned x gives :=
  fun mc σ roomy kept => Asm.ObeysAt.looking fun fits => obeys fits mc σ roomy kept

theorem ObeysAt.without {sites : Multiset JumpSite} (light : D.exact → sites = 0)
    (obeys : ObeysAt D ctx b marks S T owned x gives) :
    ObeysAt D ctx b marks S T (sites + owned) x gives := by
  intro mc σ roomy kept
  rw [add_assoc]
  exact Asm.ObeysAt.without light (obeys mc σ roomy kept)

theorem ObeysAt.undefining {chain : Chain} (register : UInt16)
    (obeys : ObeysAt D ctx b marks S T ((chain.undefineFrom register).sites + owned) x gives) :
    ObeysAt D ctx b marks S T (chain.sites + owned) x gives := by
  intro mc σ roomy kept
  have whole := obeys mc σ roomy kept
  have forgotten {rest} (holds : D.holds ctx b (chain.sites + owned + σ.sites + rest) marks) :
      D.holds ctx b ((chain.undefineFrom register).sites + owned + σ.sites + rest) marks := by
    simp only [add_assoc] at holds ⊢
    exact Discipline.Lawful.undefines chain register holds
  exact ⟨fun b' found run rest holds => whole.ok run (forgotten holds),
    fun e b' failed rest holds => whole.tame failed (forgotten holds)⟩

theorem ObeysAt.losing (obeys : ObeysAt D ctx b marks S T owned x gives)
    (light : ∀ a given, gives a given → D.exact → given = 0) :
    SpendsAt D ctx b marks S T owned (discard x) := by
  intro mc σ roomy kept
  refine Asm.ObeysAt.bind (k := 0) (obeys mc σ roomy kept) (fun found b' given ran gave => ?_)
    (add_zero _)
  obtain ⟨roomy', kept', own, rfl, gave⟩ := gave
  rw [add_zero]
  exact Asm.ObeysAt.without (light _ _ gave)
    (Asm.obeysAt_pure ⟨roomy', kept', 0, (zero_add _).symm, rfl⟩)

theorem ObeysAt.afterCall (call : Call α) (complete : call.Complete) (ready : call.Ready D marks b)
    (second : ∀ a b' given, call.perform ctx b = .ok a b' → call.Gives D marks a given →
      ObeysAt D ctx b' (call.marks marks a) S T (given + k) (f a) last)
    (split : call.sites + k = total) :
    ObeysAt D ctx b marks S T total (liftM call.perform >>= f) last := by
  intro mc σ roomy kept
  rw [lift_bind]
  refine Asm.ObeysAt.afterCall (k := k + σ.sites) call complete ready
    (fun a b' given ran gave => ?_) (by rw [← split]; abel)
  rw [← add_assoc]
  exact second a b' given ran gave mc σ roomy kept

omit [D.Lawful] in
theorem obeysAt_throw {e : Error} (tame : D.tame e) :
    ObeysAt D ctx b marks S T owned (throw e : Lowering α) gives := by
  intro mc σ roomy kept
  refine ⟨fun b' found run => ?_, fun e' b' failed rest holds => ?_⟩
  · cases run
  · cases failed
    exact tame

/-- A chain in hand is joined with one of a record. -/
theorem ObeysAt.joined {scope : Scope} {jump : Chain} {rest : Lowering β} (outlet : Outlet)
    (here : scopes[depth]? = some scope) (fits : jump.Fits D)
    (accepted : D.exact → ∀ site ∈ jump, outlet.Accepts scope (floors.getD depth 0) site)
    (next : ObeysAt D ctx b marks (Orderly D scopes floors) T k rest last) :
    ObeysAt D ctx b marks (Orderly D scopes floors) T
      (jump.sites + k) (do
        let chain ← Asm.mergeChains (outlet.of (← record depth)) jump
        changeRecord depth (outlet.put chain)
        rest) last := by
  refine ObeysAt.each fun records kept => ObeysAt.after_record depth fun mc σ roomy same => ?_
  obtain rfl : σ.records = records := same
  have found := kept.get here
  have inside : depth < σ.records.length := by
    rw [kept.length_eq]
    exact (List.getElem?_eq_some_iff.mp here).1
  have emptied := recordSites_put outlet [] inside
  rw [Chain.sites_nil, add_zero] at emptied
  rw [lift_bind]
  -- the jumps of the record are taken out while the chains are merged
  refine Asm.ObeysAt.bind (k := k + recordSites (σ.records.modify depth (outlet.put [])))
    (Asm.obeys_mergeChains (found.chain outlet) fits ctx b marks)
    (fun chain b' given ran gave => ?_) ?_
  · obtain ⟨rfl, fit⟩ := gave
    obtain ⟨merged, rfl⟩ := Asm.mergeChains_ok ran
    have kept' : Orderly D scopes floors (σ.records.modify depth (outlet.put chain)) := by
      refine kept.modify fun other there => ?_
      cases here.symm.trans there
      refine found.put outlet (fun site member => ⟨fit site member, fun exact => ?_⟩) fun _ _ _ => id
      rcases List.mem_append.mp ((Chain.merge_perm merged).mem_iff.mp member) with old | new
      · exact (found outlet site old).2 exact
      · exact accepted exact site new
    have whole := next mc { σ with records := σ.records.modify depth (outlet.put chain) } roomy kept'
    have sites : chain.sites + (k + recordSites (σ.records.modify depth (outlet.put []))) =
        k + recordSites (σ.records.modify depth (outlet.put chain)) := by
      have filled := recordSites_put outlet chain inside
      rw [← emptied, add_right_comm] at filled
      rw [add_right_cancel filled]
      abel
    rw [sites]
    exact ⟨whole.ok, whole.tame⟩
  · simp only [MethodState.sites]
    rw [← emptied]
    abel

end Lowering

end ClassForge
