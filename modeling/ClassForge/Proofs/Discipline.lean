import ClassForge.Proofs.JumpGraph
import ClassForge.Proofs.Ownership

namespace ClassForge

variable {b b' : Buffer} {e : Error}

def Chain.sites (chain : Chain) : Multiset JumpSite := (chain : List JumpSite)

@[simp] theorem Chain.sites_nil : Chain.sites [] = 0 := rfl

@[simp] theorem Chain.map_sites (chain : Chain) : chain.sites.map JumpSite.pc = chain.pcs := by
  rfl

theorem Asm.newLocal_room {ctx : Context} {type : VType} {debug : Option LocalDebug}
    {register : UInt16} (run : newLocal type debug ctx b = .ok register b') :
    register.toNat + type.width ≤ maxLocalCount := by
  obtain ⟨fits, rfl, _⟩ := newLocal_eq run
  have limit : maxLocalCount = 65535 := rfl
  rw [UInt16.toNat_ofNat', Nat.mod_eq_of_lt (by omega)]
  omega

def Error.IsPlain : Error → Prop
  | .machine _ _ => False
  | _ => True

/-- What can be relied on in the code. -/
structure Landmarks where
  /-- Switches with operands to be filled in. -/
  places : List SwitchPlace
  /-- Positions before which no code is removed. -/
  floors : List Nat

structure Discipline where
  /-- What holds of a buffer with the given landmarks while the given jumps wait in chains. -/
  holds : Context → Buffer → Multiset JumpSite → Landmarks → Prop
  /-- What holds of a state in which code is entered. -/
  fits : State → Prop
  /-- Values have to stay within the registers that a method can have. -/
  rooms : Prop
  /-- Errors that may come up. -/
  tame : Error → Prop
  /-- No jump may be lost or used twice. -/
  exact : Prop

variable {D : Discipline} {α β : Type} {call : Call α}

def Chain.Fits (D : Discipline) (chain : Chain) : Prop := ∀ site ∈ chain, D.fits site.state

theorem Chain.fits_nil : Chain.Fits D [] := nofun

def Chain.Given (D : Discipline) (chain : Chain) (given : Multiset JumpSite) : Prop :=
  given = chain.sites ∧ chain.Fits D

namespace Call

def sites : {α : Type} → Call α → Multiset JumpSite
  | _, .merge chain other => chain.sites + other.sites
  | _, .resolve chain | _, .resolveTo chain _ | _, .discard chain => chain.sites
  | _, _ => 0

/-- What has to be known before a call. Pending jumps are left to the calls that need the position. -/
def Ready (D : Discipline) (marks : Landmarks) (b : Buffer) : {α : Type} → Call α → Prop
  | _, .emit instruction => D.rooms → instruction.Roomy
  | _, .merge chain other => chain.Fits D ∧ other.Fits D
  | _, .resolve chain => chain.Fits D
  | _, .resolvePending | _, .discard _ => False
  | _, .resolveTo chain target => chain.Fits D ∧
      (D.exact → target ∈ marks.floors ∧ ∀ p ∈ marks.floors, p ≤ target)
  | _, .entryPointWith state _ => D.fits state
  | _, .note .markDead => ∃ place ∈ marks.places, place.base + 4 * place.count = b.code.size
  | _, .putWord pc _ => ∃ place ∈ marks.places, place.IsSlot pc
  | _, _ => True

def Gives (D : Discipline) (marks : Landmarks) : {α : Type} → Call α → α → Multiset JumpSite → Prop
  | _, .branch _, chain, given | _, .merge _ _, chain, given => chain.Given D given
  | _, .jsr, chain, given => chain.Given D given ∧
      (D.exact → ∀ site ∈ chain, ∀ p ∈ marks.floors, p ≤ site.pc)
  | _, .position, pc, given | _, .entryPoint, pc, given | _, .entryPointWith _ _, pc, given =>
    given = 0 ∧ (D.exact → ∀ p ∈ marks.floors, p ≤ pc)
  | _, .newLocal type _, register, given => given = 0 ∧ register.toNat + type.width ≤ maxLocalCount
  | _, _, _, given => given = 0

def answers : {α : Type} → Call α → α → Multiset JumpSite
  | _, .branch _, chain | _, .jsr, chain | _, .merge _ _, chain => chain.sites
  | _, _, _ => 0

theorem map_sites : call.sites.map JumpSite.pc = call.takes := by
  cases call <;> simp [sites, takes]

theorem map_answers (answer : α) : (call.answers answer).map JumpSite.pc = call.gives answer := by
  cases call <;> simp [answers, gives]

def IsBasic : {α : Type} → Call α → Prop
  | _, .emit _ | _, .branch _ | _, .merge _ _ | _, .resolve _ | _, .note (.force _) => True
  | _, _ => False

def marks (marks : Landmarks) {α : Type} (call : Call α) (answer : α) : Landmarks :=
  ⟨call.places answer ++ marks.places, call.observes answer ++ marks.floors⟩

end Call

/-- The calls of which expressions consist keep the discipline. Where jumps do not count, any error
may come up. -/
class Discipline.Basic (D : Discipline) : Prop where
  step : ∀ {α : Type} (call : Call α) {ctx b b' answer rest marks}, call.IsBasic →
    call.Ready D marks b → D.holds ctx b (call.sites + rest) marks →
    call.perform ctx b = .ok answer b' →
    ∃ given, call.Gives D marks answer given ∧ D.holds ctx b' (given + rest) marks
  stops : ∀ {α : Type} (call : Call α) {ctx b e b' rest marks}, call.IsBasic →
    call.Ready D marks b → D.holds ctx b (call.sites + rest) marks →
    call.perform ctx b = .error e b' → D.tame e
  plain : ∀ {e : Error}, e.IsPlain → D.tame e
  slack : ¬D.exact → ∀ e, D.tame e

/-- Every call keeps the discipline. Jumps that do not count can be lost. -/
class Discipline.Lawful (D : Discipline) : Prop where
  perform : ∀ {α : Type} (call : Call α) {ctx b b' answer rest marks},
    call.Ready D marks b → call.Complete → D.holds ctx b (call.sites + rest) marks →
    call.perform ctx b = .ok answer b' → ∃ given, call.Gives D marks answer given ∧
      D.holds ctx b' (given + rest) (call.marks marks answer)
  fails : ∀ {α : Type} (call : Call α) {ctx b e b' rest marks}, call.Ready D marks b →
    D.holds ctx b (call.sites + rest) marks → call.perform ctx b = .error e b' → D.tame e
  forget : ∀ {ctx b sites marks} (places floors),
    D.holds ctx b sites ⟨places ++ marks.places, floors ++ marks.floors⟩ → D.holds ctx b sites marks
  looks : ∀ {ctx b sites marks}, D.holds ctx b sites marks → D.fits b.state
  inside : D.exact → ∀ {ctx b rest marks} {chain : Chain}, D.holds ctx b (chain.sites + rest) marks →
    ∀ site ∈ chain, site.pc < b.code.size
  undefines : ∀ {ctx b rest marks} (chain : Chain) (register),
    D.holds ctx b (chain.sites + rest) marks →
    D.holds ctx b ((chain.undefineFrom register).sites + rest) marks
  undefined : ∀ {state} (register), D.fits state → D.fits (state.undefineFrom register)
  loses : ¬D.exact → ∀ {ctx b rest marks} (sites), D.holds ctx b (sites + rest) marks →
    D.holds ctx b rest marks
  plain : ∀ {e : Error}, e.IsPlain → D.tame e
  slack : ¬D.exact → ∀ e, D.tame e
  leftovers : ∀ pc depth, D.tame (.machine pc (.stackNotEmpty depth))

instance [D.Lawful] : D.Basic where
  step call _ _ _ _ _ _ basic ready holds run := by
    have complete : call.Complete := by cases call <;> trivial
    obtain ⟨given, gave, holds'⟩ := Discipline.Lawful.perform call ready complete holds run
    exact ⟨given, gave, Discipline.Lawful.forget _ _ holds'⟩
  stops call _ _ _ _ _ _ _ ready holds failed := Discipline.Lawful.fails call ready holds failed
  plain := Discipline.Lawful.plain
  slack := Discipline.Lawful.slack

section Keeping

variable {holds : Context → Buffer → Multiset JumpSite → Landmarks → Prop}

def Discipline.keeping (holds : Context → Buffer → Multiset JumpSite → Landmarks → Prop) : Discipline :=
  ⟨holds, fun _ => True, False, fun _ => True, False⟩

theorem Call.gives_keeping {ctx : Context} {answer : α} (run : call.perform ctx b = .ok answer b')
    (marks : Landmarks) : call.Gives (.keeping holds) marks answer (call.answers answer) := by
  cases call with
  | branch jump | merge chain other => exact ⟨rfl, fun _ _ => trivial⟩
  | jsr => exact ⟨⟨rfl, fun _ _ => trivial⟩, False.elim⟩
  | position | entryPoint | entryPointWith state pushed => exact ⟨rfl, False.elim⟩
  | newLocal type debug => exact ⟨rfl, Asm.newLocal_room run⟩
  | _ => exact rfl

theorem Discipline.lawful_keeping
    (perform : ∀ {α : Type} (call : Call α) {ctx b b' answer rest marks},
      call.Ready (.keeping holds) marks b → holds ctx b (call.sites + rest) marks →
      call.perform ctx b = .ok answer b' →
      holds ctx b' (call.answers answer + rest) (call.marks marks answer))
    (forget : ∀ {ctx b sites marks} (places floors),
      holds ctx b sites ⟨places ++ marks.places, floors ++ marks.floors⟩ → holds ctx b sites marks)
    (undefines : ∀ {ctx b rest marks} (chain : Chain) (register),
      holds ctx b (chain.sites + rest) marks →
      holds ctx b ((chain.undefineFrom register).sites + rest) marks)
    (loses : ∀ {ctx b rest marks} (sites), holds ctx b (sites + rest) marks →
      holds ctx b rest marks) : (keeping holds).Lawful where
  perform call _ _ _ _ _ marks ready _ before run :=
    ⟨_, call.gives_keeping run marks, perform call ready before run⟩
  fails _ _ _ _ _ _ _ _ _ _ := trivial
  forget := forget
  looks _ := trivial
  inside := False.elim
  undefines := undefines
  undefined _ _ := trivial
  loses _ := loses
  plain _ := trivial
  slack _ _ := trivial
  leftovers _ _ := trivial

end Keeping

namespace Asm

/-- From the buffer on, the action uses up the jumps that it is given and gives those in its answer. -/
structure ObeysAt (D : Discipline) (ctx : Context) (b : Buffer) (marks : Landmarks)
    (owned : Multiset JumpSite) (action : Asm α) (gives : α → Multiset JumpSite → Prop) : Prop where
  ok : ∀ ⦃b' x⦄, action ctx b = .ok x b' → ∀ ⦃rest⦄, D.holds ctx b (owned + rest) marks →
    ∃ given, gives x given ∧ D.holds ctx b' (given + rest) marks
  tame : ∀ ⦃e b'⦄, action ctx b = .error e b' → ∀ ⦃rest⦄, D.holds ctx b (owned + rest) marks →
    D.tame e

def Obeys (D : Discipline) (owned : Multiset JumpSite) (action : Asm α)
    (gives : α → Multiset JumpSite → Prop) : Prop :=
  ∀ ctx b marks, ObeysAt D ctx b marks owned action gives

abbrev Spends (D : Discipline) (owned : Multiset JumpSite) (action : Asm α) : Prop :=
  Obeys D owned action fun _ given => given = 0

variable {ctx : Context} {b : Buffer} {marks : Landmarks} {owned k total : Multiset JumpSite}
  {gives fewer : α → Multiset JumpSite → Prop} {last : β → Multiset JumpSite → Prop} {x : Asm α}
  {f : α → Asm β}

theorem ObeysAt.imp (obeys : ObeysAt D ctx b marks owned x gives)
    (more : ∀ a given, gives a given → fewer a given) : ObeysAt D ctx b marks owned x fewer where
  ok b' a run rest holds := by
    obtain ⟨given, known, holds'⟩ := obeys.ok run holds
    exact ⟨given, more a given known, holds'⟩
  tame := obeys.tame

theorem obeysAt_pure {a : α} (known : gives a owned) :
    ObeysAt D ctx b marks owned (pure a) gives where
  ok b' y run rest holds := by
    obtain ⟨rfl, rfl⟩ := pure_ok.mp run
    exact ⟨owned, known, holds⟩
  tame e b' failed := by cases failed

/-- One action after another; the second is given what the first gives and what it leaves alone. -/
theorem ObeysAt.bind (first : ObeysAt D ctx b marks owned x gives)
    (second : ∀ a b' given, x ctx b = .ok a b' → gives a given →
      ObeysAt D ctx b' marks (given + k) (f a) last)
    (split : owned + k = total) : ObeysAt D ctx b marks total (x >>= f) last where
  ok b'' y run rest holds := by
    obtain ⟨a, b', ran, run⟩ := bind_ok.mp run
    rw [← split, add_assoc] at holds
    obtain ⟨given, known, holds'⟩ := first.ok ran holds
    rw [← add_assoc] at holds'
    exact (second a b' given ran known).ok run holds'
  tame e b'' failed rest holds := by
    rw [← split, add_assoc] at holds
    rcases bind_error.mp failed with early | ⟨a, b', ran, late⟩
    · exact first.tame early holds
    · obtain ⟨given, known, holds'⟩ := first.ok ran holds
      rw [← add_assoc] at holds'
      exact (second a b' given ran known).tame late holds'

theorem Obeys.imp (obeys : Obeys D owned x gives)
    (more : ∀ a given, gives a given → fewer a given) : Obeys D owned x fewer :=
  fun ctx b marks => (obeys ctx b marks).imp more

theorem obeys_pure {a : α} (known : gives a owned) : Obeys D owned (pure a) gives :=
  fun _ _ _ => obeysAt_pure known

theorem Obeys.bind (first : Obeys D owned x gives)
    (second : ∀ a given, gives a given → Obeys D (given + k) (f a) last)
    (split : owned + k = total) : Obeys D total (x >>= f) last :=
  fun ctx b marks => (first ctx b marks).bind
    (fun a b' given _ known => second a given known ctx b' marks) split

theorem Spends.andThen (first : Spends D owned x) (second : ∀ a, Obeys D k (f a) last) :
    Obeys D (owned + k) (x >>= f) last := by
  refine Obeys.bind first (fun a given none => ?_) rfl
  rw [none, zero_add]
  exact second a

theorem Spends.before (first : Spends D owned x) (second : ∀ a, Obeys D 0 (f a) last) :
    Obeys D owned (x >>= f) last :=
  add_zero owned ▸ first.andThen second

theorem Spends.next (first : Spends D 0 x) (second : ∀ a, Obeys D owned (f a) last) :
    Obeys D owned (x >>= f) last := by
  refine Obeys.bind first (fun a given none => ?_) (zero_add owned)
  rw [none, zero_add]
  exact second a

theorem map_error {g : α → β} : (g <$> x) ctx b = .error e b' ↔ x ctx b = .error e b' := by
  change EStateM.map g (x ctx) b = _ ↔ _
  unfold EStateM.map
  cases x ctx b <;> simp

theorem Spends.discard (spends : Spends D owned x) : Spends D owned (discard x) := by
  intro ctx b marks
  refine ⟨fun b' y run rest holds => ?_, fun e b' failed => ?_⟩
  · obtain ⟨a, ran⟩ := discard_ok.mp run
    exact (spends ctx b marks).ok ran holds
  · exact (spends ctx b marks).tame (map_error.mp failed)

theorem spends_length : Spends D 0 length := by
  intro ctx b marks
  refine ⟨fun b' y run rest holds => ?_, fun e b' failed => ?_⟩
  · obtain ⟨_, rfl⟩ := length_ok.mp run
    exact ⟨0, rfl, holds⟩
  · cases failed

section Basic

variable [D.Basic]

theorem obeysAt_throw (plain : e.IsPlain) :
    ObeysAt D ctx b marks owned (throw e : Asm α) gives where
  ok _ _ run := (throw_ok.mp run).elim
  tame e' b' failed rest holds := by
    cases failed
    exact Discipline.Basic.plain plain

theorem obeys_throw (plain : e.IsPlain) : Obeys D owned (throw e : Asm α) gives :=
  fun _ _ _ => obeysAt_throw plain

theorem obeys_basic (call : Call α) (basic : call.IsBasic) (ready : ∀ b marks, call.Ready D marks b)
    (more : ∀ marks a given, call.Gives D marks a given → gives a given) :
    Obeys D call.sites call.perform gives := by
  refine fun ctx b marks => ⟨fun b' a run rest holds => ?_, fun e b' failed rest holds =>
    Discipline.Basic.stops call basic (ready b marks) holds failed⟩
  obtain ⟨given, gave, holds'⟩ := Discipline.Basic.step call basic (ready b marks) holds run
  exact ⟨given, more marks a given gave, holds'⟩

theorem spends_emitted (instruction : Instruction) (roomy : D.rooms → instruction.Roomy) :
    Spends D 0 (emit instruction) :=
  obeys_basic (.emit instruction) trivial (fun _ _ => roomy) fun _ _ _ => id

theorem spends_emit (instruction : Instruction) (roomy : instruction.Roomy) :
    Spends D 0 (emit instruction) :=
  spends_emitted instruction fun _ => roomy

theorem obeys_branch (jump : Jump) : Obeys D 0 (branch jump) (Chain.Given D) :=
  obeys_basic (.branch jump) trivial (fun _ _ => trivial) fun _ _ _ => id

theorem obeys_mergeChains {chain other : Chain} (fits : chain.Fits D)
    (more : other.Fits D) : Obeys D (chain.sites + other.sites)
      (mergeChains chain other) (Chain.Given D) :=
  obeys_basic (.merge chain other) trivial (fun _ _ => ⟨fits, more⟩) fun _ _ _ => id

theorem spends_resolve {chain : Chain} (fits : chain.Fits D) :
    Spends D chain.sites (resolve chain) :=
  obeys_basic (.resolve chain) trivial (fun _ _ => fits) fun _ _ _ => id

theorem spends_emitAll {instructions : List Instruction}
    (roomy : ∀ instruction ∈ instructions, instruction.Roomy) :
    Spends D 0 (emitAll instructions) := by
  induction instructions with
  | nil => exact obeys_pure rfl
  | cons instruction rest ih =>
    refine (spends_emit instruction (roomy instruction (.head _))).next fun _ => ?_
    exact ih fun other member => roomy other (.tail _ member)

end Basic

variable [D.Lawful]

theorem ObeysAt.looking (obeys : D.fits b.state → ObeysAt D ctx b marks owned x gives) :
    ObeysAt D ctx b marks owned x gives where
  ok _ _ run _ holds := (obeys (Discipline.Lawful.looks holds)).ok run holds
  tame _ _ failed _ holds := (obeys (Discipline.Lawful.looks holds)).tame failed holds

theorem ObeysAt.afterCall (call : Call α) (complete : call.Complete) (ready : call.Ready D marks b)
    (second : ∀ a b' given, call.perform ctx b = .ok a b' → call.Gives D marks a given →
      ObeysAt D ctx b' (call.marks marks a) (given + k) (f a) last)
    (split : call.sites + k = total) : ObeysAt D ctx b marks total (call.perform >>= f) last where
  ok b'' y run rest holds := by
    obtain ⟨a, b', ran, run⟩ := bind_ok.mp run
    rw [← split, add_assoc] at holds
    obtain ⟨given, gave, holds'⟩ := Discipline.Lawful.perform call ready complete holds ran
    rw [← add_assoc] at holds'
    obtain ⟨own, known, holds''⟩ := (second a b' given ran gave).ok run holds'
    exact ⟨own, known, Discipline.Lawful.forget _ _ holds''⟩
  tame e b'' failed rest holds := by
    rw [← split, add_assoc] at holds
    rcases bind_error.mp failed with early | ⟨a, b', ran, late⟩
    · exact Discipline.Lawful.fails call ready holds early
    · obtain ⟨given, gave, holds'⟩ := Discipline.Lawful.perform call ready complete holds ran
      rw [← add_assoc] at holds'
      exact (second a b' given ran gave).tame late holds'

theorem obeysAt_call (call : Call α) (complete : call.Complete) (ready : call.Ready D marks b) :
    ObeysAt D ctx b marks call.sites call.perform (call.Gives D marks) where
  ok b' answer run rest holds := by
    obtain ⟨given, gave, holds'⟩ := Discipline.Lawful.perform call ready complete holds run
    exact ⟨given, gave, Discipline.Lawful.forget _ _ holds'⟩
  tame e b' failed rest holds := Discipline.Lawful.fails call ready holds failed

theorem obeys_call (call : Call α) (complete : call.Complete)
    (ready : ∀ b marks, call.Ready D marks b)
    (more : ∀ marks a given, call.Gives D marks a given → gives a given) :
    Obeys D call.sites call.perform gives :=
  fun _ b marks => (obeysAt_call call complete (ready b marks)).imp (more marks)

theorem spends_position : Spends D 0 position :=
  obeys_call .position trivial (fun _ _ => trivial) fun _ _ _ known => known.1

theorem spends_entryPointWith {state : State} (pushed : Option VType) (fits : D.fits state) :
    Spends D 0 (entryPointWith state pushed) :=
  obeys_call (.entryPointWith state pushed) trivial (fun _ _ => fits) fun _ _ _ known => known.1

theorem obeys_newLocal (type : VType) (debug : Option LocalDebug) :
    Obeys D 0 (newLocal type debug) fun register given =>
      given = 0 ∧ register.toNat + type.width ≤ maxLocalCount :=
  obeys_call (.newLocal type debug) trivial (fun _ _ => trivial) fun _ _ _ => id

theorem spends_setDefined (register : UInt16) : Spends D 0 (setDefined register) :=
  obeys_call (.setDefined register) trivial (fun _ _ => trivial) fun _ _ _ => id

theorem spends_endScopes (first : UInt16) : Spends D 0 (endScopes first) :=
  obeys_call (.endScopes first) trivial (fun _ _ => trivial) fun _ _ _ => id

theorem ObeysAt.without {sites : Multiset JumpSite} (light : D.exact → sites = 0)
    (obeys : ObeysAt D ctx b marks owned x gives) :
    ObeysAt D ctx b marks (sites + owned) x gives := by
  have less {rest} (holds : D.holds ctx b (sites + owned + rest) marks) :
      D.holds ctx b (owned + rest) marks := by
    rw [add_assoc] at holds
    by_cases exact : D.exact
    · rwa [light exact, zero_add] at holds
    · exact Discipline.Lawful.loses exact sites holds
  exact ⟨fun b' a run rest holds => obeys.ok run (less holds),
    fun e b' failed rest holds => obeys.tame failed (less holds)⟩

end Asm

end ClassForge
