import ClassForge.Proofs.Discipline

namespace ClassForge

variable {D : Discipline} {α : Type} {condition : Condition}

theorem Literal.roomy_loadInstruction (value : Literal) : value.loadInstruction.Roomy := by
  unfold loadInstruction
  split
  · split
    · trivial
    · split
      · trivial
      · split <;> trivial
  · split
    · trivial
    · split <;> trivial
  · split
    · trivial
    · split
      · trivial
      · split <;> trivial
  · split
    · trivial
    · split <;> trivial
  · trivial

theorem Instruction.roomy_conversions (source target : TypeCode) :
    ∀ instruction ∈ conversions source target, instruction.Roomy := by
  intro instruction member
  unfold conversions at member
  rcases List.mem_append.mp member with convert | narrow
  · rw [Option.mem_toList] at convert
    simp only [Option.bind_eq_bind, Option.bind_eq_some_iff, Option.pure_def,
      Option.some.injEq] at convert
    obtain ⟨_, _, _, _, _, _, rfl⟩ := convert
    trivial
  · rw [Option.mem_toList, Option.map_eq_some_iff] at narrow
    obtain ⟨_, _, rfl⟩ := narrow
    trivial

namespace Condition

open Asm

def sites (condition : Condition) : Multiset JumpSite :=
  condition.trueJumps.sites + condition.falseJumps.sites

/-- The jumps of the condition are taken in fitting states. -/
structure Fits (D : Discipline) (condition : Condition) : Prop where
  yes : condition.trueJumps.Fits D
  no : condition.falseJumps.Fits D

def Given (D : Discipline) (condition : Condition) (given : Multiset JumpSite) : Prop :=
  given = condition.sites ∧ condition.Fits D

theorem given_ofJump (jump : Jump) : (ofJump jump).Given D 0 :=
  ⟨rfl, Chain.fits_nil, Chain.fits_nil⟩

theorem Given.negate {given : Multiset JumpSite} (known : condition.Given D given) :
    condition.negate.Given D given := by
  obtain ⟨rfl, yes, no⟩ := known
  exact ⟨add_comm _ _, no, yes⟩

theorem trueJumps_of_isFalse (never : condition.isFalse = true) : condition.trueJumps = [] :=
  List.isEmpty_iff.mp (Bool.and_eq_true_iff.mp never).1

theorem falseJumps_of_isTrue (always : condition.isTrue = true) : condition.falseJumps = [] :=
  List.isEmpty_iff.mp (Bool.and_eq_true_iff.mp always).1

variable [D.Basic] {condition : Condition}

theorem Fits.jumpTrue (fits : condition.Fits D) :
    Obeys D condition.trueJumps.sites condition.jumpTrue (Chain.Given D) := by
  refine (obeys_branch condition.jump).bind (fun chain given known => ?_) (zero_add _)
  obtain ⟨rfl, more⟩ := known
  rw [add_comm]
  exact obeys_mergeChains fits.yes more

theorem Fits.jumpFalse (fits : condition.Fits D) :
    Obeys D condition.falseJumps.sites condition.jumpFalse (Chain.Given D) := by
  refine (obeys_branch condition.jump.negate).bind (fun chain given known => ?_) (zero_add _)
  obtain ⟨rfl, more⟩ := known
  rw [add_comm]
  exact obeys_mergeChains fits.no more

end Condition

namespace Item

open Asm

def sites : Item → Multiset JumpSite
  | .cond condition => condition.sites
  | _ => 0

/-- The jumps of the item are taken in fitting states, and there is room for what is stored to it. -/
def Fits (D : Discipline) : Item → Prop
  | .cond condition => condition.Fits D
  | .localVar code register => D.rooms → code.kind.Room register
  | .assign target => target.Fits D
  | _ => True

def Held (D : Discipline) (item : Item) (given : Multiset JumpSite) : Prop :=
  given = item.sites ∧ item.Fits D

/-- The item holds no jumps. -/
structure Bare (D : Discipline) (item : Item) (given : Multiset JumpSite) : Prop where
  none : given = 0
  sites : item.sites = 0
  fits : item.Fits D

def IsTarget : Item → Prop
  | .localVar _ _ | .static _ | .member _ _ | .indexed _ => True
  | _ => False

def IsUseless : Item → Prop
  | .assign target => ¬target.IsTarget
  | _ => False

theorem IsTarget.sites_eq {item : Item} (target : item.IsTarget) : item.sites = 0 := by
  cases item with
  | cond condition => exact target.elim
  | _ => rfl

variable {item : Item} {owned : Multiset JumpSite} {x : Asm α} {gives : α → Multiset JumpSite → Prop}

theorem fails_misuse {α : Type} (use : ItemUse) (item : Item) : Fails (misuse use item : Asm α) :=
  answers_bind fun _ => fails_throw

theorem fails_store (bad : ¬item.IsTarget) : Fails item.store := by
  cases item with
  | localVar | static | member | indexed => exact absurd trivial bad
  | _ => exact fails_misuse _ _

theorem fails_load (useless : item.IsUseless) : Fails item.load := by
  cases item with
  | assign target => exact answers_bind fun _ => (fails_store useless).bind
  | _ => exact useless.elim

theorem fails_drop (useless : item.IsUseless) : Fails item.drop := by
  cases item with
  | assign target => exact fails_store useless
  | _ => exact useless.elim

theorem coerce_useless (code : TypeCode) (useless : item.IsUseless) :
    Answers (item.coerce code) IsUseless := by
  cases item with
  | assign target =>
    unfold coerce
    split
    · exact answers_pure useless
    · exact (fails_load useless).discard.bind
  | _ => exact useless.elim

theorem fails_toCondition (useless : item.IsUseless) : Fails item.toCondition := by
  cases item with
  | assign target => exact (fails_load useless).discard.bind
  | _ => exact useless.elim

theorem Bare.held (bare : item.Bare D owned) : item.Held D owned :=
  ⟨bare.none.trans bare.sites.symm, bare.fits⟩

theorem bare_ofStack (code : TypeCode) : (ofStack code).Bare D 0 := by
  unfold ofStack
  split
  · exact ⟨rfl, rfl, trivial⟩
  · exact ⟨rfl, rfl, trivial⟩

variable [D.Basic]

theorem obeys_condition (fits : condition.Fits D) :
    Obeys D condition.sites condition.load (Bare D) := by
  refine fits.jumpFalse.bind (fun failed given known => ?_) (add_comm _ _)
  obtain ⟨rfl, failing⟩ := known
  have finish (done : Chain) (fits : done.Fits D) : Obeys D done.sites
      (do resolve done; return .stack .byte : Asm Item) (Bare D) :=
    (spends_resolve fits).before fun _ => obeys_pure ⟨rfl, rfl, trivial⟩
  have rest (done : Chain) (fits : done.Fits D) :
      Obeys D (failed.sites + done.sites) (do
        if !failed.isEmpty then
          resolve failed
          emit (.pushInt 1)
        resolve done
        return .stack .byte : Asm Item) (Bare D) := by
    dsimp only
    split
    · exact (spends_resolve failing).andThen fun _ => (spends_emit _ (by trivial)).next fun _ =>
        finish done fits
    · next empty =>
      have none : failed = [] := by simpa using empty
      rw [none, Chain.sites_nil, zero_add]
      exact finish done fits
  dsimp only
  split
  · next never =>
    rw [Condition.trueJumps_of_isFalse never, Chain.sites_nil]
    have none : Obeys D 0 (pure [] : Asm Chain) fun done given =>
        done = [] ∧ given = 0 := obeys_pure ⟨rfl, rfl⟩
    refine none.bind (fun done given same => ?_) (zero_add _)
    obtain ⟨rfl, rfl⟩ := same
    rw [zero_add]
    exact rest [] Chain.fits_nil
  · rw [add_comm]
    refine (spends_resolve fits.yes).andThen fun _ => (spends_emit _ (by trivial)).next fun _ => ?_
    refine (obeys_branch .goto).bind (fun done given known => ?_) (zero_add _)
    obtain ⟨rfl, more⟩ := known
    rw [add_comm]
    exact rest done more

theorem obeys_misuse (use : ItemUse) (item : Item) : Obeys D owned (misuse use item) gives :=
  spends_length.next fun _ => obeys_throw trivial

theorem spends_stash (code : TypeCode) (item : Item) : Spends D 0 (item.stash code) := by
  unfold stash
  split
  · exact spends_emit _ trivial
  · exact spends_emit _ trivial
  · exact obeys_misuse _ _
  · exact obeys_misuse _ _
  · exact obeys_misuse _ _
  · exact spends_emit _ trivial

theorem spends_store (fits : item.Fits D) : Spends D 0 item.store := by
  unfold store
  split
  · exact spends_emitted _ fits
  · exact spends_emit _ trivial
  · exact spends_emit _ trivial
  · exact spends_emit _ trivial
  · exact obeys_misuse _ _

/-- Loading an item uses up its jumps, and a value is on the stack. -/
theorem Held.load (held : item.Held D owned) : Obeys D owned item.load (Bare D) := by
  obtain ⟨rfl, fits⟩ := held
  have emitted {instruction : Instruction} (roomy : instruction.Roomy) :
      Obeys D 0 (do emit instruction; return ofStack item.typeCode : Asm Item)
        (Bare D) :=
    (spends_emit instruction roomy).next fun _ => obeys_pure (bare_ofStack _)
  cases item with
  | cond condition => exact obeys_condition fits
  | assign target =>
    have stored : Spends D 0 target.store := spends_store fits
    exact (spends_stash _ target).next fun _ => stored.next fun _ => obeys_pure (bare_ofStack _)
  | stack code => exact obeys_pure ⟨rfl, rfl, trivial⟩
  | localVar code register | self | super | indexed code => exact emitted trivial
  | static ref | member ref nonvirtual =>
    cases ref with
    | field ref => exact emitted trivial
    | method ref => exact obeys_misuse _ _
  | immediate value code => exact emitted value.roomy_loadInstruction
  | void => exact obeys_misuse _ _

theorem Held.spends_load (held : item.Held D owned) : Spends D owned item.load :=
  held.load.imp fun _ _ bare => bare.none

theorem spends_duplicateOperands (item : Item) : Spends D 0 item.duplicateOperands := by
  unfold duplicateOperands
  split
  · exact spends_emit _ trivial
  · exact spends_emit _ trivial
  · exact spends_emit _ trivial
  · exact obeys_pure rfl

theorem spends_dropOperands (item : Item) : Spends D 0 item.dropOperands := by
  unfold dropOperands
  split
  · split
    · exact obeys_pure rfl
    · exact spends_emit _ trivial
  · exact spends_emit _ trivial
  · exact spends_emit _ trivial
  · exact obeys_pure rfl

theorem Held.drop (held : item.Held D owned) : Spends D owned item.drop := by
  have dropped : Spends D owned (do (← item.load).dropOperands : Asm Unit) :=
    held.spends_load.before spends_dropOperands
  obtain ⟨rfl, fits⟩ := held
  have plain : Spends D 0 item.dropOperands := spends_dropOperands item
  cases item with
  | assign target =>
    have stored : Spends D 0 target.store := spends_store fits
    exact stored
  | cond condition => exact dropped
  | _ => exact plain

theorem Held.coerced (code : TypeCode) (held : item.Held D owned)
    {gives : Item → Multiset JumpSite → Prop} (same : gives item owned)
    (bare : ∀ result given, result.Bare D given → gives result given) :
    Obeys D owned (item.coerce code) gives := by
  have loaded : Obeys D owned (do
      discard item.load
      emitAll (Instruction.conversions item.typeCode code)
      return ofStack code : Asm Item) gives :=
    held.spends_load.discard.before fun _ =>
      (spends_emitAll (Instruction.roomy_conversions item.typeCode code)).next fun _ =>
        obeys_pure (bare _ _ (bare_ofStack code))
  unfold coerce
  split
  · exact obeys_pure same
  · dsimp only
    split
    · next value folded =>
      have none : owned = 0 := by
        obtain ⟨rfl, _⟩ := held
        cases item with
        | cond condition => cases folded
        | _ => rfl
      subst none
      exact obeys_pure (bare _ _ ⟨rfl, rfl, trivial⟩)
    · exact loaded

theorem Held.coerce (code : TypeCode) (held : item.Held D owned) :
    Obeys D owned (item.coerce code) (Held D) :=
  held.coerced code held fun _ _ => Bare.held

theorem Held.toCondition (held : item.Held D owned) :
    Obeys D owned item.toCondition (Condition.Given D) := by
  have tested : Obeys D owned (do
      discard item.load
      return .ofJump (.ifZero .ne) : Asm Condition) (Condition.Given D) :=
    held.spends_load.discard.before fun _ => obeys_pure (Condition.given_ofJump _)
  unfold Item.toCondition
  split
  · exact obeys_pure held
  · obtain ⟨rfl, _⟩ := held
    exact obeys_pure (Condition.given_ofJump _)
  · exact tested

omit [D.Basic] in
theorem IsTarget.held (target : item.IsTarget) (fits : item.Fits D) : item.Held D 0 :=
  ⟨target.sites_eq.symm, fits⟩

theorem IsTarget.duplicate (target : item.IsTarget) : Spends D 0 item.duplicate := by
  cases item with
  | localVar code register => exact spends_duplicateOperands (.localVar code register)
  | static ref => exact spends_duplicateOperands (.static ref)
  | member ref nonvirtual => exact spends_duplicateOperands (.member ref nonvirtual)
  | indexed code => exact spends_duplicateOperands (.indexed code)
  | _ => exact target.elim

theorem spends_increment (delta : Int32) (fits : item.Fits D) :
    Spends D 0 (item.increment delta) := by
  unfold increment
  split
  · next code register =>
    have loaded : Spends D 0 (Item.localVar code register).load :=
      Held.spends_load ⟨rfl, fits⟩
    have stored : Spends D 0 (do
        discard ((Item.stack .int).coerce code)
        (Item.localVar code register).store : Asm Unit) := by
      have plain : (Item.stack .int).Held D 0 := ⟨rfl, trivial⟩
      have converted : Spends D 0 ((Item.stack .int).coerce code) :=
        plain.coerced code rfl fun _ _ bare => bare.none
      exact converted.discard.next fun _ => spends_store fits
    split
    · exact spends_emit _ trivial
    · refine loaded.discard.next fun _ => ?_
      split
      · exact (spends_emit _ (Literal.roomy_loadInstruction _)).next fun _ =>
          (spends_emit _ (by trivial)).next fun _ => stored
      · exact (spends_emit _ (Literal.roomy_loadInstruction _)).next fun _ =>
          (spends_emit _ (by trivial)).next fun _ => stored
  · exact obeys_misuse _ _

theorem obeys_invoke (item : Item) : Obeys D 0 item.invoke (Bare D) := by
  unfold invoke
  split
  · exact (spends_emit _ (by trivial)).next fun _ => obeys_pure (bare_ofStack _)
  · exact (spends_emit _ (by trivial)).next fun _ => obeys_pure (bare_ofStack _)
  · exact Spends.next (obeys_misuse _ _) fun _ => obeys_pure (bare_ofStack _)

end Item

end ClassForge
