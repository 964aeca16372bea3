import ClassForge.Proofs.Expressions

namespace ClassForge

open Asm

def Condition.pcs (condition : Condition) : Multiset Nat :=
  condition.trueJumps.pcs + condition.falseJumps.pcs

namespace Discipline

def idle : Discipline := .keeping fun _ _ _ _ => True

/-- The jumps are owned, in a session that has gone on from the given one without gaps. -/
def owning (s : Session) (σ : MethodState) : Discipline :=
  .keeping fun ctx b sites _ => ∃ s', s.Steady s' ∧ Lowering.Holds ctx s' σ b (sites.map JumpSite.pc)

instance : idle.Lawful :=
  lawful_keeping (fun _ _ _ _ _ _ _ _ _ _ => trivial) (fun _ _ _ => trivial) (fun _ _ _ => trivial)
    fun _ _ => trivial

end Discipline

theorem Call.IsBasic.keeps {α : Type} {call : Call α} (basic : call.IsBasic) :
    Asm.Keeps call.takes call.perform call.gives := by
  cases call with
  | emit instruction => exact keeps_emit instruction
  | branch jump => exact keeps_branch jump
  | merge chain other => exact keeps_mergeChains chain other
  | resolve chain => exact keeps_resolve chain
  | note change =>
    cases change with
    | force type => exact keeps_note (.force type) fun _ => trivial
    | _ => exact basic.elim
  | _ => exact basic.elim

instance (s : Session) (σ : MethodState) : (Discipline.owning s σ).Basic where
  step call ctx b b' answer rest marks basic _ holds run := by
    obtain ⟨s', steady, holds⟩ := holds
    rw [Multiset.map_add, Call.map_sites] at holds
    obtain ⟨s'', more, holds'⟩ := holds.asm basic.keeps run
    refine ⟨_, call.gives_keeping run marks, s'', steady.trans more, ?_⟩
    rwa [Multiset.map_add, Call.map_answers]
  stops _ _ _ _ _ _ _ _ _ _ _ := trivial
  plain _ := trivial
  slack _ _ := trivial

theorem Item.fits_keeping {holds : Context → Buffer → Multiset JumpSite → Landmarks → Prop} :
    ∀ item : Item, item.Fits (.keeping holds)
  | .cond _ => ⟨fun _ _ => trivial, fun _ _ => trivial⟩
  | .localVar _ _ => False.elim
  | .assign target => target.fits_keeping
  | .stack _ | .self | .super | .static _ | .member _ _ | .indexed _ | .immediate _ _ | .void =>
    trivial

namespace Lowering

variable {α : Type} {how : Change} [how.Lawful] {owned : Multiset JumpSite} {x : Lowering α}

abbrev IsHandy (value : Lowering Item) : Prop :=
  ∀ (D : Discipline) [D.Basic], ¬D.exact → Hands D value

theorem keeps_of_obeys {gives : Session → MethodState → α → Multiset JumpSite → Prop}
    {given : α → Multiset Nat} {pcs : Multiset Nat}
    (obeys : ∀ s σ, Obeys (.owning s σ) owned x (gives s σ)) (same : owned.map JumpSite.pc = pcs)
    (less : ∀ {s σ a sites}, gives s σ a sites → given a ≤ sites.map JumpSite.pc) :
    Keeps how pcs x given := by
  subst same
  intro mc ctx σ σ' b b' y run s rest _ holds known
  cases known
  -- What the rest of the code owns are positions, for which any jump there will do.
  have others : (rest.map fun pc => (⟨pc, .empty⟩ : JumpSite)).map JumpSite.pc = rest := by simp
  rw [← others, ← Multiset.map_add] at holds
  obtain ⟨sites, ⟨rfl, gave⟩, s', steady, holds'⟩ :=
    (obeys s σ mc σ nofun ctx b ⟨[], []⟩).ok run ⟨s, .refl s, holds⟩
  rw [Multiset.map_add, others] at holds'
  exact ⟨s', Change.Lawful.still steady rfl, holds'.mono (add_le_add_left (less gave) _)⟩

theorem keeps_of_spends (spends : ∀ s σ, Spends (.owning s σ) 0 x) : Keeps how 0 x fun _ => 0 :=
  keeps_of_obeys spends rfl fun _ => Multiset.zero_le _

theorem answers_of_obeys {gives : α → Multiset JumpSite → Prop} (obeys : Obeys .idle 0 x gives) :
    Answers x fun a => ∃ given, gives a given := by
  intro mc ctx σ σ' b b' y run
  have idle : Discipline.idle.holds ctx b (0 + 0) ⟨[], []⟩ := trivial
  obtain ⟨given, ⟨_, gave⟩, _⟩ := (obeys mc σ nofun ctx b ⟨[], []⟩).ok run idle
  exact ⟨given, gave⟩

variable {value : Lowering Item} {item : Item}

/-- Lowering an expression resolves all of its jumps, except for those that its item holds. -/
theorem handy_genItem (e : Expr) : IsHandy (genItem e) :=
  fun _ _ loose => hands_genItem e fun exact => absurd exact loose

theorem keeps_loadAs (code : TypeCode) (given : IsHandy value) :
    Keeps how 0 (loadAs code value) fun _ => 0 :=
  keeps_of_obeys (fun s σ => obeys_loadAs code (given (.owning s σ) id)) rfl fun _ =>
    Multiset.zero_le _

theorem sites_loadAs (code : TypeCode) (given : IsHandy value) :
    Answers (loadAs code value) (·.sites = 0) :=
  fun _ _ _ _ _ _ _ run =>
    have ⟨_, bare⟩ := answers_of_obeys (obeys_loadAs code (given .idle id)) run
    bare.sites

theorem keeps_loaded (code : TypeCode) (given : IsHandy value) :
    Keeps how 0 (discard (loadAs code value)) fun _ => 0 :=
  (keeps_loadAs code given).discard

theorem held_owning (none : item.sites = 0) (s : Session) (σ : MethodState) :
    item.Held (.owning s σ) 0 :=
  ⟨none.symm, item.fits_keeping⟩

theorem keeps_load (none : item.sites = 0) :
    Keeps how 0 (liftM item.load : Lowering Item) fun _ => 0 :=
  keeps_of_spends fun s σ => lift_spends (held_owning none s σ).spends_load

theorem keeps_drop (none : item.sites = 0) :
    Keeps how 0 (liftM item.drop : Lowering Unit) fun _ => 0 :=
  keeps_of_spends fun s σ => lift_spends (held_owning none s σ).drop

theorem keeps_store (item : Item) : Keeps how 0 (liftM item.store : Lowering Unit) fun _ => 0 :=
  keeps_of_spends fun _ _ => lift_spends
    (Item.spends_store (item.fits_keeping))

theorem keeps_localItem (id : VarId) : Keeps how 0 (localItem id) fun _ => 0 :=
  keeps_of_obeys (fun _ _ => obeys_localItem id) rfl fun _ => Multiset.zero_le _

theorem fits_owning (condition : Condition) (s : Session) (σ : MethodState) :
    condition.Fits (.owning s σ) :=
  Item.fits_keeping (.cond condition)

theorem keeps_jumpTrue (condition : Condition) :
    Keeps how condition.trueJumps.pcs (liftM condition.jumpTrue : Lowering Chain) Chain.pcs :=
  keeps_of_obeys (fun s σ => lift_obeys (fits_owning condition s σ).jumpTrue) rfl fun known =>
    known.1 ▸ le_rfl

theorem keeps_jumpFalse (condition : Condition) :
    Keeps how condition.falseJumps.pcs (liftM condition.jumpFalse : Lowering Chain) Chain.pcs :=
  keeps_of_obeys (fun s σ => lift_obeys (fits_owning condition s σ).jumpFalse) rfl fun known =>
    known.1 ▸ le_rfl

theorem keeps_genCond (e : Expr) : Keeps how 0 (genCond e) Condition.pcs := by
  refine keeps_of_obeys (fun s σ => obeys_genCond e (D := .owning s σ) nofun) rfl fun known => ?_
  rw [known.1, Condition.sites, Multiset.map_add, Chain.map_sites, Chain.map_sites]
  exact le_rfl

theorem keeps_genEffect (e : Expr) : Keeps how 0 (genEffect e) fun _ => 0 :=
  keeps_of_spends fun _ _ => spends_genEffect e nofun

theorem keeps_thrown (given : IsHandy value) :
    Keeps how 0 (do discard (← value).load; Asm.emit .throwValue : Lowering Unit) fun _ => 0 :=
  keeps_of_spends fun s σ => spends_thrown (given (.owning s σ) id)

end Lowering

end ClassForge
