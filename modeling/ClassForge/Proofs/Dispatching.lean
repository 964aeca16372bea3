import ClassForge.Proofs.Guarding
import ClassForge.Proofs.Switches

namespace ClassForge

namespace Lowering

open SwitchLayout

variable {α β : Type} {e : Error} {labels : List Int32} {x : Lowering α} {f : α → Lowering β}
variable {D : Discipline} {ctx : Context} {b b' : Buffer} {marks : Landmarks} {mc : MethodContext}
  {σ σ' : MethodState} {scopes : List Scope} {floors : List Nat}
  {layout : SwitchLayout} {place : SwitchPlace}

theorem bind_error :
    (x >>= f) mc σ ctx b = .error e b' ↔ x mc σ ctx b = .error e b' ∨
      ∃ a between c, x mc σ ctx b = .ok (a, between) c ∧ f a mc between ctx c = .error e b' := by
  refine (Asm.bind_error (x := x mc σ) (f := fun found => f found.1 mc found.2)).trans ?_
  refine or_congr_right ⟨?_, ?_⟩
  · rintro ⟨⟨a, between⟩, c, run, failed⟩
    exact ⟨a, between, c, run, failed⟩
  · rintro ⟨a, between, c, run, failed⟩
    exact ⟨(a, between), c, run, failed⟩

theorem openSwitch_error (failed : openSwitch labels mc σ ctx b = .error e b') :
    Asm.placeSwitch (tableFor labels) (operandsFor labels) ctx b = .error e b' := by
  rw [openSwitch_eq, lift_bind] at failed
  rcases Asm.bind_error.mp failed with early | ⟨_, _, _, impossible⟩
  · exact early
  · cases impossible

section Cases

variable {S : List ScopeRecord → Prop} {state : State} {found : List (Int32 × Int32)}
  {cases : List SwitchCase}
variable [D.Lawful]

theorem spendsAt_putWord {pc : Nat} (value : Int32) (member : place ∈ marks.places)
    (slot : place.IsSlot pc) :
    SpendsAt D ctx b marks S S 0 (liftM (Asm.putWord pc value) : Lowering Unit) :=
  lift_at (Asm.obeysAt_call (.putWord pc value) trivial ⟨place, member, slot⟩)

theorem spends_switchOffset (pc : Nat) : Spends D 0 (switchOffset layout pc) := by
  unfold switchOffset
  split
  · exact obeys_pure rfl
  · exact obeys_throw trivial

theorem spendsAt_fillTable (offset : Int32) (fits : Fits layout place) (table : layout.table = true)
    (inside : ∀ label ∈ labels, (label.toInt - layout.low).toNat + 3 < place.count)
    (member : place ∈ marks.places) :
    SpendsAt D ctx b marks S S 0 (fillTable layout offset labels) := by
  induction labels generalizing b with
  | nil => exact obeysAt_pure rfl
  | cons label rest ih =>
    have slot := (fits.offset_slot table (inside label (.head _))).isSlot
    refine SpendsAt.next (spendsAt_putWord offset member slot) fun _ _ _ => ?_
    exact ih fun other listed => inside other (.tail _ listed)

theorem spendsAt_aimCase {case : SwitchCase} (offset : Int32) (fits : Fits layout place)
    (inside : layout.table = true → ∀ label ∈ case.labels,
      (label.toInt - layout.low).toNat + 3 < place.count) (member : place ∈ marks.places) :
    SpendsAt D ctx b marks S S 0 (aimCase layout case offset) := by
  have filled : SpendsAt D ctx b marks S S 0
      (if layout.table then fillTable layout offset case.labels else pure ()) := by
    split
    · next table => exact spendsAt_fillTable offset fits table (inside table) member
    · exact obeysAt_pure rfl
  refine filled.next fun _ _ _ => ?_
  split
  · exact spendsAt_putWord offset member fits.offset_base.isSlot
  · exact obeysAt_pure rfl

/-- Every case is entered in the state of the switch, and gives an offset for each of its labels. -/
theorem obeysAt_genCases (fits : Fits layout place) (entered : D.fits state)
    (inside : layout.table = true → ∀ case ∈ cases, ∀ label ∈ case.labels,
      (label.toInt - layout.low).toNat + 3 < place.count)
    (follows : ∀ case ∈ cases, Follows D scopes case.code) (member : place ∈ marks.places)
    (cover : marks.Cover floors) :
    ObeysAt D ctx b marks (Orderly D scopes floors) (Orderly D scopes floors) 0
      (genCases layout state found cases) fun answer given =>
        given = 0 ∧ answer.length = found.length + (cases.flatMap (·.labels)).length := by
  induction cases generalizing found b with
  | nil => exact obeysAt_pure ⟨rfl, by simp⟩
  | cons case rest ih =>
    rw [genCases_cons]
    refine SpendsAt.next (lift_at (Asm.spends_entryPointWith none entered ctx b marks))
      fun pc b1 _ => ?_
    refine SpendsAt.next (spends_switchOffset pc).at fun offset b2 _ => ?_
    refine SpendsAt.next (spendsAt_aimCase offset fits
      (fun table => inside table case (.head _)) member) fun _ b3 _ => ?_
    refine SpendsAt.next (follows case (.head _) ctx b3 marks floors cover) fun _ _ _ => ?_
    refine (ih (fun table other listed => inside table other (.tail _ listed))
      fun other listed => follows other (.tail _ listed)).imp
      fun answer given known => ⟨known.1, known.2.trans ?_⟩
    simp only [List.length_append, List.length_reverse, List.length_map, List.flatMap_cons]
    omega

theorem spendsAt_completeTable (offset : Int32) (first count : Nat) (fits : Fits layout place)
    (table : layout.table = true) (inside : first + count + 3 ≤ place.count)
    (member : place ∈ marks.places) :
    SpendsAt D ctx b marks S S 0 (completeTable layout offset first count) := by
  induction count generalizing first b with
  | zero => exact obeysAt_pure rfl
  | succ count ih =>
    refine ObeysAt.after_look (fun _ _ _ => rfl) ?_
    have slot := (fits.offset_slot table (i := first) (by omega)).isSlot
    dsimp only
    split
    · exact SpendsAt.next (spendsAt_putWord offset member slot) fun _ _ _ => ih _ (by omega)
    · exact ih _ (by omega)

theorem spendsAt_fillList {entries : List (Int32 × Int32)} (first : Nat) (fits : Fits layout place)
    (list : layout.table = false) (inside : 2 * (first + entries.length) + 2 ≤ place.count)
    (member : place ∈ marks.places) :
    SpendsAt D ctx b marks S S 0 (fillList layout first entries) := by
  induction entries generalizing first b with
  | nil => exact obeysAt_pure rfl
  | cons entry rest ih =>
    rw [List.length_cons] at inside
    obtain ⟨slot, _, offset⟩ := fits.pair list (i := first) (by omega)
    refine SpendsAt.next (spendsAt_putWord _ member slot) fun _ _ _ => ?_
    refine SpendsAt.next (spendsAt_putWord _ member offset.isSlot) fun _ _ _ => ih _ (by omega)

omit [D.Lawful] in
theorem entryPointWith_settled {pushed : Option VType} (none : b.pending = []) :
    Asm.entryPointWith state pushed ctx b ≠ .error e b' := by
  intro failed
  rcases Asm.bind_error.mp failed with early | ⟨_, _, _, late⟩
  · rcases Asm.bind_error.mp early with impossible | ⟨_, _, _, late⟩
    · rw [Asm.resolvePending_of_none none] at impossible
      cases impossible
    · cases late
  · cases late

omit [D.Lawful] in
theorem genCases_far {table : Bool} {operands : List Int32} {c : Buffer} (any : cases ≠ [])
    (placed : Asm.placeSwitch table operands ctx b = .ok (some place) b')
    (start : layout.start = place.start) (many : 536870912 ≤ operands.length)
    (failed : genCases layout state found cases mc σ ctx { b' with alive := false } = .error e c) :
    e.IsPlain := by
  cases cases with
  | nil => exact absurd rfl any
  | cons case rest =>
    have settled : b'.pending = [] := (placeSwitch_settled placed).1
    have none : ({ b' with alive := false } : Buffer).pending = [] := settled
    rcases bind_error.mp failed with early | ⟨pc, _, d, entered, late⟩
    · rcases Asm.bind_error.mp early with early | ⟨_, _, _, impossible⟩
      · exact (entryPointWith_settled none early).elim
      · cases impossible
    obtain ⟨rfl, ran⟩ := lift_ok.mp entered
    rcases bind_error.mp late with measured | ⟨_, _, _, measured, _⟩
    · unfold switchOffset at measured
      split at measured
      · cases measured
      · cases measured
        trivial
    · unfold switchOffset at measured
      split at measured
      · next near =>
        rw [start] at near
        have few := operands_few placed ran near
        omega
      · cases measured

theorem spendsAt_resolveExit {record : ScopeRecord} {scope : Scope} {floor : Nat}
    (register : UInt16) (fits : record.Fits D scope floor) (once : scope.isLoop = false)
    (uncalled : scope.isCalled = false) :
    SpendsAt D ctx b marks S S record.sites
      (liftM (Asm.resolve (record.exit.undefineFrom register)) : Lowering Unit) := by
  have split : record.sites = (record.next.sites + record.calls.sites) + (record.exit.sites + 0) := by
    unfold ScopeRecord.sites
    abel
  rw [split]
  refine ObeysAt.without (fun exact => ?_) (ObeysAt.undefining register ?_)
  · have next : record.next = [] := List.eq_nil_iff_forall_not_mem.mpr fun site member => by
      have accepts : scope.isLoop = true := (fits .next site member).2 exact
      rw [once] at accepts
      cases accepts
    have calls : record.calls = [] := List.eq_nil_iff_forall_not_mem.mpr fun site member => by
      have accepts := (fits .calls site member).2 exact
      rw [Outlet.Accepts, uncalled] at accepts
      cases accepts.1
    simp [next, calls]
  · rw [add_zero]
    refine Obeys.at (spends_resolve fun site member => ?_)
    obtain ⟨old, listed, rfl⟩ := List.mem_map.mp member
    exact Discipline.Lawful.undefined register (fits .exit old listed).1

theorem spendsAt_aimDefault (fits : Fits layout place) (entered : D.fits state)
    (member : place ∈ marks.places) : SpendsAt D ctx b marks S S 0 (aimDefault layout state) := by
  refine ObeysAt.after_look (fun _ _ _ => rfl) ?_
  split
  · refine SpendsAt.next (lift_at (Asm.spends_entryPointWith none entered ctx b marks)) fun pc _ _ => ?_
    refine SpendsAt.next (spends_switchOffset pc).at fun offset _ _ => ?_
    exact spendsAt_putWord offset member fits.offset_base.isSlot
  · exact obeysAt_pure rfl

theorem spendsAt_fillRest (fits : Fits layout place)
    (span : layout.table = true → layout.span + 3 ≤ place.count)
    (pairs : layout.table = false → 2 * found.length + 2 ≤ place.count)
    (member : place ∈ marks.places) : SpendsAt D ctx b marks S S 0 (fillRest layout found) := by
  unfold fillRest
  split
  · next table =>
    refine ObeysAt.after_look (fun _ _ _ => rfl) ?_
    refine spendsAt_completeTable _ 0 layout.span fits table ?_ member
    have := span table
    omega
  · next list =>
    refine spendsAt_fillList 0 fits (Bool.eq_false_iff.mpr list) ?_ member
    have := pairs (Bool.eq_false_iff.mpr list)
    rw [List.length_mergeSort, List.length_reverse]
    omega

theorem spendsAt_placed (limit : UInt16) (all : labels = cases.flatMap (·.labels))
    (placed : Asm.placeSwitch (tableFor labels) (operandsFor labels) ctx b' =
      .ok (some place) b) (follows : ∀ case ∈ cases, Follows D (.switch :: scopes) case.code)
    (member : place ∈ marks.places) (cover : marks.Cover floors) :
    StaysAt D ctx b marks scopes floors (dispatch limit cases (at_ labels place)) := by
  obtain ⟨fits, form, count⟩ := fits_placed placed
  obtain ⟨_, _, ends⟩ := placeSwitch_settled placed
  refine ObeysAt.after_look (fun _ _ _ => rfl) ?_
  refine ObeysAt.looking fun entered => ?_
  refine SpendsAt.next (lift_at (Asm.obeysAt_call (.note .markDead) trivial ⟨place, member, ends⟩))
    fun _ b1 _ => ?_
  have inside (table : (at_ labels place).table = true) (case : SwitchCase)
      (listed : case ∈ cases) (label : Int32) (found : label ∈ case.labels) :
      (label.toInt - (at_ labels place).low).toNat + 3 < place.count := by
    rw [count]
    refine label_inside ?_ (form.symm.trans table)
    rw [all]
    exact List.mem_flatMap.mpr ⟨case, listed, found⟩
  have inner : ObeysAt D ctx b1 marks (Fresh D scopes floors)
      (Orderly D (.switch :: scopes) (0 :: floors)) 0
      (genCases (at_ labels place) b.state [] cases) fun answer given =>
        given = 0 ∧ answer.length = 0 + (cases.flatMap (·.labels)).length := by
    have whole : ObeysAt D ctx b1 marks (Orderly D (.switch :: scopes) (0 :: floors))
        (Orderly D (.switch :: scopes) (0 :: floors)) 0
        (genCases (at_ labels place) b.state [] cases) fun answer given =>
          given = 0 ∧ answer.length = 0 + (cases.flatMap (·.labels)).length :=
      obeysAt_genCases fits entered inside follows member cover.cons
    exact whole.fresh .switch 0
  refine inner.enclosed.then fun answer b2 given _ gave => ?_
  obtain ⟨found, record⟩ := answer
  obtain ⟨none, ⟨rfl, length⟩, rfl, fit⟩ := gave
  rw [zero_add, ← add_zero record.sites]
  refine SpendsAt.andThen (spendsAt_resolveExit limit fit rfl rfl) fun _ b3 _ => ?_
  have operands := length_operandsFor labels
  rw [← count, ← form] at operands
  refine SpendsAt.next (spendsAt_aimDefault fits entered member) fun _ b4 _ => ?_
  refine SpendsAt.next (spendsAt_fillRest fits (fun table => ?_) (fun list => ?_) member)
    fun _ _ _ => (spends_endScopes limit).at
  · have form : place.table = true := table
    rw [operands, if_pos form]
    rfl
  · have form : place.table = false := list
    rw [operands, if_neg (Bool.eq_false_iff.mp form), length, all, zero_add]

theorem spendsAt_far (limit : UInt16) (any : cases ≠ [])
    (many : 536870912 ≤ (operandsFor labels).length) :
    SpendsAt D ctx b marks S S 0 (do
      match ← openSwitch labels with
      | none => pure ()
      | some layout => dispatch limit cases layout) := by
  intro mc σ roomy kept
  have few {σ σ' : MethodState} {place : SwitchPlace} {b1 b' : Buffer} {state : State}
      {answer : List (Int32 × Int32)}
      (placed : Asm.placeSwitch (tableFor labels) (operandsFor labels) ctx b =
        .ok (some place) b1)
      (cased : genCases (at_ labels place) state [] cases mc σ ctx
        { b1 with alive := false } = .ok (answer, σ') b') : False := by
    cases cases with
    | nil => exact any rfl
    | cons case rest =>
      have few := labels_few placed rfl cased
      omega
  refine ⟨fun b' answer run others holds => ?_, fun e b' failed others holds => ?_⟩
  · obtain ⟨found, _, b1, opened, run⟩ := bind_ok.mp run
    obtain ⟨rfl, place, placed, rfl⟩ := openSwitch_ok opened
    cases place with
    | none =>
      cases placeSwitch_none placed
      obtain ⟨_, rfl, rfl⟩ := pure_ok.mp run
      exact ⟨_, ⟨roomy, kept, 0, rfl, rfl⟩, holds⟩
    | some place =>
      change dispatch limit cases (at_ labels place) mc σ ctx b1 = _ at run
      rw [dispatch, buffer_bind] at run
      obtain ⟨_, _, dead, run⟩ := lift_bind_ok.mp run
      cases Asm.markDead_ok.mp dead
      obtain ⟨_, _, _, inner, _⟩ := bind_ok.mp run
      obtain ⟨_, cased, _⟩ := of_enclosed inner
      exact (few placed cased).elim
  · rcases bind_error.mp failed with early | ⟨found, _, b1, opened, late⟩
    · rw [add_assoc] at holds
      exact Discipline.Lawful.fails (.switch (tableFor labels)
        (operandsFor labels)) trivial holds (openSwitch_error early)
    obtain ⟨rfl, place, placed, rfl⟩ := openSwitch_ok opened
    cases place with
    | none => cases late
    | some place =>
      change dispatch limit cases (at_ labels place) mc σ ctx b1 = _ at late
      rw [dispatch, buffer_bind] at late
      rcases bind_error.mp late with impossible | ⟨_, _, _, killed, late⟩
      · cases impossible
      obtain ⟨rfl, dead⟩ := lift_ok.mp killed
      cases Asm.markDead_ok.mp dead
      rcases bind_error.mp late with inner | ⟨_, _, _, inner, _⟩
      · rw [enclosed_run] at inner
        rcases Asm.bind_error.mp inner with cased | ⟨_, _, _, impossible⟩
        · exact Discipline.Lawful.plain (genCases_far any placed rfl many cased)
        · cases impossible
      · obtain ⟨_, cased, _⟩ := of_enclosed inner
        exact (few placed cased).elim

theorem follows_dispatch (limit : UInt16) (any : cases ≠ [])
    (follows : ∀ case ∈ cases, Follows D (.switch :: scopes) case.code) :
    Follows D scopes (do
      match ← openSwitch (cases.flatMap (·.labels)) with
      | none => pure ()
      | some layout => dispatch limit cases layout) := by
  intro ctx b marks floors cover
  generalize all : cases.flatMap (·.labels) = labels
  by_cases few : tableFor labels = true ∨ labels.length < 2147483648
  · rw [openSwitch_eq, bind_assoc]
    simp only [pure_bind]
    refine ObeysAt.afterCall (k := 0) (.switch (tableFor labels)
      (operandsFor labels)) (operandsFor_complete few) trivial
      (fun answer b1 given placed none => ?_) (add_zero _)
    cases none
    cases answer with
    | none => exact obeysAt_pure rfl
    | some place =>
      exact spendsAt_placed limit all.symm placed follows (.head _) cover
  · have many : 536870912 ≤ (operandsFor labels).length := by
      rw [not_or] at few
      rw [length_operandsFor, if_neg few.1]
      omega
    exact spendsAt_far limit any many

theorem follows_genSwitch {selector : Lowering Item} (given : Hands D selector)
    (follows : ∀ case ∈ cases, Follows D (.switch :: scopes) case.code) :
    Follows D scopes (genSwitch selector cases) := by
  rw [genSwitch_eq]
  intro ctx b marks floors cover
  refine ObeysAt.after_look (fun _ _ _ => rfl) ?_
  refine (obeys_loadAs .int given).at.then fun selected b1 none _ bare => ?_
  cases bare.none
  split
  · have dropped : Spends D 0 (liftM selected.drop : Lowering Unit) :=
      lift_spends bare.held.drop
    exact SpendsAt.next dropped.at fun _ _ _ => (spends_endScopes _).at
  · next some =>
    have any : cases ≠ [] := fun none => some (by rw [none]; rfl)
    exact follows_dispatch _ any follows ctx b1 marks floors cover

end Cases

end Lowering

end ClassForge
