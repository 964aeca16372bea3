import ClassForge.Proofs.Stages

namespace ClassForge

namespace Lowering

variable {α : Type} {D : Discipline}

def Follows (D : Discipline) (scopes : List Scope) (action : Lowering Unit) : Prop :=
  ∀ ctx b marks floors, marks.Cover floors →
    StaysAt D ctx b marks scopes floors action

end Lowering

namespace Scope

variable {D : Discipline} {scope : Scope} {scopes : List Scope} {depth : Nat}
  {label : Option String}

def Regular (D : Discipline) (scope : Scope) (outer : List Scope) : Prop :=
  ∀ finalizer ∈ scope.finalizer?, Lowering.Follows D outer finalizer.code

def AllRegular (D : Discipline) : List Scope → Prop
  | [] => True
  | scope :: rest => scope.Regular D rest ∧ AllRegular D rest

theorem AllRegular.cons (regular : AllRegular D scopes) (whole : scope.Regular D scopes) :
    AllRegular D (scope :: scopes) :=
  ⟨whole, regular⟩

theorem AllRegular.get (regular : AllRegular D scopes) (here : scopes[depth]? = some scope) :
    scope.Regular D (scopes.drop (depth + 1)) := by
  induction scopes generalizing depth with
  | nil => cases here
  | cons first rest ih =>
    cases depth with
    | zero =>
      cases here
      exact regular.1
    | succ depth => exact ih regular.2 here

theorem drop_eq_cons (here : scopes[depth]? = some scope) :
    scopes.drop depth = scope :: scopes.drop (depth + 1) := by
  obtain ⟨inside, rfl⟩ := List.getElem?_eq_some_iff.mp here
  exact List.drop_eq_getElem_cons inside

theorem findIdx?_get {p : Scope → Bool} (found : scopes.findIdx? p = some depth) :
    ∃ scope, scopes[depth]? = some scope ∧ p scope = true := by
  obtain ⟨inside, holds, _⟩ := List.findIdx?_eq_some_iff_getElem.mp found
  exact ⟨scopes[depth], List.getElem?_eq_getElem inside, holds⟩

theorem isLeft_of_breakTarget (found : breakTarget? scopes label = some depth) :
    ∃ scope, scopes[depth]? = some scope ∧ scope.isLeft = true := by
  cases label with
  | none =>
    obtain ⟨scope, here, holds⟩ := findIdx?_get found
    refine ⟨scope, here, ?_⟩
    cases scope <;> simp_all [isLeft]
  | some label =>
    obtain ⟨scope, here, holds⟩ := findIdx?_get found
    refine ⟨scope, here, ?_⟩
    cases scope <;> simp_all [isLeft, hasLabel]

theorem isLoop_of_continueTarget (found : continueTarget? scopes label = some depth) :
    ∃ scope, scopes[depth]? = some scope ∧ scope.isLoop = true := by
  cases label with
  | none => exact findIdx?_get found
  | some label =>
    obtain ⟨outer, _, found⟩ := Option.bind_eq_some_iff.mp found
    obtain ⟨above, reached, found⟩ := Option.bind_eq_some_iff.mp found
    obtain rfl := Option.some.inj found
    obtain ⟨inside, holds, _⟩ := List.findIdx?_eq_some_iff_getElem.mp reached
    rw [List.length_reverse] at inside
    rw [List.getElem_reverse, List.getElem_take] at holds
    exact ⟨_, List.getElem?_eq_getElem _, holds⟩

end Scope

theorem Landmarks.Cover.cons {marks : Landmarks} {floors : List Nat} (cover : marks.Cover floors) :
    marks.Cover (0 :: floors) := by
  intro p member
  rcases List.mem_cons.mp member with rfl | member
  · exact .inl rfl
  · exact cover p member

theorem Landmarks.Cover.le_of_getD {marks : Landmarks} {floors : List Nat} {depth pc : Nat}
    (cover : marks.Cover floors) (above : ∀ p ∈ marks.floors, p ≤ pc) : floors.getD depth 0 ≤ pc := by
  rw [List.getD_eq_getElem?_getD]
  cases found : floors[depth]? with
  | none => exact Nat.zero_le pc
  | some p =>
    rcases cover p (List.mem_of_getElem? found) with rfl | member
    · exact Nat.zero_le pc
    · exact above p member

namespace Lowering

variable {D : Discipline} [D.Lawful] {ctx : Context} {b : Buffer} {marks : Landmarks}
  {scopes : List Scope} {floors : List Nat} {scope : Scope} {depth : Nat}

theorem spends_note (change : Note) (ready : ∀ b marks, (Call.note change).Ready D marks b) :
    Spends D 0 (liftM change.perform : Lowering Unit) :=
  lift_spends (Asm.obeys_call (.note change) trivial ready fun _ _ _ => id)

theorem spends_beginStatement (line : Option UInt16) :
    Spends D 0 (liftM (Asm.beginStatement line) : Lowering Unit) :=
  spends_note (.beginStatement line) fun _ _ => trivial

theorem spends_restoreLine (line : Option UInt16) : Spends D 0 (restoreLine line) := by
  unfold restoreLine
  split
  · exact spends_beginStatement _
  · exact spends_note .clearLine fun _ _ => trivial

theorem spendsAt_markGap (depth : Nat) :
    StaysAt D ctx b marks scopes floors (markGap depth) := by
  have asked : Spends D 0 (liftM Asm.position : Lowering Nat) :=
    lift_spends Asm.spends_position
  refine SpendsAt.next asked.at fun pc b' _ => spendsAt_changeRecord depth fun record outlet => ?_
  cases outlet <;> rfl

theorem spendsAt_endGap (depth : Nat) :
    StaysAt D ctx b marks scopes floors (endGap depth) := by
  refine ObeysAt.each fun records kept => ObeysAt.after_record depth ?_
  split
  · exact ObeysAt.knowing kept (spendsAt_markGap depth)
  · exact ObeysAt.knowing kept (obeysAt_pure rfl)

theorem spendsAt_endGapsFrom (depth count : Nat) :
    StaysAt D ctx b marks scopes floors (endGapsFrom depth count) := by
  induction count generalizing depth b with
  | zero => exact obeysAt_pure rfl
  | succ count ih => exact (spendsAt_endGap depth).next fun _ _ _ => ih (depth + 1)

theorem spendsAt_releaseMonitor {S : List ScopeRecord → Prop} (lock : UInt16) :
    SpendsAt D ctx b marks S S 0 (releaseMonitor lock) := by
  refine ObeysAt.after_look (fun _ _ _ => rfl) ?_
  split
  · refine SpendsAt.next (spends_emit (.load .ref lock) trivial).at fun _ b1 _ => ?_
    refine SpendsAt.next (spends_emit .monitorExit trivial).at fun _ b2 _ => ?_
    refine ObeysAt.after_look (fun _ _ _ => rfl) ?_
    have unlocked : Asm.ObeysAt D ctx b2 marks 0 (Note.unlock lock).perform fun _ given => given = 0 :=
      Asm.obeysAt_call (.note (.unlock lock)) trivial trivial
    exact lift_at ⟨unlocked.ok, unlocked.tame⟩
  · exact obeysAt_pure rfl

theorem spendsAt_finalize (here : scopes[depth]? = some scope)
    (regular : scope.Regular D (scopes.drop (depth + 1))) (cover : marks.Cover floors) :
    StaysAt D ctx b marks scopes floors (finalize depth scope) := by
  refine ObeysAt.after_look (fun _ _ _ => rfl) ?_
  dsimp only
  split
  · cases scope with
    | loop | switch | labelled label => exact obeysAt_pure rfl
    | synchronized lock =>
      exact SpendsAt.next (spendsAt_releaseMonitor lock) fun _ _ _ => spendsAt_markGap depth
    | guarded finalizer subroutine =>
      cases subroutine with
      | false =>
        refine (spendsAt_markGap depth).next fun _ b' _ => ?_
        cases finalizer with
        | none => exact obeysAt_pure rfl
        | some finalizer =>
          refine SpendsAt.outside (depth + 1) (regular finalizer rfl ctx b' marks _ fun p member => ?_)
          exact cover p (List.mem_of_mem_drop member)
      | true =>
        cases finalizer with
        | none => exact spendsAt_markGap depth
        | some finalizer =>
          refine ObeysAt.then (lift_at (Asm.obeysAt_call .jsr trivial trivial)) fun call b' given _ gave => ?_
          obtain ⟨⟨rfl, fits⟩, later⟩ := gave
          refine (add_zero call.sites) ▸ ObeysAt.joined .calls here fits (fun exact site member => ?_)
            (spendsAt_markGap depth)
          exact ⟨rfl, cover.le_of_getD (later exact site member)⟩
  · exact obeysAt_pure rfl

theorem spendsAt_unwindFrom {left rest : List Scope} (split : scopes.drop depth = left ++ rest)
    (regular : Scope.AllRegular D scopes) (cover : marks.Cover floors) :
    StaysAt D ctx b marks scopes floors (unwindFrom depth left) := by
  induction left generalizing depth b with
  | nil => exact obeysAt_pure rfl
  | cons scope left ih =>
    have here : scopes[depth]? = some scope := by
      have first : (scopes.drop depth)[0]? = some scope := by rw [split]; rfl
      rwa [List.getElem?_drop] at first
    have others : scopes.drop (depth + 1) = left ++ rest := by
      have both := (Scope.drop_eq_cons here).symm.trans split
      exact (List.cons.inj both).2
    exact (spendsAt_finalize here (regular.get here) cover).next fun _ _ _ => ih others

/-- Leaving statements runs their finalizers without any loss of jumps. -/
theorem spendsAt_unwind (depth : Nat) (regular : Scope.AllRegular D scopes)
    (cover : marks.Cover floors) :
    StaysAt D ctx b marks scopes floors (unwind (scopes.take depth)) := by
  have split : scopes.drop 0 = scopes.take depth ++ scopes.drop depth :=
    (List.take_append_drop depth scopes).symm
  exact spendsAt_unwindFrom split regular cover

theorem obeysAt_leave (depth : Nat) (regular : Scope.AllRegular D scopes) (cover : marks.Cover floors) :
    ObeysAt D ctx b marks (Orderly D scopes floors) (Orderly D scopes floors) 0 (leave scopes depth)
      (Chain.Given D) := by
  refine ObeysAt.after_look (fun _ _ _ => rfl) ?_
  refine (spendsAt_unwind (depth + 1) regular cover).next fun _ _ _ => ?_
  refine SpendsAt.next (spends_restoreLine _).at fun _ _ _ => ?_
  exact (obeys_branch .goto).at

theorem spendsAt_escape (outlet : Outlet) (here : scopes[depth]? = some scope)
    (accepted : ∀ site, outlet.Accepts scope (floors.getD depth 0) site)
    (regular : Scope.AllRegular D scopes) (cover : marks.Cover floors) :
    StaysAt D ctx b marks scopes floors (do
      let jump ← leave scopes depth
      let chain ← Asm.mergeChains (outlet.of (← record depth)) jump
      changeRecord depth (outlet.put chain)
      endGaps (scopes.take (depth + 1))) := by
  refine (obeysAt_leave depth regular cover).then fun jump b' given _ gave => ?_
  obtain ⟨rfl, fits⟩ := gave
  rw [← add_zero jump.sites]
  exact ObeysAt.joined outlet here fits (fun _ site _ => accepted site) (spendsAt_endGapsFrom 0 _)

theorem follows_genBreak (label : Option String) (regular : Scope.AllRegular D scopes) :
    Follows D scopes (genBreak scopes label) := by
  intro ctx b marks floors cover
  unfold genBreak breakTarget
  split
  · next _ _ found =>
    obtain ⟨scope, here, left⟩ := Scope.isLeft_of_breakTarget found
    exact ObeysAt.after_pure (spendsAt_escape .exit here (fun _ => left) regular cover)
  · exact Obeys.at (obeys_fail_bind _)
  · exact Obeys.at (obeys_fail_bind _)

theorem follows_genContinue (label : Option String) (regular : Scope.AllRegular D scopes) :
    Follows D scopes (genContinue scopes label) := by
  intro ctx b marks floors cover
  unfold genContinue continueTarget
  split
  · next _ _ found =>
    obtain ⟨scope, here, loops⟩ := Scope.isLoop_of_continueTarget found
    exact ObeysAt.after_pure (spendsAt_escape .next here (fun _ => loops) regular cover)
  · exact Obeys.at (obeys_fail_bind _)
  · exact Obeys.at (obeys_fail_bind _)

end Lowering

end ClassForge
