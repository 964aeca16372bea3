import ClassForge.Proofs.Gaps
import ClassForge.Proofs.Leaving

namespace ClassForge

namespace Asm

variable {α : Type}

theorem resolvePending_of_none {ctx : Context} {b : Buffer} (none : b.pending = []) :
    resolvePending ctx b = .ok () b := by
  cases b
  cases none
  rfl

theorem resolvePending_twice (rest : Asm α) :
    (do resolvePending; resolvePending; rest) = (do resolvePending; rest) := by
  funext ctx b
  change EStateM.bind (resolvePending ctx) _ b = EStateM.bind (resolvePending ctx) _ b
  unfold EStateM.bind
  cases run : resolvePending ctx b with
  | error e c => rfl
  | ok y c =>
    obtain ⟨log, flushes⟩ := resolvePending_ok run
    change EStateM.bind (resolvePending ctx) (fun _ => rest ctx) c = rest ctx c
    rw [EStateM.bind, resolvePending_of_none flushes.pending_eq]

theorem resolvePending_emit (instruction : Instruction) :
    (do resolvePending; emit instruction) = emit instruction := by
  unfold emit beginInstruction
  simp only [bind_assoc]
  exact resolvePending_twice _

theorem resolvePending_position : (do resolvePending; position) = position :=
  resolvePending_twice _

end Asm

theorem Kind.room_of_width {type : FieldType} {register : UInt16}
    (room : register.toNat + (.ofFieldType type : VType).width ≤ maxLocalCount) :
    (TypeCode.ofType type).kind.Room register := by
  have same : (TypeCode.ofType type).kind.type.width = (.ofFieldType type : VType).width := by
    cases type with
    | ref type => rfl
    | base type => cases type <;> rfl
  unfold Kind.Room
  rw [same]
  exact room

def Scope.closed : Scope → Scope
  | .guarded _ subroutine => .guarded none subroutine
  | scope => scope

namespace Scope

variable {scope : Scope} {scopes : List Scope} {floor : Nat}

theorem accepts_of_closed (outlet : Outlet) (site : JumpSite)
    (accepts : outlet.Accepts scope.closed floor site) : outlet.Accepts scope floor site := by
  cases scope with
  | guarded finalizer subroutine =>
    cases outlet with
    | calls => cases accepts.1
    | exit | next => cases accepts
  | loop | switch | labelled label | synchronized lock => exact accepts

theorem accepts_closed (uncalled : scope.isCalled = false) (outlet : Outlet) (site : JumpSite)
    (accepts : outlet.Accepts scope floor site) : outlet.Accepts scope.closed floor site := by
  cases outlet with
  | calls =>
    rw [Outlet.Accepts, uncalled] at accepts
    cases accepts.1
  | exit | next => cases scope <;> exact accepts

theorem not_accepts_closed (guards : scope.isLeft = false) (outlet : Outlet) (site : JumpSite) :
    ¬outlet.Accepts scope.closed floor site := by
  intro accepts
  cases scope with
  | loop | switch | labelled label => cases guards
  | guarded finalizer subroutine | synchronized lock =>
    cases outlet with
    | calls => cases accepts.1
    | exit | next => cases accepts

end Scope

namespace Lowering

variable {α : Type} {T : List ScopeRecord → Prop} {owned : Multiset JumpSite}
  {handlers : List Handler}
variable {D : Discipline} [D.Lawful] {ctx : Context} {b : Buffer} {marks : Landmarks} {S : List ScopeRecord → Prop}
  {scopes : List Scope} {floors : List Nat} {scope : Scope} {floor : Nat}

theorem obeysAt_declare (var : VarDecl) :
    ObeysAt D ctx b marks S S 0 (declare var) fun register given =>
      given = 0 ∧ (TypeCode.ofType var.type).kind.Room register := by
  refine SpendsAt.next (spends_checkDimensions _).at fun _ b1 _ => ?_
  have allocated : Obeys D 0
      (liftM (Asm.newLocal (.ofFieldType var.type) (some ⟨var.name, var.type, var.signature⟩)) :
        Lowering UInt16) fun register given =>
      given = 0 ∧ (TypeCode.ofType var.type).kind.Room register :=
    lift_obeys ((Asm.obeys_newLocal _ _).imp fun _ _ known => ⟨known.1, Kind.room_of_width known.2⟩)
  refine allocated.at.then fun register b2 given _ known => ?_
  obtain ⟨rfl, room⟩ := known
  have roomy (σ : MethodState) (old : σ.Roomy) : ({ σ with
      locals := σ.locals.insert var.id (.ofType var.type, register) } : MethodState).Roomy := by
    intro id code other found
    dsimp only at found
    rw [Std.HashMap.getElem?_insert] at found
    split at found
    · cases found
      exact room
    · exact old id code other found
  exact SpendsAt.next (spendsAt_modify (fun _ => rfl) roomy) fun _ _ _ => obeysAt_pure ⟨rfl, room⟩

theorem spends_cover (start stop handler : Nat) (type : Option BinaryName) :
    Spends D 0 (cover start stop handler type) := by
  unfold cover
  have added (entry : CatchEntry) : Spends D 0 (liftM (Asm.addCatch entry) : Lowering Unit) :=
    spends_note (.addCatch entry) fun _ _ => trivial
  split
  · split
    · exact obeys_throw_bind trivial
    · exact added _
  · exact obeys_pure rfl

theorem spends_coverFor (types : List BinaryName) (start stop handler : Nat) :
    Spends D 0 (coverFor types start stop handler) := by
  induction types with
  | nil => exact obeys_pure rfl
  | cons type rest ih => exact (spends_cover _ _ _ _).next fun _ => ih

theorem spends_coverBody (types : List BinaryName) (handler start stop : Nat)
    (gaps : List (Nat × Option Nat)) : Spends D 0 (coverBody types handler start stop gaps) := by
  induction gaps generalizing start with
  | nil =>
    unfold coverBody
    split
    · exact spends_coverFor _ _ _ _
    · exact obeys_pure rfl
  | cons gap rest ih => exact (spends_coverFor _ _ _ _).next fun _ => ih _

theorem spends_coverBetween (handler start : Nat) (gaps : List (Nat × Option Nat)) :
    Spends D 0 (coverBetween handler start gaps) := by
  induction gaps generalizing start with
  | nil => exact obeys_pure rfl
  | cons gap rest ih => exact (spends_cover _ _ _ _).next fun _ => ih _

theorem spends_markLine : Spends D 0 (liftM Asm.markLine : Lowering Unit) :=
  spends_note .markLine fun _ _ => trivial

theorem spends_markStatement (line : Option UInt16) : Spends D 0 (markStatement line) :=
  (spends_beginStatement line).next fun _ => spends_markLine

theorem spends_position : Spends D 0 (liftM Asm.position : Lowering Nat) :=
  lift_spends Asm.spends_position

theorem spends_endScopes (first : UInt16) :
    Spends D 0 (liftM (Asm.endScopes first) : Lowering Unit) :=
  lift_spends (Asm.spends_endScopes first)

theorem obeys_temporary (type : VType) : Obeys D 0 (temporary type) fun register given =>
    given = 0 ∧ register.toNat + type.width ≤ maxLocalCount :=
  lift_obeys (Asm.obeys_newLocal type none)

theorem spendsAt_genHandler {handler : Handler} (start stop : Nat) (gaps : List (Nat × Option Nat))
    (follows : Follows D scopes handler.code) (cover : marks.Cover floors) :
    StaysAt D ctx b marks scopes floors (genHandler handler start stop gaps) := by
  refine SpendsAt.next spends_position.at fun pc _ _ => ?_
  refine SpendsAt.next (spends_coverBody _ _ _ _ _).at fun _ _ _ => ?_
  refine SpendsAt.next (spends_markStatement _).at fun _ b1 _ => ?_
  refine ObeysAt.after_look (fun _ _ _ => rfl) ?_
  refine SpendsAt.next (SpendsAt.discard ((obeysAt_declare _).imp fun _ _ known => known.1))
    fun _ b2 _ => ?_
  refine (obeys_localItem handler.param.id).at.then fun item b3 given _ bare => ?_
  rw [bare.none]
  have stored : Spends D 0 (liftM item.store : Lowering Unit) :=
    lift_spends (item.spends_store bare.fits)
  refine SpendsAt.next stored.at fun _ b4 _ => ?_
  exact SpendsAt.next (follows ctx b4 marks floors cover) fun _ _ _ => (spends_endScopes _).at

omit [D.Lawful] in
theorem ObeysAt.flushed {a : Asm α} {f : α → Lowering Unit}
    {gives : Unit → Multiset JumpSite → Prop} (again : (do Asm.resolvePending; a) = a)
    (obeys : ObeysAt D ctx b marks S T owned (liftM a >>= f) gives) :
    ObeysAt D ctx b marks S T owned (do
      liftM Asm.resolvePending
      let found ← liftM a
      f found) gives := by
  refine ObeysAt.congr (fun mc σ _ => ?_) obeys
  rw [lift_bind]
  simp only [lift_bind]
  rw [← bind_assoc, again]

theorem firstGap_bind (mc : MethodContext) (σ : MethodState) (rest : Nat → Lowering Unit) :
    (firstGap >>= rest) mc σ = ((match (σ.records.getD 0 {}).gaps[0]? with
      | some pc => pure pc
      | none => liftM Asm.position : Lowering Nat) >>= rest) mc σ := by
  rw [firstGap, bind_assoc]
  rfl

theorem spendsAt_rethrow (exception : UInt16) (last handler : Nat) :
    SpendsAt D ctx b marks S S 0 (rethrow exception last handler) := by
  have thrown (stop : Nat) : Spends D 0 (do
      Asm.emit (.load .ref exception)
      cover last stop handler none
      Asm.emit .throwValue : Lowering Unit) :=
    (spends_emit (.load .ref exception) trivial).next fun _ => (spends_cover _ _ _ _).next fun _ =>
      spends_emit .throwValue trivial
  refine ObeysAt.each fun records kept => ?_
  cases found : (records.getD 0 {}).gaps[0]? with
  | some stop =>
    refine ObeysAt.congr (fun mc σ same => ?_) (ObeysAt.flushed (Asm.resolvePending_emit _)
      (ObeysAt.knowing kept (thrown stop).at))
    unfold rethrow
    rw [lift_bind, lift_bind]
    simp only [firstGap_bind, same, found, pure_bind]
  | none =>
    have asked : Spends D 0 (do
        let stop ← liftM Asm.position
        liftM (Asm.emit (.load .ref exception))
        cover last stop handler none
        liftM (Asm.emit .throwValue) : Lowering Unit) :=
      spends_position.next thrown
    refine ObeysAt.congr (fun mc σ same => ?_) (ObeysAt.flushed Asm.resolvePending_position
      (ObeysAt.knowing kept asked.at))
    unfold rethrow
    rw [lift_bind, lift_bind]
    simp only [firstGap_bind, same, found]

section Statement

variable {exit : Chain} {state : State} {other : Scope}
variable (regular : scope.Regular D scopes)

include regular

theorem spendsAt_finalizeInner (cover : marks.Cover floors) :
    StaysAt D ctx b marks (scope :: scopes) floors (finalize 0 scope) := by
  have here : (scope :: scopes)[0]? = some scope := rfl
  exact spendsAt_finalize here regular cover

theorem obeysAt_leaveHandler (isLast : Bool) (fits : exit.Fits D) (cover : marks.Cover floors) :
    ObeysAt D ctx b marks (Orderly D (scope :: scopes) floors)
      (Orderly D (scope :: scopes) floors) exit.sites
      (leaveHandler scope exit isLast) (Chain.Given D) := by
  refine SpendsAt.next (spendsAt_finalizeInner regular cover) fun _ b1 _ => ?_
  have ended (exit : Chain) (fits : exit.Fits D) {b : Buffer} :
      ObeysAt D ctx b marks (Orderly D (scope :: scopes) floors)
        (Orderly D (scope :: scopes) floors) exit.sites (do
          endGap 0
          return exit : Lowering Chain) (Chain.Given D) :=
    SpendsAt.next (spendsAt_endGap 0) fun _ _ _ => obeysAt_pure ⟨rfl, fits⟩
  split
  · refine (obeys_branch .goto).at.bind (k := exit.sites) (fun jump b2 given _ gave => ?_)
      (zero_add _)
    obtain ⟨rfl, more⟩ := gave
    rw [add_comm]
    refine (obeys_mergeChains fits more).at.then fun exit b3 given _ gave => ?_
    obtain ⟨rfl, fits⟩ := gave
    exact ended exit fits
  · exact ObeysAt.after_pure (ended exit fits)

theorem obeysAt_genHandlers (start stop : Nat) (gaps : List (Nat × Option Nat))
    (entered : D.fits state)
    (follows : ∀ handler ∈ handlers, Follows D (scope :: scopes) handler.code) (fits : exit.Fits D)
    (cover : marks.Cover floors) :
    ObeysAt D ctx b marks (Orderly D (scope :: scopes) floors)
      (Orderly D (scope :: scopes) floors) exit.sites
      (genHandlers scope state start stop gaps exit handlers) (Chain.Given D) := by
  induction handlers generalizing exit b with
  | nil => exact obeysAt_pure ⟨rfl, fits⟩
  | cons handler rest ih =>
    have enters := lift_at (S := (Orderly D (scope :: scopes) floors))
      (Asm.spends_entryPointWith (some (.ofFieldType handler.param.type)) entered ctx b marks)
    refine SpendsAt.next (SpendsAt.discard enters) fun _ b1 _ => ?_
    have code := follows handler (.head _)
    refine SpendsAt.next (spendsAt_genHandler start stop gaps code cover) fun _ b2 _ => ?_
    refine (obeysAt_leaveHandler regular rest.isEmpty fits cover).then fun exit b3 given _ gave => ?_
    obtain ⟨rfl, fits⟩ := gave
    exact ih (fun other member => follows other (.tail _ member)) fits

theorem spendsAt_genSubroutine {calls : Chain} {finalizer : Finalizer}
    (has : scope.finalizer? = some finalizer) (fits : calls.Fits D)
    (cover : marks.Cover (floor :: floors)) :
    SpendsAt D ctx b marks (Orderly D (other :: scopes) (floor :: floors))
      (Orderly D (other :: scopes) (floor :: floors)) calls.sites
      (genSubroutine calls finalizer) := by
  rw [← add_zero calls.sites]
  refine SpendsAt.andThen (spends_resolve fits).at fun _ _ _ => ?_
  refine SpendsAt.next (spends_markStatement _).at fun _ _ _ => ?_
  refine (obeys_temporary _).at.then fun address _ given _ known => ?_
  obtain ⟨rfl, room⟩ := known
  refine SpendsAt.next (spends_emit (.store .ref address) room).at fun _ b' _ => ?_
  refine SpendsAt.next (SpendsAt.outside 1 ?_) fun _ _ _ => (spends_emit (.ret address) trivial).at
  exact regular finalizer has ctx b' marks floors fun p member => cover p (.tail _ member)

def subroutineFor (scope : Scope) (calls : Chain) : Lowering Unit :=
  match calls.isEmpty, scope.finalizer? with
  | false, some finalizer => genSubroutine calls finalizer
  | _, _ => pure ()

theorem spendsAt_placeSubroutine (cover : marks.Cover (floor :: floors)) :
    SpendsAt D ctx b marks (Orderly D (scope :: scopes) (floor :: floors))
      (Orderly D (scope.closed :: scopes) (floor :: floors)) 0
      (placeSubroutine scope) := by
  refine ObeysAt.takeOut (f := subroutineFor scope) scope.closed .calls
    (fun kept other site accepts => ?_) fun calls known => ?_
  · cases kept with
    | calls => exact absurd rfl other
    | exit | next => cases scope <;> exact accepts
  rw [add_zero]
  unfold subroutineFor
  split
  · next finalizer _ has =>
    exact spendsAt_genSubroutine regular has (fun site member => (known site member).1) cover
  · next impossible =>
    refine add_zero calls.sites ▸ ObeysAt.without (fun exact => ?_) (obeysAt_pure rfl)
    -- a statement with calls has a finalizer
    cases calls with
    | nil => rfl
    | cons site rest =>
      have called := ((known site (.head _)).2 exact).1
      cases scope with
      | guarded finalizer subroutine =>
        cases finalizer with
        | none => cases called
        | some finalizer => exact (impossible finalizer rfl rfl).elim
      | loop | switch | labelled label | synchronized lock => cases called

omit regular in
theorem obeysAt_enterCatchAll (start : Nat) (entered : D.fits state) :
    ObeysAt D ctx b marks (Orderly D (scope :: scopes) floors)
      (Orderly D (scope :: scopes) floors) 0 (enterCatchAll scope state start)
      fun _ given => given = 0 := by
  have renewed : Spends D 0 (liftM Asm.newSegment : Lowering Unit) :=
    spends_note .newSegment fun _ _ => trivial
  refine SpendsAt.next renewed.at fun _ b1 _ => ?_
  refine SpendsAt.next (lift_at (Asm.spends_entryPointWith _ entered ctx b1 marks)) fun _ b2 _ => ?_
  refine ObeysAt.each fun records kept => ObeysAt.after_record 0 (ObeysAt.knowing kept ?_)
  refine SpendsAt.next (spendsAt_changeRecord 0 fun _ outlet => by cases outlet <;> rfl) fun _ _ _ => ?_
  refine SpendsAt.next (spends_coverBetween _ _ _).at fun last _ _ => ?_
  have begun : Spends D 0 (beginFinalizer scope) := by
    unfold beginFinalizer
    split
    · exact spends_beginStatement _
    · exact obeys_pure rfl
  refine SpendsAt.next begun.at fun _ _ _ => SpendsAt.next spends_markLine.at fun _ _ _ => ?_
  refine (obeys_temporary _).at.then fun exception _ given _ known => ?_
  obtain ⟨rfl, room⟩ := known
  exact SpendsAt.next (spends_emit (.store .ref exception) room).at fun _ _ _ => obeysAt_pure rfl

theorem spendsAt_genCatchAll (start : Nat) (entered : D.fits state)
    (cover : marks.Cover (floor :: floors)) :
    SpendsAt D ctx b marks (Orderly D (scope :: scopes) (floor :: floors))
      (Orderly D (scope.closed :: scopes) (floor :: floors)) 0
      (genCatchAll scope state start) := by
  refine SpendsAt.next (obeysAt_enterCatchAll start entered) fun found _ _ => ?_
  refine SpendsAt.next (spendsAt_finalizeInner regular cover) fun _ _ _ => ?_
  refine SpendsAt.next (spendsAt_rethrow _ _ _) fun _ _ _ => ?_
  exact spendsAt_placeSubroutine regular cover

theorem spendsAt_finalizeBody (cover : marks.Cover (floor :: floors)) :
    StaysAt D ctx b marks (scope :: scopes) (floor :: floors) (finalizeBody scope false) := by
  unfold finalizeBody
  split
  · exact spendsAt_finalizeInner regular cover
  · exact spendsAt_finalizeInner regular cover

theorem spendsAt_finalizeEmpty (cover : marks.Cover (floor :: floors)) :
    StaysAt D ctx b marks (scope.closed :: scopes) (floor :: floors) (finalizeBody scope true) := by
  unfold finalizeBody
  split
  · next finalizer =>
    refine ObeysAt.after_look (fun _ _ _ => rfl) ?_
    split
    · exact SpendsAt.outside 1 (regular finalizer rfl ctx b marks floors fun p member =>
        cover p (.tail _ member))
    · exact obeysAt_pure rfl
  · next other =>
    have uncalled : scope.isCalled = false := by
      unfold Scope.isCalled
      split
      · exact (other _ rfl).elim
      · rfl
    exact ((spendsAt_finalizeInner regular cover).strengthen fun _ kept =>
      kept.becomes Scope.accepts_of_closed).weaken fun _ kept =>
        kept.becomes (Scope.accepts_closed uncalled)

omit regular in
theorem obeysAt_leaveBody (isEmptyTry : Bool) (finalized : StaysAt D ctx b marks (other :: scopes) (floor :: floors) (finalizeBody scope isEmptyTry)) :
    ObeysAt D ctx b marks
      (Orderly D (other :: scopes) (floor :: floors))
      (Orderly D (other :: scopes) (floor :: floors)) 0
      (leaveBody scope isEmptyTry) (Chain.Given D) := by
  refine finalized.next fun _ _ _ => (obeys_branch _).at.then fun exit _ given _ gave => ?_
  exact SpendsAt.next (spendsAt_endGap 0) fun _ _ _ => obeysAt_pure gave

omit regular in
theorem ObeysAt.of_empty {x : Lowering α} {gives : α → Multiset JumpSite → Prop}
    (empty : b.code.size ≤ floor)
    (obeys : ObeysAt D ctx b marks (Orderly D (scope.closed :: scopes) (floor :: floors)) T owned
      x gives) :
    ObeysAt D ctx b marks (Orderly D (scope :: scopes) (floor :: floors)) T owned x gives := by
  intro mc σ roomy kept
  have closed {rest} (holds : D.holds ctx b (owned + σ.sites + rest) marks) :
      Orderly D (scope.closed :: scopes) (floor :: floors) σ.records := by
    unfold MethodState.sites at holds
    revert holds
    generalize σ.records = records at kept ⊢
    intro holds
    cases kept with
    | @cons _ _ _ _ record outer fits kept =>
      refine .cons (fun outlet site member => ⟨(fits outlet site member).1, fun exact => ?_⟩) kept
      have accepts := (fits outlet site member).2 exact
      cases outlet with
      | exit | next => cases scope <;> exact accepts
      | calls =>
        -- a call lies in the code of the body, and there is none
        have split : owned + recordSites (record :: outer) + rest = record.calls.sites +
            (owned + record.exit.sites + record.next.sites + recordSites outer + rest) := by
          simp only [recordSites_cons, ScopeRecord.sites]
          abel
        rw [split] at holds
        have before := Discipline.Lawful.inside exact holds site member
        have after : floor ≤ site.pc := accepts.2
        omega
  exact ⟨fun b' found run rest holds => (obeys mc σ roomy (closed holds)).ok run holds,
    fun e b' failed rest holds => (obeys mc σ roomy (closed holds)).tame failed holds⟩

end Statement

section End

variable {state : State} {start stop : Nat} {gaps : List (Nat × Option Nat)} {exit : Chain}
  {handlers : List Handler}

theorem spendsAt_resolveEnd (limit : UInt16) (fits : exit.Fits D) :
    SpendsAt D ctx b marks (Orderly D scopes floors) (Orderly D scopes floors)
      exit.sites (do
        Asm.resolve exit
        Asm.endScopes limit : Lowering Unit) := by
  rw [← add_zero exit.sites]
  exact SpendsAt.andThen (spends_resolve fits).at fun _ _ _ => (spends_endScopes limit).at

theorem spendsAt_afterEmpty (limit : UInt16) (regular : scope.Regular D scopes) (same : start = stop)
    (cover : marks.Cover (floor :: floors)) :
    StaysAt D ctx b marks (scope.closed :: scopes) (floor :: floors) (do
        let exit ← leaveBody scope true
        let exit ← genClauses scope state start stop gaps exit handlers
        if scope.hasFinalizer && !true then genCatchAll scope state start
        Asm.resolve exit
        Asm.endScopes limit : Lowering Unit) := by
  refine (obeysAt_leaveBody true (spendsAt_finalizeEmpty regular cover)).then
    fun exit _ given _ gave => ?_
  obtain ⟨rfl, fits⟩ := gave
  rw [genClauses, if_neg (by simp [same]), Bool.not_true, Bool.and_false]
  exact ObeysAt.after_pure (spendsAt_resolveEnd limit fits)

/-- What follows any other body. -/
theorem spendsAt_afterBody (limit : UInt16) (regular : scope.Regular D scopes)
    (entered : D.fits state)
    (clauses : ∀ handler ∈ handlers, Follows D (scope :: scopes) handler.code)
    (cover : marks.Cover (floor :: floors)) :
    SpendsAt D ctx b marks (Orderly D (scope :: scopes) (floor :: floors))
      (Orderly D (scope.closed :: scopes) (floor :: floors)) 0 (do
        let exit ← leaveBody scope false
        let exit ← genClauses scope state start stop gaps exit handlers
        if scope.hasFinalizer && !false then genCatchAll scope state start
        Asm.resolve exit
        Asm.endScopes limit : Lowering Unit) := by
  refine (obeysAt_leaveBody false (spendsAt_finalizeBody regular cover)).then
    fun exit _ given _ gave => ?_
  obtain ⟨rfl, fits⟩ := gave
  have handled {b : Buffer} : ObeysAt D ctx b marks
      (Orderly D (scope :: scopes) (floor :: floors))
      (Orderly D (scope :: scopes) (floor :: floors)) exit.sites
      (genClauses scope state start stop gaps exit handlers) (Chain.Given D) := by
    unfold genClauses
    split
    · exact obeysAt_genHandlers regular start stop gaps entered clauses fits cover
    · exact obeysAt_pure ⟨rfl, fits⟩
  refine handled.then fun exit _ given _ gave => ?_
  obtain ⟨rfl, fits⟩ := gave
  rw [Bool.not_false, Bool.and_true]
  split
  · refine ObeysAt.bind (k := exit.sites) (spendsAt_genCatchAll regular start entered cover)
      (fun _ _ given _ none => ?_) (zero_add _)
    rw [none, zero_add]
    exact spendsAt_resolveEnd limit fits
  · next plain =>
    have uncalled : scope.isCalled = false := by
      cases scope with
      | guarded finalizer subroutine =>
        cases finalizer with
        | none => rfl
        | some finalizer => exact absurd rfl plain
      | loop | switch | labelled label | synchronized lock => rfl
    exact (spendsAt_resolveEnd limit fits).weaken fun _ kept =>
      kept.becomes (Scope.accepts_closed uncalled)

end End

/-- A body with what protects it. In the end no call of its finalizer is left. -/
theorem spendsAt_genGuarded {body : Lowering Unit} (isTry : Bool) (regular : scope.Regular D scopes)
    (guards : scope.isLeft = false) (follows : Follows D (scope :: scopes) body)
    (clauses : ∀ handler ∈ handlers, Follows D (scope :: scopes) handler.code)
    (cover : marks.Cover floors) :
    SpendsAt D ctx b marks (Fresh D scopes floors)
      (Orderly D (scope.closed :: scopes) (0 :: floors)) 0
      (genGuarded scope body handlers isTry) := by
  refine ObeysAt.after_look (fun _ _ _ => rfl) ?_
  refine ObeysAt.afterCall (k := 0) .position trivial trivial (fun start b1 given _ gave => ?_)
    (add_zero _)
  obtain ⟨rfl, _⟩ := gave
  rw [add_zero]
  refine ObeysAt.after_look (fun _ _ _ => rfl) ?_
  refine ObeysAt.looking fun entered => ?_
  have covers : (Call.marks marks .position start).Cover (start :: floors) := by
    intro p member
    rcases List.mem_cons.mp member with rfl | member
    · exact .inr (.head _)
    · exact (cover p member).imp_right (List.mem_cons_of_mem _)
  refine ObeysAt.fresh scope start ?_
  refine SpendsAt.next (follows ctx b1 _ _ covers) fun _ b2 _ => ?_
  refine SpendsAt.next spends_position.at fun stop b3 measured => ?_
  refine ObeysAt.each fun records kept => ObeysAt.after_record 0 (ObeysAt.knowing kept ?_)
  have open_ : ∀ records, Orderly D (scope.closed :: scopes) (start :: floors) records →
      Orderly D (scope.closed :: scopes) (0 :: floors) records := fun _ kept =>
    kept.becomes fun outlet site accepts => (Scope.not_accepts_closed guards outlet site accepts).elim
  cases empty : start == stop && isTry with
  | true =>
    have same : start = stop := by simpa using And.left (by simpa using empty)
    have size := Asm.position_size measured.lift
    refine ObeysAt.of_empty (by omega) ?_
    exact (spendsAt_afterEmpty _ regular same covers).weaken open_
  | false => exact (spendsAt_afterBody _ regular entered clauses covers).weaken open_

end Lowering

end ClassForge
