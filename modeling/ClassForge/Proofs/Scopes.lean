import ClassForge.Proofs.Gaps
import ClassForge.Proofs.Values

namespace ClassForge

def Scope.Sound (scope : Scope) : Prop :=
  ∀ finalizer, scope.finalizer? = some finalizer →
    Lowering.Keeps Lowering.Tracks 0 finalizer.code fun _ => 0

theorem Scope.Sound.of_none {scope : Scope} (none : scope.finalizer? = none) : scope.Sound := by
  intro finalizer has
  rw [none] at has
  cases has

namespace Lowering

variable {depth : Nat} {s s1 s2 : Session} {σ σ' σ1 σ2 : MethodState} {before after : Nat → Prop}
  {mc : MethodContext} {ctx : Context} {b b' : Buffer} {y : Unit}
variable {how : Change} [how.Lawful] {scope : Scope} {scopes : List Scope}

theorem keeps_note (change : Note) (legal : ∀ s, change.Legal s) :
    Keeps how 0 (liftM change.perform : Lowering Unit) fun _ => 0 :=
  lift_keeps (Asm.keeps_note change legal)

theorem keeps_beginStatement (line : Option UInt16) :
    Keeps how 0 (liftM (Asm.beginStatement line) : Lowering Unit) fun _ => 0 :=
  keeps_note (.beginStatement line) fun _ => trivial

theorem keeps_restoreLine (line : Option UInt16) : Keeps how 0 (restoreLine line) fun _ => 0 := by
  cases line with
  | some line => exact keeps_beginStatement _
  | none => exact keeps_note .clearLine fun _ => trivial

theorem keeps_unlock (lock : UInt16) :
    Keeps how 0 (do Asm.changeState (← buffer).code.size (·.unlock lock) : Lowering Unit)
      fun _ => 0 := by
  intro mc ctx σ σ' b b' y run s rest _ holds known
  cases known
  rw [buffer_bind] at run
  obtain ⟨rfl, ran⟩ := lift_ok.mp run
  have note : (Note.unlock lock).perform ctx b = .ok y b' :=
    Asm.bind_ok.mpr ⟨_, _, Asm.length_ok.mpr ⟨rfl, rfl⟩, ran⟩
  obtain ⟨s', steady, holds'⟩ :=
    holds.asm (Asm.keeps_note (.unlock lock) fun _ => trivial) note
  exact ⟨s', Change.Lawful.still steady rfl, holds'⟩

theorem keeps_releaseMonitor (lock : UInt16) : Keeps how 0 (releaseMonitor lock) fun _ => 0 := by
  refine keeps_isAlive.next fun alive => ?_
  split
  · exact (keeps_emit _).next fun _ => (keeps_emit _).next fun _ => keeps_unlock lock
  · exact keeps_pure le_rfl

/-- The statements up to a depth are left alone. -/
structure Spares (depth : Nat) (after : Nat → Prop) (s : Session) (σ : MethodState) (s' : Session)
    (σ' : MethodState) : Prop extends Leaves (depth ≤ ·) after s σ s' σ' where
  inner : ∀ i < depth, σ'.gap i = σ.gap i

abbrev Beyond (depth : Nat) : Change := Spares depth (depth ≤ ·)

theorem keeps_outer {finalizer : Finalizer} (depth : Nat) (sound : scope.Sound)
    (has : scope.finalizer? = some finalizer) :
    Keeps (Beyond depth) 0 (outside depth finalizer.code) fun _ => 0 :=
  keeps_outside depth (sound finalizer has) (fun ⟨_, _, tracks⟩ => tracks.grows.toExtends)
    fun tracks => ⟨tracks.outside, fun i below => by
      rw [MethodState.gap_under _ _ tracks.size, if_pos below]⟩

structure Opens (depth : Nat) (s : Session) (σ : MethodState) (s' : Session) (σ' : MethodState) :
    Prop extends Spares depth (depth + 1 ≤ ·) s σ s' σ' where
  gap : depth < σ.records.length → ∃ p, σ'.gap depth = σ.gap depth ++ [p]

theorem keeps_openGap (depth : Nat) : Keeps (Opens depth) 0 (markGap depth) fun _ => 0 := by
  intro mc ctx σ σ' b b' y run s rest _ holds known
  cases known
  have mark : Keeps (Leaves (depth ≤ ·) (depth + 1 ≤ ·)) 0 (markGap depth) fun _ => 0 :=
    keeps_markGap fun i above => by omega
  obtain ⟨s', leaves, holds'⟩ := mark run holds rfl
  obtain ⟨_, pc, _, _, _, _, rfl, _⟩ := markGap_ok holds run
  refine ⟨s', ⟨⟨leaves, fun i below => ?_⟩, fun inside => ⟨pc, ?_⟩⟩, holds'⟩
  · rw [MethodState.gap_push, if_neg (by omega), List.append_nil]
  · rw [MethodState.gap_push, if_pos ⟨rfl, inside⟩]

theorem Still.beyond {s' : Session} (still : Still s σ s' σ') : Beyond depth s σ s' σ' :=
  ⟨.still still.steady still.gaps, fun i _ => MethodState.gap_congr still.gaps i⟩

instance (depth : Nat) : Change.Lawful (Beyond depth) where
  still steady same := Still.beyond ⟨steady, same⟩
  trans first second := ⟨first.toLeaves.trans second.toLeaves, fun i below =>
    (second.inner i below).trans (first.inner i below)⟩

theorem Opens.absorb (steady : s.Steady s1) (same : σ1.gaps = σ.gaps)
    (opens : Opens depth s1 σ1 s2 σ2) : Opens depth s σ s2 σ2 := by
  have still : Leaves (depth ≤ ·) (depth ≤ ·) s σ s1 σ1 := .still steady same
  refine ⟨⟨still.trans opens.toLeaves, fun i below => ?_⟩, fun inside => ?_⟩
  · rw [opens.inner i below, MethodState.gap_congr same]
  · obtain ⟨p, opened⟩ := opens.gap (by rw [still.size]; exact inside)
    exact ⟨p, by rw [opened, MethodState.gap_congr same]⟩

theorem Opens.beyond (opens : Opens depth s σ s1 σ1) (beyond : Beyond (depth + 1) s1 σ1 s2 σ2) :
    Opens depth s σ s2 σ2 := by
  refine ⟨⟨opens.toLeaves.trans beyond.toLeaves, fun i below => ?_⟩, fun inside => ?_⟩
  · rw [beyond.inner i (by omega), opens.inner i below]
  · obtain ⟨p, opened⟩ := opens.gap inside
    exact ⟨p, by rw [beyond.inner depth (by omega), opened]⟩

theorem keeps_idle {α : Type} (a : α) (fewer : ∀ i, after i → before i) :
    Keeps (Leaves before after) 0 (pure a : Lowering α) fun _ => 0 :=
  Yields.weaken (keeps_pure le_rfl) fun {s s' σ σ'} (same : Leaves before before s σ s' σ') =>
    same.weaken fewer

theorem Leaves.absorb (steady : s.Steady s1) (same : σ1.gaps = σ.gaps)
    (leaves : Leaves before after s1 σ1 s2 σ2) : Leaves before after s σ s2 σ2 :=
  Leaves.trans (Leaves.still steady same) leaves

def Scope.marks : Scope → Bool
  | .guarded _ _ | .synchronized _ => true
  | _ => false

theorem finalize_run (idle : b.isAlive = false ∨ Scope.marks scope = false)
    (run : finalize depth scope mc σ ctx b = .ok (y, σ') b') : σ = σ' ∧ b = b' := by
  rw [finalize.eq_def, isAlive_bind] at run
  split at run
  · next alive =>
    have none := idle.resolve_left (by rw [alive]; decide)
    cases scope with
    | guarded finalizer subroutine => cases none
    | synchronized lock => cases none
    | loop | switch | labelled label => exact (pure_ok.mp run).2
  · exact (pure_ok.mp run).2

theorem finalize_opens {owned : Multiset Nat} (sound : scope.Sound)
    (marks : Scope.marks scope = true) (alive : b.isAlive = true) (holds : Holds ctx s σ b owned)
    (run : finalize depth scope mc σ ctx b = .ok (y, σ') b') :
    ∃ s', Opens depth s σ s' σ' ∧ Holds ctx s' σ' b' owned := by
  have calm {α : Type} {first : Lowering α} {given : α → Multiset Nat} {next : α → Lowering Unit}
      (keeps : Keeps Still 0 first given)
      (opened : ∀ a, Keeps (Opens depth) (given a) (next a) fun _ => 0) :
      Keeps (Opens depth) 0 (first >>= next) fun _ => 0 :=
    keeps.bind_of (fun a => (opened a).mono (add_zero _).ge) (add_zero _).le
      fun still => Opens.absorb still.steady still.gaps
  rw [finalize.eq_def, isAlive_bind] at run
  rw [if_pos alive] at run
  cases scope with
  | guarded finalizer subroutine =>
    cases subroutine with
    | true =>
      refine Keeps.run ?_ run holds
      dsimp only
      split
      · refine calm (lift_keeps Asm.keeps_jsr) fun call => ?_
        exact (Yields.joined .calls depth call (keeps_openGap depth) Opens.absorb).mono (add_zero _).le
      · exact keeps_openGap depth
    | false =>
      refine Keeps.run ?_ run holds
      refine (keeps_openGap depth).bind_of (fun _ => Yields.mono ?_ (zero_add _).ge) (zero_add _).le
        Opens.beyond
      split
      · exact keeps_outer (depth + 1) sound rfl
      · exact Yields.weaken (keeps_pure le_rfl) Still.beyond
  | synchronized lock =>
    exact Keeps.run (calm (keeps_releaseMonitor lock) fun _ => keeps_openGap depth) run holds
  | loop | switch | labelled label => cases marks

theorem keeps_finalize (depth : Nat) (sound : scope.Sound) :
    Keeps (Spares depth (depth + 1 ≤ ·)) 0 (finalize depth scope) fun _ => 0 := by
  intro mc ctx σ σ' b b' y run s rest _ holds known
  cases known
  by_cases opened : b.isAlive = true ∧ Scope.marks scope = true
  · obtain ⟨s', opens, holds'⟩ := finalize_opens sound opened.2 opened.1 holds run
    exact ⟨s', opens.toSpares, holds'⟩
  · obtain ⟨rfl, rfl⟩ := finalize_run (by simpa [imp_iff_not_or] using opened) run
    have same : Leaves (depth ≤ ·) (depth ≤ ·) s σ s σ := Change.Lawful.refl s σ
    exact ⟨s, ⟨same.weaken fun i above => by omega, fun i _ => rfl⟩, holds⟩

theorem keeps_unwindFrom (depth : Nat) (sound : ∀ scope ∈ scopes, scope.Sound) :
    Keeps (Spares depth (depth + scopes.length ≤ ·)) 0 (unwindFrom depth scopes) fun _ => 0 := by
  induction scopes generalizing depth with
  | nil => exact keeps_pure le_rfl
  | cons scope rest ih =>
    have others := ih (depth + 1) fun scope member => sound scope (.tail _ member)
    refine (keeps_finalize depth (sound scope (.head _))).bind_of
      (fun _ => others.mono (zero_add _).ge) (zero_add _).le fun first second => ?_
    refine ⟨(first.toLeaves.trans second.toLeaves).weaken fun i above => ?_, fun i below => ?_⟩
    · rw [List.length_cons] at above
      omega
    · rw [second.inner i (by omega), first.inner i below]

theorem keeps_endGaps (scopes : List Scope) :
    Keeps (Leaves (0 + scopes.length ≤ ·) fun _ => True) 0 (endGaps scopes) fun _ => 0 :=
  Yields.weaken (keeps_endGapsFrom 0 scopes.length) fun changed => changed.weaken fun i _ => by omega

/-- Unwinding opens a gap in each statement that is left and owns no jumps in the end. -/
theorem keeps_unwind (sound : ∀ scope ∈ scopes, scope.Sound) :
    Keeps (Leaves (fun _ => True) (0 + scopes.length ≤ ·)) 0 (unwind scopes) fun _ => 0 :=
  Yields.weaken (keeps_unwindFrom 0 sound) fun changed =>
    ⟨⟨changed.toMarks, fun shut => changed.shut fun i _ => shut i trivial⟩, changed.rows⟩

theorem keeps_leave {rest : Chain → Lowering Unit} (depth : Nat)
    (sound : ∀ scope ∈ scopes, scope.Sound)
    (next : ∀ jump, Keeps (Leaves (0 + (scopes.take (depth + 1)).length ≤ ·) fun _ => True)
      jump.pcs (rest jump) fun _ => 0) :
    Keeps Tracks 0 (leave scopes depth >>= rest) fun _ => 0 := by
  have left : Keeps (Leaves (fun _ => True) (0 + (scopes.take (depth + 1)).length ≤ ·)) 0
      (leave scopes depth) Chain.pcs := by
    refine keeps_pendingLine.ahead fun line => ?_
    refine (keeps_unwind fun scope member => sound scope (List.mem_of_mem_take member)).chain
      fun _ => ?_
    exact (keeps_restoreLine line).next fun _ => keeps_branch _
  exact left.bind_of (fun jump => (next jump).mono (add_zero _).ge) (add_zero _).le Leaves.trans

theorem keeps_breakTarget (scopes : List Scope) (label : Option String) :
    Keeps how 0 (breakTarget scopes label) fun _ => 0 := by
  unfold breakTarget
  split
  · exact keeps_pure le_rfl
  · exact keeps_fail _
  · exact keeps_fail _

theorem keeps_continueTarget (scopes : List Scope) (label : Option String) :
    Keeps how 0 (continueTarget scopes label) fun _ => 0 := by
  unfold continueTarget
  split
  · exact keeps_pure le_rfl
  · exact keeps_fail _
  · exact keeps_fail _

theorem keeps_genBreak (label : Option String) (sound : ∀ scope ∈ scopes, scope.Sound) :
    Keeps Tracks 0 (genBreak scopes label) fun _ => 0 := by
  refine (keeps_breakTarget scopes label).next fun depth => ?_
  refine keeps_leave depth sound fun jump => ?_
  refine (Yields.joined .exit depth jump (keeps_endGaps _) Leaves.absorb).mono (add_zero _).le

theorem keeps_genContinue (label : Option String) (sound : ∀ scope ∈ scopes, scope.Sound) :
    Keeps Tracks 0 (genContinue scopes label) fun _ => 0 := by
  refine (keeps_continueTarget scopes label).next fun depth => ?_
  refine keeps_leave depth sound fun jump => ?_
  exact (Yields.joined .next depth jump (keeps_endGaps _) Leaves.absorb).mono (add_zero _).le

end Lowering

end ClassForge
