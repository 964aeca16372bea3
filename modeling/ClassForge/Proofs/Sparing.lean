import ClassForge.Proofs.Blanks
import ClassForge.Proofs.Following

namespace ClassForge

namespace Bytes

variable {wide : Bool} {start stop : Nat} {waiting gone new : Multiset Nat} {fills : List Nat}
  {code other last : Bytes}

theorem Alike.trans (first : Alike start stop code other) (second : Alike start stop other last) :
    Alike start stop code last :=
  fun i lower upper => (second i lower upper).trans (first i lower upper)

/-- There is code between two positions, with no waiting jump in it. -/
structure Quiet (wide : Bool) (start stop : Nat) (waiting : Multiset Nat) (code : Bytes) : Prop where
  some : start < stop
  inside : stop ≤ code.length
  apart : ∀ pc ∈ waiting, pc + siteLength wide ≤ start ∨ stop ≤ pc

theorem Quiet.fewer (quiet : Quiet wide start stop waiting code)
    (fewer : ∀ pc ∈ new, pc ∈ waiting) : Quiet wide start stop new code :=
  ⟨quiet.some, quiet.inside, fun pc member => quiet.apart pc (fewer pc member)⟩

theorem Moves.spares (moves : Moves wide fills gone new code other)
    (quiet : Quiet wide start stop gone code) (later : ∀ pos ∈ fills, stop ≤ pos) :
    Alike start stop code other ∧ Quiet wide start stop new other := by
  have long := three_le_siteLength wide
  have outside (i : Nat) (lower : start ≤ i) (upper : i < stop) : Outside wide gone i :=
    fun pc member => (quiet.apart pc member).elim (fun _ => .inr (by omega)) fun _ => .inl (by omega)
  have alike : Alike start stop code other := fun i lower upper =>
    moves.stays i (upper.trans_le quiet.inside) (outside i lower upper)
      fun pos filled => .inl (upper.trans_le (later pos filled))
  -- The last of the bytes is still there, and new jumps come after it.
  have some := quiet.some
  have inside := quiet.inside
  have found : stop - 1 < other.length := by
    have same := alike (stop - 1) (by omega) (by omega)
    exact (List.getElem?_eq_some_iff.mp (same.trans (List.getElem?_eq_getElem (by omega)))).1
  refine ⟨alike, some, by omega, fun pc member => .inr ?_⟩
  have after := moves.later pc member (stop - 1) (by omega) (outside _ (by omega) (by omega))
  omega

end Bytes

open Bytes (Alike Quiet)

variable {start stop : Nat}

theorem Call.spares {ctx : Context} {α : Type} {call : Call α} {answer : α} {b b' : Buffer}
    {rest : Multiset Nat} (quiet : Quiet ctx.wide start stop (b.pending.pcs + (call.takes + rest)) b.bytes)
    (later : ∀ pos ∈ call.fills, stop ≤ pos) (run : call.perform ctx b = .ok answer b') :
    Alike start stop b.bytes b'.bytes ∧
      Quiet ctx.wide start stop (b'.pending.pcs + (call.gives answer + rest)) b'.bytes := by
  obtain ⟨gone, kept, new, split, gave, moves⟩ := call.moves run
  rw [← add_assoc, split] at quiet
  obtain ⟨alike, fresh⟩ := moves.spares (quiet.fewer fun pc member =>
    Multiset.mem_add.mpr (.inl (Multiset.mem_add.mpr (.inl member)))) later
  rw [← add_assoc, gave]
  refine ⟨alike, fresh.some, fresh.inside, fun pc member => ?_⟩
  rcases Multiset.mem_add.mp member with waits | old
  · rcases Multiset.mem_add.mp waits with new | kept
    · exact fresh.apart pc new
    · exact quiet.apart pc (Multiset.mem_add.mpr (.inl (Multiset.mem_add.mpr (.inr kept))))
  · exact quiet.apart pc (Multiset.mem_add.mpr (.inr old))

/-- The bytes between two positions stay those of the given code. -/
def Discipline.sparing (start stop : Nat) (code : Bytes) : Discipline :=
  .keeping fun ctx b sites marks =>
    Quiet ctx.wide start stop (b.pending.pcs + sites.map JumpSite.pc) b.bytes ∧
      Alike start stop code b.bytes ∧ ∀ place ∈ marks.places, stop ≤ place.base

theorem Call.places_after {ctx : Context} {α : Type} {call : Call α} {answer : α} {b b' : Buffer}
    {waiting : Multiset Nat} (quiet : Quiet ctx.wide start stop (b.pending.pcs + waiting) b.bytes)
    (run : call.perform ctx b = .ok answer b') : ∀ place ∈ call.places answer, stop ≤ place.base := by
  cases call with
  | switch table operands =>
    intro place member
    rcases Asm.placeSwitch_core run with ⟨_, _, rfl⟩ | ⟨c, _, flushes, rfl, _⟩
    · cases member
    · obtain rfl := List.mem_singleton.mp member
      obtain ⟨_, inside⟩ := flushes.moves.spares (quiet.fewer fun pc member =>
        Multiset.mem_add.mpr (.inl member)) (by simp)
      have before := inside.inside
      rw [Buffer.length_bytes] at before
      exact before.trans (Bytes.lt_switchBase _).le
  | _ => exact nofun

instance (code : Bytes) : (Discipline.sparing start stop code).Lawful := by
  refine Discipline.lawful_keeping (fun call ctx b b' answer rest marks ready holds run => ?_)
    (fun places floors holds => ?_) (fun chain register holds => ?_) (fun sites holds => ?_)
  · obtain ⟨quiet, alike, places⟩ := holds
    have later : ∀ pos ∈ call.fills, stop ≤ pos := by
      cases call with
      | putWord pc value =>
        intro pos member
        obtain rfl := List.mem_singleton.mp member
        obtain ⟨place, listed, i, _, _, rfl⟩ := ready
        exact (places place listed).trans (Nat.le_add_right _ _)
      | _ => exact nofun
    rw [Multiset.map_add, Call.map_sites] at quiet
    obtain ⟨same, quiet'⟩ := call.spares quiet later run
    rw [Multiset.map_add, Call.map_answers]
    refine ⟨quiet', alike.trans same, fun place member => ?_⟩
    exact (List.mem_append.mp member).elim (call.places_after quiet run place) (places place)
  · exact ⟨holds.1, holds.2.1, fun place member => holds.2.2 place (List.mem_append_right _ member)⟩
  · have same : (chain.undefineFrom register).sites.map JumpSite.pc = chain.sites.map JumpSite.pc := by
      simp
    rwa [Multiset.map_add, same, ← Multiset.map_add]
  · refine ⟨holds.1.fewer fun pc member => ?_, holds.2⟩
    rw [Multiset.map_add]
    rcases Multiset.mem_add.mp member with pending | old
    · exact Multiset.mem_add.mpr (.inl pending)
    · exact Multiset.mem_add.mpr (.inr (Multiset.mem_add.mpr (.inr old)))

theorem MethodState.map_sites (σ : MethodState) : σ.sites.map JumpSite.pc = σ.pcs := by
  unfold sites pcs recordSites
  induction σ.records with
  | nil => rfl
  | cons record rest ih =>
    simp only [List.map_cons, List.sum_cons, Multiset.map_add, ih]
    simp [ScopeRecord.sites, ScopeRecord.pcs]

theorem Orderly.keeping {holds : Context → Buffer → Multiset JumpSite → Landmarks → Prop}
    {scopes : List Scope} {records : List ScopeRecord} (sized : records.length = scopes.length) :
    Orderly (.keeping holds) scopes (scopes.map fun _ => 0) records := by
  induction scopes generalizing records with
  | nil =>
    cases List.length_eq_zero_iff.mp sized
    exact .nil
  | cons scope scopes ih =>
    cases records with
    | nil => cases sized
    | cons record records =>
      exact .cons (fun _ _ _ => ⟨trivial, False.elim⟩) (ih (Nat.succ.inj sized))

namespace Lowering

variable {mc : MethodContext} {ctx : Context} {σ σ' : MethodState} {b b' : Buffer}
  {scopes : List Scope}

/-- Code in which no jump waits stays as it is, whatever is lowered after it. -/
theorem Follows.spares {action : Lowering Unit}
    (follows : ∀ code, Follows (.sparing start stop code) scopes action)
    (sized : σ.records.length = scopes.length)
    (quiet : Quiet ctx.wide start stop (b.pending.pcs + σ.pcs) b.bytes)
    (run : action mc σ ctx b = .ok ((), σ') b') :
    σ'.records.length = scopes.length ∧ Alike start stop b.bytes b'.bytes ∧
      Quiet ctx.wide start stop (b'.pending.pcs + σ'.pcs) b'.bytes := by
  have cover : (⟨[], []⟩ : Landmarks).Cover (scopes.map fun _ => 0) := by
    intro p member
    obtain ⟨_, _, rfl⟩ := List.mem_map.mp member
    exact .inl rfl
  rw [← MethodState.map_sites] at quiet
  have holds : (Discipline.sparing start stop b.bytes).holds ctx b (0 + σ.sites + 0) ⟨[], []⟩ := by
    rw [zero_add, add_zero]
    exact ⟨quiet, fun _ _ _ => rfl, by simp⟩
  obtain ⟨given, ⟨_, orderly, own, rfl, none⟩, quiet', alike, _⟩ :=
    (follows b.bytes ctx b ⟨[], []⟩ _ cover mc σ nofun (.keeping sized)).ok run holds
  subst none
  rw [zero_add, add_zero, MethodState.map_sites] at quiet'
  exact ⟨orderly.length_eq, alike, quiet'⟩

end Lowering

/-- Finalizers are statements outside of the statements that they belong to. -/
def Scope.Natural : List Scope → Prop
  | [] => True
  | scope :: outer => (∀ finalizer ∈ scope.finalizer?,
      ∃ stmt, finalizer.code = Lowering.genStmt outer false stmt) ∧ Natural outer

theorem Scope.Natural.regular {D : Discipline} [D.Lawful] (slack : ¬D.exact) :
    ∀ {scopes : List Scope}, Natural scopes → AllRegular D scopes
  | [], _ => trivial
  | scope :: outer, ⟨first, rest⟩ => by
    have regular := rest.regular slack
    refine regular.cons fun finalizer has => ?_
    obtain ⟨stmt, same⟩ := first finalizer has
    rw [same]
    exact Lowering.follows_genStmt regular false stmt fun exact => absurd exact slack

end ClassForge
