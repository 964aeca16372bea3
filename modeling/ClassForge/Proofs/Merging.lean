import ClassForge.Machine.State
import ClassForge.Proofs.Ancestry
import ClassForge.Proofs.SlotLayout
import Mathlib.Data.List.Forall2

namespace ClassForge.State

open List (Forall₂)

variable {graph : ClassGraph} {state other joined : State} {a b type : VType}
  {as bs types : List VType} {register : UInt16}

def Joinable (a b : VType) : Prop :=
  a = b ∨ (∃ type, a = .null ∧ b = .object type) ∨ (∃ type, a = .object type ∧ b = .null) ∨
    ∃ type other, a = .object type ∧ b = .object other

/-- A value of the first type can be used as one of the second. -/
inductive Below (graph : ClassGraph) : VType → VType → Prop where
  | refl (type : VType) : Below graph type type
  | null (type : RefType) : Below graph .null (.object type)
  | object {type above : RefType} : graph.isAssignable type above = true →
      Below graph (.object type) (.object above)

/-- The third list is what the others agree on, entry by entry. -/
inductive Meets (graph : ClassGraph) : List VType → List VType → List VType → Prop where
  | nil : Meets graph [] [] []
  | cons {a b type : VType} {as bs types : List VType} : joinTypes graph a b = .ok type →
      Meets graph as bs types → Meets graph (a :: as) (b :: bs) (type :: types)

def Paired (locals : Array LocalSlot) : Prop :=
  ∀ register type, locals[register]? = some (.defined type) → type.width = 2 →
    locals[register + 1]? = some .upper

theorem joinTypes_ok_iff : (∃ type, joinTypes graph a b = .ok type) ↔ Joinable a b := by
  unfold joinTypes Joinable
  split
  · next same => exact ⟨fun _ => .inl same, fun _ => ⟨a, rfl⟩⟩
  · next differ => split <;> simp_all

theorem joinTypes_self (type : VType) : joinTypes graph type type = .ok type := if_pos rfl

theorem joinTypes_comm (formed : graph.Hierarchical) :
    joinTypes graph a b = .ok type ↔ joinTypes graph b a = .ok type := by
  unfold joinTypes
  by_cases same : a = b
  · rw [same]
  rw [if_neg same, if_neg (Ne.symm same)]
  cases a <;> cases b <;> simp [formed.commonSuperclass_comm]

theorem below_joinTypes (formed : graph.Hierarchical) (met : joinTypes graph a b = .ok type) :
    Below graph a type := by
  unfold joinTypes at met
  split at met
  · cases met
    exact .refl a
  · split at met
    · cases met
      exact .null _
    · cases met
      exact .refl _
    · cases met
      exact .object (formed.commonSuperclass_bounds ..).1
    · cases met

theorem Meets.exists_iff : (∃ types, Meets graph as bs types) ↔ Forall₂ Joinable as bs := by
  constructor
  · rintro ⟨types, meets⟩
    induction meets with
    | nil => exact .nil
    | cons met _ ih => exact .cons (joinTypes_ok_iff.mp ⟨_, met⟩) ih
  · intro joinable
    induction joinable with
    | nil => exact ⟨[], .nil⟩
    | cons here _ ih =>
      obtain ⟨type, met⟩ := joinTypes_ok_iff.mpr here
      obtain ⟨types, meets⟩ := ih
      exact ⟨type :: types, .cons met meets⟩

theorem Meets.self (types : List VType) : Meets graph types types types := by
  induction types with
  | nil => exact .nil
  | cons type rest ih => exact .cons (joinTypes_self type) ih

theorem Meets.symm (formed : graph.Hierarchical) (meets : Meets graph as bs types) :
    Meets graph bs as types := by
  induction meets with
  | nil => exact .nil
  | cons met _ ih => exact .cons ((joinTypes_comm formed).mp met) ih

theorem Meets.above (formed : graph.Hierarchical) (meets : Meets graph as bs types) :
    Forall₂ (Below graph) as types := by
  induction meets with
  | nil => exact .nil
  | cons met _ ih => exact .cons (below_joinTypes formed met) ih

theorem joinStacks_ok {before after : SlotSeq VType} (same : as.length = bs.length) :
    joinStacks graph before as bs = .ok after ↔
      ∃ types, Meets graph as bs types ∧ after = before.pushAll types := by
  induction as generalizing before bs with
  | nil =>
    cases List.eq_nil_of_length_eq_zero same.symm
    constructor
    · rintro ⟨⟩
      exact ⟨[], .nil, rfl⟩
    · rintro ⟨_, ⟨⟩, rfl⟩
      rfl
  | cons a as ih =>
    obtain ⟨b, bs, rfl⟩ := List.exists_cons_of_length_eq_add_one same.symm
    unfold joinStacks
    cases met : joinTypes graph a b with
    | error cause =>
      refine ⟨nofun, ?_⟩
      rintro ⟨_, meets, _⟩
      cases meets with
      | cons known _ => cases met.symm.trans known
    | ok type =>
      refine (ih (Nat.succ.inj same)).trans ⟨?_, ?_⟩
      · rintro ⟨types, meets, rfl⟩
        exact ⟨type :: types, .cons met meets, rfl⟩
      · rintro ⟨_, meets, rfl⟩
        cases meets with
        | cons known meets =>
          cases met.symm.trans known
          exact ⟨_, meets, rfl⟩

theorem join_ok : state.join graph other = .ok joined ↔ state.locks = other.locks ∧
    ∃ types, Meets graph state.stack.toList other.stack.toList types ∧
      joined = ⟨.ofList types, Array.zipWith (fun a b => if a = b then a else .undefined)
        state.locals other.locals, state.locks⟩ := by
  unfold join
  split
  · next differ =>
    refine ⟨nofun, ?_⟩
    rintro ⟨locks, types, meets, _⟩
    have lengths := (Meets.exists_iff.mp ⟨types, meets⟩).length_eq
    rw [SlotSeq.length_toList, SlotSeq.length_toList] at lengths
    exact absurd locks (differ.resolve_left (not_not_intro lengths))
  · next agree =>
    obtain ⟨lengths, locks⟩ := not_or.mp agree
    have entries (after : SlotSeq VType) :
        joinStacks graph (.empty 0) state.stack.toList other.stack.toList = .ok after ↔ _ :=
      joinStacks_ok (by rw [SlotSeq.length_toList, SlotSeq.length_toList, not_not.mp lengths])
    cases met : joinStacks graph (.empty 0) state.stack.toList other.stack.toList with
    | error cause =>
      refine ⟨nofun, ?_⟩
      rintro ⟨_, types, meets, _⟩
      cases met.symm.trans ((entries _).mpr ⟨types, meets, rfl⟩)
    | ok stack =>
      constructor
      · rintro ⟨⟩
        obtain ⟨types, meets, rfl⟩ := (entries stack).mp met
        exact ⟨not_not.mp locks, types, meets, rfl⟩
      · rintro ⟨_, types, meets, rfl⟩
        cases met.symm.trans ((entries _).mpr ⟨types, meets, rfl⟩)
        rfl

theorem getElem?_join {register : Nat} {slot : LocalSlot}
    (run : state.join graph other = .ok joined) (known : slot ≠ .undefined) : joined.locals[register]? = some slot ↔
      state.locals[register]? = some slot ∧ other.locals[register]? = some slot := by
  obtain ⟨_, _, _, rfl⟩ := join_ok.mp run
  simp only [Array.getElem?_zipWith]
  cases state.locals[register]? <;> cases other.locals[register]? <;> grind

theorem local?_eq_some :
    state.local? register = some type ↔ state.locals[register.toNat]? = some (.defined type) := by
  unfold local?
  split <;> simp_all

theorem local?_join (run : state.join graph other = .ok joined) :
    joined.local? register = some type ↔
      state.local? register = some type ∧ other.local? register = some type := by
  simp only [local?_eq_some]
  exact getElem?_join run (by nofun)

theorem Paired.join (paired : Paired state.locals) (paired' : Paired other.locals)
    (run : state.join graph other = .ok joined) : Paired joined.locals := by
  intro register type defined wide
  obtain ⟨left, right⟩ := (getElem?_join run (by nofun)).mp defined
  exact (getElem?_join run (by nofun)).mpr ⟨paired _ _ left wide, paired' _ _ right wide⟩

/-- Two paths can meet exactly if they hold the same monitors and can agree on every entry of their
stacks. The order of the paths does not matter, a path meets itself without any change, and where
two of them meet the stack is above both of theirs and the registers are those they agree on. -/
theorem join_is_symmetric_merge (graph : ClassGraph) (state other : State) :
    ((∃ joined, state.join graph other = .ok joined) ↔
      state.stack.size = other.stack.size ∧ state.locks = other.locks ∧
        Forall₂ Joinable state.stack.toList other.stack.toList) ∧
    (state.stack = .ofList state.stack.toList → state.join graph state = .ok state) ∧
    (graph.Hierarchical → ∀ joined,
      state.join graph other = .ok joined ↔ other.join graph state = .ok joined) ∧
    ∀ joined, state.join graph other = .ok joined →
      (graph.Hierarchical → Forall₂ (Below graph) state.stack.toList joined.stack.toList ∧
        Forall₂ (Below graph) other.stack.toList joined.stack.toList) ∧
      (∀ register type, joined.local? register = some type ↔
        state.local? register = some type ∧ other.local? register = some type) ∧
      (Paired state.locals → Paired other.locals → Paired joined.locals) := by
  refine ⟨⟨?_, ?_⟩, fun built => ?_, fun formed joined => ?_, fun joined run => ⟨fun formed => ?_,
    fun register type => local?_join run, fun paired paired' => paired.join paired' run⟩⟩
  · rintro ⟨joined, run⟩
    obtain ⟨locks, types, meets, _⟩ := join_ok.mp run
    have agree := Meets.exists_iff.mp ⟨types, meets⟩
    exact ⟨by rw [← SlotSeq.length_toList, agree.length_eq, SlotSeq.length_toList], locks, agree⟩
  · rintro ⟨_, locks, agree⟩
    obtain ⟨types, meets⟩ := Meets.exists_iff.mpr agree
    exact ⟨_, join_ok.mpr ⟨locks, types, meets, rfl⟩⟩
  · refine join_ok.mpr ⟨rfl, _, .self _, ?_⟩
    rw [← built]
    simp
  · have swap {state other : State} (run : state.join graph other = .ok joined) :
        other.join graph state = .ok joined := by
      obtain ⟨locks, types, meets, rfl⟩ := join_ok.mp run
      refine join_ok.mpr ⟨locks.symm, types, meets.symm formed, ?_⟩
      rw [locks, Array.zipWith_comm]
      simp only [eq_comm]
      grind
    exact ⟨swap, swap⟩
  · obtain ⟨_, types, meets, rfl⟩ := join_ok.mp run
    rw [SlotSeq.toList_ofList]
    exact ⟨meets.above formed, (meets.symm formed).above formed⟩

/-- On the stack a reference to an instance of the class, and a wide value in the first registers. -/
def holding (name : BinaryName) : State := (empty.push (.object (.object name))).setLocal 0 .long

theorem join_is_symmetric_merge_pets : ∃ joined,
    (holding ⟨"Dog"⟩).join .pets (holding ⟨"Cat"⟩) = .ok joined ∧
    (holding ⟨"Cat"⟩).join .pets (holding ⟨"Dog"⟩) = .ok joined ∧
    (holding ⟨"Dog"⟩).join .pets (holding ⟨"Dog"⟩) = .ok (holding ⟨"Dog"⟩) ∧
    Forall₂ (Below .pets) (holding ⟨"Dog"⟩).stack.toList joined.stack.toList ∧
    joined.local? 0 = some .long ∧ Paired joined.locals := by
  have formed := ClassGraph.pets_hierarchical
  have locals (name : BinaryName) : (holding name).locals = #[.defined .long, .upper] := rfl
  have paired (name : BinaryName) : Paired (holding name).locals := by
    intro register type known _
    rw [locals] at known ⊢
    match register with
    | 0 => rfl
    | 1 => simp at known
    | _ + 2 => simp at known
  obtain ⟨succeeds, self, swap, above⟩ :=
    join_is_symmetric_merge .pets (holding ⟨"Dog"⟩) (holding ⟨"Cat"⟩)
  obtain ⟨joined, run⟩ :=
    succeeds.mpr ⟨rfl, rfl, .cons (.inr (.inr (.inr ⟨_, _, rfl, rfl⟩))) .nil⟩
  obtain ⟨stack, defined, wide⟩ := above joined run
  exact ⟨joined, run, (swap formed joined).mp run, self rfl, (stack formed).1,
    (defined 0 .long).mpr ⟨rfl, rfl⟩, wide (paired _) (paired _)⟩

end ClassForge.State
