import ClassForge.Proofs.SlotLayout
import ClassForge.Verification
import Mathlib

namespace ClassForge.SlotSeq

variable {α : Type} [Width α] {s : SlotSeq α} {a : α} {start offset index : Nat}

/-- Sequences that come about from the empty one. Updates in place keep the widths. -/
inductive Built (start : Nat) : SlotSeq α → Prop where
  | empty : Built start (empty start)
  | push {s : SlotSeq α} (a : α) : Built start s → Built start (s.push a)
  | pop {s rest : SlotSeq α} {offset : Nat} {a : α} :
      Built start s → s.pop? = some (offset, a, rest) → Built start rest
  | truncate {s : SlotSeq α} (index : Nat) : Built start s → Built start (s.truncate index)
  | clear {s : SlotSeq α} : Built start s → Built start s.clear
  | set {s : SlotSeq α} (offset : Nat) (a : α) : Built start s → Built start (s.set offset a).2
  | setLast {s : SlotSeq α} {a : α} : Built start s →
      (∀ old, s.last? = some old → Width.width a = Width.width old) → Built start (s.setLast a)
  | map {s : SlotSeq α} {f : α → α} : Built start s →
      (∀ a ∈ s.toList, Width.width (f a) = Width.width a) → Built start (s.map f)

/-- Storing at an offset appends, replaces an element by one of the same width, or fails and leaves
the sequence as it is. -/
theorem set_cases (s : SlotSeq α) (offset : Nat) (a : α) :
    (offset = s.next ∧ s.set offset a = (.found s.size (), s.push a)) ∨
    (∃ index old, s.at? offset = .found index old ∧ Width.width old = Width.width a ∧
      s.set offset a =
        (.found index (), { s with entries := s.entries.setIfInBounds index (offset, a) })) ∨
    (offset ≠ s.next ∧
      (∀ index old, s.at? offset = .found index old → Width.width old ≠ Width.width a) ∧
      (∀ index, (s.set offset a).1 ≠ .found index ()) ∧ (s.set offset a).2 = s) := by
  unfold SlotSeq.set
  split
  · next same => exact .inl ⟨same, rfl⟩
  · next away =>
    cases known : s.at? offset with
    | found index old =>
      by_cases fits : Width.width old = Width.width a
      · exact .inr (.inl ⟨index, old, rfl, fits, if_pos fits⟩)
      · dsimp only
        rw [if_neg fits]
        refine .inr (.inr ⟨away, fun _ _ again => ?_, by simp, rfl⟩)
        cases again
        exact fits
    | _ => simp [away]

section Wide

variable (wide : ∀ a : α, 0 < Width.width a)
include wide

theorem Packed.set (packed : s.Packed) (offset : Nat) (a : α) :
    (s.set offset a).2.Packed ∧ (s.set offset a).2.start = s.start := by
  rcases s.set_cases offset a with ⟨-, append⟩ | ⟨index, old, found, fits, replace⟩ | ⟨-, -, -, same⟩
  · rw [append]
    exact ⟨packed.push, rfl⟩
  · rw [replace]
    refine ⟨packed.of_widths rfl rfl ?_, rfl⟩
    rw [(packed.neat wide).at?_eq_found, ← Array.getElem?_toList] at found
    rw [Array.toList_setIfInBounds, List.map_set, Prod.map_apply, ← fits]
    have here : (s.entries.toList.map (Prod.map id Width.width))[index]? = some (offset, Width.width old) := by
      rw [List.getElem?_map, found]
      rfl
    obtain ⟨inside, same⟩ := List.getElem?_eq_some_iff.mp here
    rw [id_eq, ← same, List.set_getElem_self]
  · rw [same]
    exact ⟨packed, rfl⟩

theorem Built.packed (built : Built start s) : s.Packed ∧ s.start = start := by
  induction built with
  | empty => exact ⟨packed_empty start, rfl⟩
  | push a _ ih => exact ⟨ih.1.push, ih.2⟩
  | pop _ popped ih => exact ⟨(ih.1.pop popped).1, (ih.1.pop popped).2.trans ih.2⟩
  | truncate index _ ih =>
    refine ⟨ih.1.truncate _, ?_⟩
    unfold SlotSeq.truncate
    split <;> exact ih.2
  | clear _ ih => exact ⟨packed_empty _, ih.2⟩
  | set offset a _ ih => exact ⟨(ih.1.set wide _ _).1, (ih.1.set wide _ _).2.trans ih.2⟩
  | setLast _ fits ih => exact ⟨ih.1.setLast fits, (next_setLast _).2.trans ih.2⟩
  | map _ fits ih => exact ⟨ih.1.map fits, ih.2⟩

theorem Packed.at?_eq_found (packed : s.Packed) :
    s.at? offset = .found index a ↔
      s.toList[index]? = some a ∧ offset = s.start + s.before index := by
  rw [(packed.neat wide).at?_eq_found, packed.getElem?]

/-- In a sequence that was built, each element starts behind those before it, an offset gives the one
element that starts there, and storing changes that element only, appends, or changes nothing. -/
theorem Built.layout_exact (built : Built start s) :
    s.entries.toList = s.toList.mapIdx (fun index a => (start + s.before index, a)) ∧
    s.next = start + slots s.toList ∧
    (∀ offset index a, s.at? offset = .found index a ↔
      s.toList[index]? = some a ∧ offset = start + s.before index) ∧
    (∀ index other, index < s.size → other < s.size → s.before index = s.before other →
      index = other) ∧
    ∀ offset a,
      (offset = s.next ∧ (s.set offset a).1 = .found s.size () ∧
        (s.set offset a).2.toList = s.toList ++ [a]) ∨
      (∃ index old, s.at? offset = .found index old ∧ Width.width old = Width.width a ∧
        (s.set offset a).1 = .found index () ∧ (s.set offset a).2.toList = s.toList.set index a) ∨
      (offset ≠ s.next ∧
        (∀ index old, s.at? offset = .found index old → Width.width old ≠ Width.width a) ∧
        (∀ index, (s.set offset a).1 ≠ .found index ()) ∧ (s.set offset a).2 = s) := by
  obtain ⟨packed, rfl⟩ := built.packed wide
  refine ⟨?_, packed.next, fun _ _ _ => packed.at?_eq_found wide,
    fun index other inside within same => ?_, fun offset a => ?_⟩
  · refine List.ext_getElem? fun index => ?_
    rw [packed.entries, getElem?_layout, List.getElem?_mapIdx]
    rfl
  · rw [← length_toList] at inside within
    have first := (packed.at?_eq_found wide).mpr ⟨List.getElem?_eq_getElem inside, rfl⟩
    have second := (packed.at?_eq_found wide).mpr ⟨List.getElem?_eq_getElem within, rfl⟩
    rw [same] at first
    cases first.symm.trans second
    rfl
  · rcases s.set_cases offset a with ⟨same, done⟩ | ⟨index, old, found, fits, done⟩ | failed
    · exact .inl ⟨same, by rw [done], by rw [done, toList_push]⟩
    · refine .inr (.inl ⟨index, old, found, fits, by rw [done], ?_⟩)
      rw [done]
      simp [SlotSeq.toList, List.map_set]
    · exact .inr (.inr failed)

end Wide

theorem layout_exact_pair :
    Built 4 (((empty 4).push .long).push .float : SlotSeq VType) ∧
      (((empty 4).push .long).push .float : SlotSeq VType).at? 6 = .found 1 .float :=
  ⟨.push _ (.push _ .empty), ((Built.layout_exact VerificationType.width_pos
    (.push _ (.push _ .empty))).2.2.1 6 1 .float).mpr ⟨rfl, rfl⟩⟩

/-- The offset is in the element at the index, behind its first slot. -/
def Inside (s : SlotSeq α) (index offset : Nat) : Prop :=
  ∃ a, s.toList[index]? = some a ∧ s.start + s.before index < offset ∧
    offset < s.start + s.before index + Width.width a

theorem before_succ (found : s.toList[index]? = some a) :
    s.before (index + 1) = s.before index + Width.width a := by
  rw [before, List.take_add_one, found, slots_append]
  rfl

theorem before_mono (s : SlotSeq α) : Monotone s.before := by
  intro index other ordered
  obtain ⟨more, rfl⟩ := Nat.exists_eq_add_of_le ordered
  rw [before, before, List.take_add, slots_append]
  exact Nat.le_add_right _ _

theorem exists_slot {items : List α} {slot : Nat} (inside : slot < slots items) :
    ∃ index a, items[index]? = some a ∧ slots (items.take index) ≤ slot ∧
      slot < slots (items.take index) + Width.width a := by
  induction items generalizing slot with
  | nil => cases inside
  | cons a rest ih =>
    rw [slots_cons] at inside
    rcases Nat.lt_or_ge slot (Width.width a) with here | later
    · exact ⟨0, a, rfl, Nat.zero_le _, here.trans_le (Nat.le_add_left _ _)⟩
    · obtain ⟨index, b, found, low, high⟩ := ih (by omega : slot - Width.width a < slots rest)
      refine ⟨index + 1, b, found, ?_⟩
      rw [List.take_succ_cons, slots_cons]
      omega

section Classified

variable (wide : ∀ a : α, 0 < Width.width a) (packed : s.Packed)
include wide packed

/-- What an offset in an element gives. -/
theorem Packed.at?_of_slot (found : s.toList[index]? = some a) (low : s.start + s.before index ≤ offset)
    (high : offset < s.start + s.before index + Width.width a) :
    s.at? offset = if s.start + s.before index = offset then .found index a
      else if index + 1 < s.size then .inside (index + 1) else .beyond := by
  refine (packed.neat wide).at?_of_splits ⟨?_, fun i entry known => ?_⟩ (packed.getElem?.mpr ⟨found, rfl⟩)
  · exact s.length_toList ▸ (List.getElem?_eq_some_iff.mp found).1
  · rw [(packed.getElem?.mp known).2]
    rw [Nat.add_assoc, ← before_succ found] at high
    constructor
    · intro early
      by_contra more
      have order := s.before_mono (not_lt.mp more)
      omega
    · intro less
      have order := s.before_mono (Nat.le_of_lt_succ less)
      omega

theorem Packed.at?_beyond (far : s.next ≤ offset) : s.at? offset = .beyond := by
  have neat := packed.neat wide
  have low {i : Nat} {entry : Nat × α} (known : s.entries[i]? = some entry) : entry.1 < offset :=
    (neat.below entry (Array.mem_toList_iff.mpr (Array.mem_of_getElem? known))).trans_le far
  have split : s.Splits offset s.size := ⟨le_rfl, fun i entry known =>
    ⟨fun _ => (Array.getElem?_eq_some_iff.mp known).1, fun _ => (low known).le⟩⟩
  have count := ((neat.countUpTo offset).le split).antisymm (split.le (neat.countUpTo offset))
  unfold SlotSeq.at?
  dsimp only
  rw [count, if_neg (lt_irrefl _)]
  split
  · rfl
  · split
    · next known => rw [if_neg (low known).ne]
    · rfl

theorem Packed.at?_inside (inside : s.Inside index offset) :
    s.at? offset = if index + 1 < s.size then .inside (index + 1) else .beyond := by
  obtain ⟨a, found, above, below⟩ := inside
  rw [packed.at?_of_slot wide found above.le below, if_neg above.ne]

theorem Packed.at?_cases (low : s.start ≤ offset) :
    (∃ index a, s.at? offset = .found index a) ∨ (∃ index, s.Inside index offset) ∨
      s.next ≤ offset := by
  rcases Nat.lt_or_ge offset s.next with high | far
  · rw [packed.next] at high
    obtain ⟨index, a, found, above, below⟩ := exists_slot (by omega : offset - s.start < slots s.toList)
    by_cases first : s.start + s.before index = offset
    · exact .inl ⟨index, a, (packed.at?_eq_found wide).mpr ⟨found, first.symm⟩⟩
    · unfold before at first
      exact .inr (.inl ⟨index, a, found, by unfold before; omega, by unfold before; omega⟩)
  · exact .inr (.inr far)

end Classified

/-- An offset that is not before the first slot is told to be inside when it is behind the first slot
of an element other than the last one. Behind the first slot of the last one, it is taken to be past
the end. -/
theorem Built.at?_classifies (wide : ∀ a : α, 0 < Width.width a) (built : Built start s)
    (low : start ≤ offset) :
    ((∃ index, s.at? offset = .inside index) ↔
      ∃ index, s.Inside index offset ∧ index + 1 < s.size) ∧
    (s.at? offset = .beyond ↔
      s.next ≤ offset ∨ ∃ index, s.Inside index offset ∧ index + 1 = s.size) ∧
    ∀ a, (s.set s.next a).1 = .found s.size () ∧ (offset ≠ s.next →
      (∀ index, (s.set offset a).1 = .inside index ↔ s.at? offset = .inside index) ∧
      ((s.set offset a).1 = .beyond ↔ s.at? offset = .beyond)) := by
  obtain ⟨packed, rfl⟩ := built.packed wide
  have three := packed.at?_cases wide low
  refine ⟨⟨?_, ?_⟩, ⟨?_, ?_⟩, fun a => ⟨?_, fun away => ?_⟩⟩
  · rintro ⟨index, known⟩
    rcases three with ⟨_, _, found⟩ | ⟨other, inside⟩ | far
    · cases known.symm.trans found
    · refine ⟨other, inside, ?_⟩
      by_contra last
      rw [packed.at?_inside wide inside, if_neg last] at known
      cases known
    · cases known.symm.trans (packed.at?_beyond wide far)
  · rintro ⟨index, inside, more⟩
    exact ⟨_, (packed.at?_inside wide inside).trans (if_pos more)⟩
  · intro known
    rcases three with ⟨_, _, found⟩ | ⟨index, inside⟩ | far
    · cases known.symm.trans found
    · refine .inr ⟨index, inside, ?_⟩
      by_contra more
      have size := s.length_toList ▸ (List.getElem?_eq_some_iff.mp inside.choose_spec.1).1
      rw [packed.at?_inside wide inside, if_pos (lt_of_le_of_ne size more)] at known
      cases known
    · exact .inl far
  · rintro (far | ⟨index, inside, last⟩)
    · exact packed.at?_beyond wide far
    · exact (packed.at?_inside wide inside).trans (if_neg last.not_lt)
  · rw [SlotSeq.set, if_pos rfl]
  · unfold SlotSeq.set
    rw [if_neg away]
    cases s.at? offset with
    | found index old =>
      dsimp only
      split <;> simp
    | _ => simp

theorem at?_classifies_pair :
    ∃ index, (((empty 4).push .long).push .float : SlotSeq VType).at? 5 = .inside index :=
  (Built.at?_classifies VerificationType.width_pos (.push _ (.push _ .empty)) (by decide)).1.mpr
    ⟨0, ⟨.long, rfl, by decide⟩, by decide⟩

/-- The second slot of a last wide element is taken to be past the end. -/
theorem at?_last_upper :
    Built 0 ((empty 0).push .long : SlotSeq VType) ∧
      ((empty 0).push .long : SlotSeq VType).Inside 0 1 ∧
      ((empty 0).push .long : SlotSeq VType).at? 1 = .beyond :=
  have inside : ((empty 0).push .long : SlotSeq VType).Inside 0 1 := ⟨.long, rfl, by decide⟩
  ⟨.push _ .empty, inside, Packed.at?_inside VerificationType.width_pos (packed_empty 0).push inside⟩

end ClassForge.SlotSeq
