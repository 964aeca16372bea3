import ClassForge.Slots
import Mathlib.Data.List.Perm.Subperm
import Mathlib.Order.Nat

namespace ClassForge

-- Zeros are the literals, also where a ring would give others.
attribute [local instance (2000)] Zero.ofOfNat0

theorem length_le_of_sorted {α : Type} {rows : List (Nat × α)} {bound : Nat}
    (sorted : rows.Pairwise (·.1 < ·.1)) (below : ∀ row ∈ rows, row.1 < bound) :
    rows.length ≤ bound := by
  rw [← List.pairwise_map (f := Prod.fst) (R := (· < ·))] at sorted
  have inside : rows.map (·.1) ⊆ List.range bound := by
    intro position member
    obtain ⟨row, found, rfl⟩ := List.mem_map.mp member
    exact List.mem_range.mpr (below row found)
  have distinct : (rows.map (·.1)).Nodup := sorted.imp fun less => less.ne
  simpa using (List.subperm_of_subset distinct inside).length_le

namespace SlotSeq

variable {α : Type} {s rest : SlotSeq α} {entry : Nat × α}

/-- The offsets go up, and all are below the next one. -/
structure Neat (s : SlotSeq α) : Prop where
  sorted : s.entries.toList.Pairwise (·.1 < ·.1)
  below : ∀ entry ∈ s.entries.toList, entry.1 < s.next

theorem neat_empty (start : Nat) : (empty start : SlotSeq α).Neat :=
  ⟨.nil, nofun⟩

theorem Neat.push [Width α] {a : α} (neat : s.Neat) (wide : 0 < Width.width a) : (s.push a).Neat where
  sorted := by
    rw [SlotSeq.push, Array.toList_push, List.pairwise_append]
    refine ⟨neat.sorted, List.pairwise_singleton _ _, fun entry member new last => ?_⟩
    cases List.mem_singleton.mp last
    exact neat.below entry member
  below entry member := by
    rw [SlotSeq.push, Array.toList_push] at member
    change entry.1 < s.next + Width.width a
    rcases List.mem_append.mp member with old | new
    · exact Nat.lt_add_right _ (neat.below entry old)
    · cases List.mem_singleton.mp new
      omega

theorem eq_of_back? {offset : Nat} {a : α} (last : s.entries.back? = some (offset, a)) :
    s.entries = s.entries.pop.push (offset, a) := by
  have some : s.entries.size ≠ 0 := by
    intro none
    rw [Array.eq_empty_of_size_eq_zero none] at last
    cases last
  obtain ⟨front, final, same⟩ := Array.eq_push_of_size_ne_zero some
  rw [same, Array.back?_push] at last
  cases last
  rw [same, Array.pop_push]

theorem Neat.pop {offset : Nat} {a : α} (neat : s.Neat) (popped : s.pop? = some (offset, a, rest)) :
    rest.Neat ∧ rest.next ≤ s.next := by
  unfold pop? at popped
  split at popped
  · cases popped
  · next last =>
    cases popped
    have sorted := neat.sorted
    have below := neat.below
    rw [eq_of_back? last, Array.toList_push] at sorted below
    rw [List.pairwise_append] at sorted
    refine ⟨⟨sorted.1, fun entry member => ?_⟩, ?_⟩
    · exact sorted.2.2 entry member _ (.head _)
    · exact (below _ (List.mem_append_right _ (.head _))).le

theorem Neat.of_offsets {other : SlotSeq α} (neat : s.Neat)
    (offsets : other.entries.toList.map (·.1) = s.entries.toList.map (·.1))
    (next : other.next = s.next) : other.Neat where
  sorted := by
    have sorted := neat.sorted
    rw [← List.pairwise_map (f := Prod.fst) (R := (· < ·))] at sorted ⊢
    rw [offsets]
    exact sorted
  below entry member := by
    have found : entry.1 ∈ s.entries.toList.map (·.1) :=
      offsets ▸ List.mem_map_of_mem member
    obtain ⟨old, inside, same⟩ := List.mem_map.mp found
    rw [next, ← same]
    exact neat.below old inside

theorem Neat.setLast (neat : s.Neat) (a : α) : (s.setLast a).Neat := by
  unfold SlotSeq.setLast
  split
  · exact neat
  · next offset _ last =>
    refine neat.of_offsets ?_ rfl
    rw [eq_of_back? last]
    simp

theorem Neat.map (neat : s.Neat) (f : α → α) : (s.map f).Neat := by
  refine neat.of_offsets ?_ rfl
  simp [SlotSeq.map, Function.comp_def]

theorem Neat.size_le (neat : s.Neat) : s.entries.size ≤ s.next :=
  length_le_of_sorted neat.sorted neat.below

theorem length_toList (s : SlotSeq α) : s.toList.length = s.size := by
  rw [SlotSeq.toList, List.length_map]
  rfl

theorem next_setLast (a : α) : (s.setLast a).next = s.next ∧ (s.setLast a).start = s.start := by
  unfold SlotSeq.setLast
  split <;> exact ⟨rfl, rfl⟩

/-- The elements with their offsets, the first one at `start` and each of the others behind the one
before it. -/
def layout [Width α] (start : Nat) : List α → List (Nat × α)
  | [] => []
  | a :: rest => (start, a) :: layout (start + Width.width a) rest

def slots [Width α] (items : List α) : Nat := (items.map Width.width).sum

/-- The elements follow each other without gaps. -/
structure Packed [Width α] (s : SlotSeq α) : Prop where
  entries : s.entries.toList = layout s.start s.toList
  next : s.next = s.start + slots s.toList

section Packing

variable [Width α] {other : SlotSeq α} {a : α}

@[simp] theorem slots_cons (rest : List α) : slots (a :: rest) = Width.width a + slots rest := rfl

theorem slots_append (items more : List α) : slots (items ++ more) = slots items + slots more := by
  simp [slots]

theorem layout_append (start : Nat) (items more : List α) :
    layout start (items ++ more) = layout start items ++ layout (start + slots items) more := by
  induction items generalizing start with
  | nil => rfl
  | cons a rest ih =>
    rw [List.cons_append, layout, ih, slots_cons, ← Nat.add_assoc]
    rfl

theorem toList_push : (s.push a).toList = s.toList ++ [a] := by
  simp [SlotSeq.toList, SlotSeq.push]

theorem packed_empty (start : Nat) : (empty start : SlotSeq α).Packed := ⟨rfl, rfl⟩

theorem Packed.push (packed : s.Packed) : (s.push a).Packed where
  entries := by
    rw [toList_push]
    change _ = layout s.start _
    rw [layout_append, ← packed.entries, ← packed.next]
    exact Array.toList_push
  next := by
    rw [toList_push, slots_append, ← Nat.add_assoc]
    change s.next + Width.width a = s.start + slots s.toList + (Width.width a + 0)
    rw [← packed.next, Nat.add_zero]

theorem toList_pushAll (items : List α) : (s.pushAll items).toList = s.toList ++ items := by
  induction items generalizing s with
  | nil => exact (List.append_nil _).symm
  | cons a rest ih =>
    refine ih.trans ?_
    rw [toList_push, List.append_assoc]
    rfl

theorem Packed.pushAll (packed : s.Packed) (items : List α) :
    (s.pushAll items).Packed ∧ (s.pushAll items).start = s.start := by
  induction items generalizing s with
  | nil => exact ⟨packed, rfl⟩
  | cons a rest ih => exact ih (packed.push (a := a))

theorem Packed.ext (packed : s.Packed) (more : other.Packed) (start : s.start = other.start)
    (same : s.toList = other.toList) : s = other := by
  have entries : s.entries = other.entries := by
    rw [← Array.toList_inj, packed.entries, more.entries, start, same]
  have next : s.next = other.next := by
    rw [packed.next, more.next, start, same]
  cases s
  cases other
  cases entries
  cases next
  cases start
  rfl

theorem Packed.eq_pushAll (packed : s.Packed) : (empty s.start).pushAll s.toList = s := by
  obtain ⟨still, start⟩ := (packed_empty s.start).pushAll s.toList
  exact still.ext packed start (toList_pushAll _)

theorem toList_ofList (items : List α) : (ofList items).toList = items :=
  toList_pushAll items

theorem packed_ofList (items : List α) : (ofList items).Packed := ((packed_empty 0).pushAll items).1

theorem exists_ofList : (∃ items, s = ofList items) ↔ s.Packed ∧ s.start = 0 := by
  constructor
  · rintro ⟨items, rfl⟩
    exact ⟨packed_ofList items, ((packed_empty 0).pushAll items).2⟩
  · rintro ⟨packed, start⟩
    exact ⟨s.toList, packed.eq_pushAll.symm.trans (by rw [start]; rfl)⟩

theorem entries_ofList (items : List α) : (ofList items).entries.toList = layout 0 items := by
  rw [(packed_ofList items).entries, toList_ofList]
  exact congrArg (layout · items) ((packed_empty 0).pushAll items).2

theorem next_ofList (items : List α) : (ofList items).next = slots items := by
  rw [(packed_ofList items).next, toList_ofList]
  exact (congrArg (· + slots items) ((packed_empty 0).pushAll items).2).trans (Nat.zero_add _)

theorem start_le_of_mem_layout {start : Nat} {items : List α} (member : entry ∈ layout start items) :
    start ≤ entry.1 ∧ entry.1 + Width.width entry.2 ≤ start + slots items := by
  induction items generalizing start with
  | nil => cases member
  | cons a rest ih =>
    rw [slots_cons]
    rcases List.mem_cons.mp member with rfl | later
    · exact ⟨le_rfl, by dsimp only; omega⟩
    · have bounds := ih later
      omega

theorem sorted_layout (wide : ∀ a : α, 0 < Width.width a) (start : Nat) (items : List α) :
    (layout start items).Pairwise (·.1 < ·.1) := by
  induction items generalizing start with
  | nil => exact .nil
  | cons a rest ih =>
    refine .cons (fun entry member => ?_) (ih _)
    have bounds := start_le_of_mem_layout member
    have some := wide a
    dsimp only
    omega

theorem Packed.neat (wide : ∀ a : α, 0 < Width.width a) (packed : s.Packed) : s.Neat where
  sorted := by
    rw [packed.entries]
    exact sorted_layout wide _ _
  below entry member := by
    rw [packed.entries] at member
    have bounds := start_le_of_mem_layout member
    have some := wide entry.2
    rw [packed.next]
    omega

theorem Packed.start_le (packed : s.Packed) (member : entry ∈ s.entries.toList) :
    s.start ≤ entry.1 := by
  rw [packed.entries] at member
  exact (start_le_of_mem_layout member).1

theorem layout_congr {start : Nat} {rows old : List (Nat × α)}
    (packed : old = layout start (old.map (·.2)))
    (same : rows.map (Prod.map id Width.width) = old.map (Prod.map id Width.width)) :
    rows = layout start (rows.map (·.2)) := by
  induction rows generalizing old start with
  | nil => rfl
  | cons row rest ih =>
    cases old with
    | nil => cases same
    | cons first more =>
      obtain ⟨head, tail⟩ := List.cons.inj same
      obtain ⟨here, after⟩ := List.cons.inj packed
      obtain ⟨offset, width⟩ := Prod.mk.inj head
      have placed : row.1 = start := offset.trans (congrArg Prod.fst here)
      dsimp only at after
      rw [← width] at after
      rw [List.map_cons, layout, ← ih after tail, ← placed]

/-- Elements of the same widths at the same offsets are packed alike. -/
theorem Packed.of_widths (packed : s.Packed) (start : other.start = s.start)
    (next : other.next = s.next)
    (same : other.entries.toList.map (Prod.map id Width.width) =
      s.entries.toList.map (Prod.map id Width.width)) : other.Packed where
  entries := by
    rw [start]
    exact layout_congr packed.entries same
  next := by
    have widths := congrArg (List.map Prod.snd) same
    rw [List.map_map, List.map_map] at widths
    rw [next, packed.next, start]
    simp only [slots, SlotSeq.toList, List.map_map]
    exact congrArg (fun widths => s.start + List.sum widths) widths.symm

theorem Packed.setLast (packed : s.Packed)
    (fits : ∀ old, s.last? = some old → Width.width a = Width.width old) : (s.setLast a).Packed := by
  unfold SlotSeq.setLast
  split
  · exact packed
  · next offset old last =>
    have width := fits old (by rw [SlotSeq.last?, last]; rfl)
    refine packed.of_widths rfl rfl ?_
    rw [eq_of_back? last]
    simp [width]

theorem Packed.map {f : α → α} (packed : s.Packed)
    (fits : ∀ a ∈ s.toList, Width.width (f a) = Width.width a) : (s.map f).Packed := by
  refine packed.of_widths rfl rfl ?_
  simp only [SlotSeq.map, Array.toList_map, List.map_map]
  exact List.map_congr_left fun row member => Prod.ext rfl (fits row.2 (List.mem_map_of_mem member))

def before (s : SlotSeq α) (index : Nat) : Nat := slots (s.toList.take index)

theorem getElem?_layout (start : Nat) (items : List α) (index : Nat) :
    (layout start items)[index]? =
      items[index]?.map fun a => (start + slots (items.take index), a) := by
  induction items generalizing start index with
  | nil => rfl
  | cons a rest ih =>
    cases index with
    | zero => rfl
    | succ index =>
      rw [layout, List.getElem?_cons_succ, List.getElem?_cons_succ, ih, List.take_succ_cons, slots_cons]
      simp only [Nat.add_assoc]

theorem Packed.getElem? {index offset : Nat} (packed : s.Packed) :
    s.entries[index]? = some (offset, a) ↔
      s.toList[index]? = some a ∧ offset = s.start + s.before index := by
  rw [← Array.getElem?_toList, packed.entries, getElem?_layout]
  cases s.toList[index]? <;> simp [before, eq_comm, and_comm]

theorem take_layout (start : Nat) (items : List α) (index : Nat) :
    (layout start items).take index = layout start (items.take index) := by
  refine List.ext_getElem? fun i => ?_
  rw [List.getElem?_take, getElem?_layout, getElem?_layout, List.getElem?_take]
  split
  · next less => rw [List.take_take, Nat.min_eq_left less.le]
  · rfl

theorem Packed.truncate (packed : s.Packed) (index : Nat) : (s.truncate index).Packed := by
  unfold SlotSeq.truncate
  split
  · exact packed
  · next offset a found =>
    have kept : (s.entries.take index).toList = s.entries.toList.take index := by simp [Array.take]
    have list : (s.entries.take index).toList.map (·.2) = s.toList.take index := by
      rw [kept, SlotSeq.toList, List.map_take]
    constructor
    · change (s.entries.take index).toList = layout s.start ((s.entries.take index).toList.map (·.2))
      rw [list, ← take_layout, kept, packed.entries]
    · exact (packed.getElem?.mp found).2.trans (congrArg (s.start + slots ·) list.symm)

theorem Packed.pop {offset : Nat} (packed : s.Packed) (popped : s.pop? = some (offset, a, rest)) :
    rest.Packed ∧ rest.start = s.start := by
  unfold pop? at popped
  split at popped
  · cases popped
  · next last =>
    cases popped
    have cut := packed.truncate (s.entries.size - 1)
    rw [Array.back?] at last
    unfold SlotSeq.truncate at cut
    rw [last] at cut
    exact ⟨by simpa using cut, rfl⟩

end Packing

section Lookup

variable {offset index : Nat} {a : α}

/-- The elements before the position are those that start at the offset or before it. -/
def Splits (s : SlotSeq α) (offset position : Nat) : Prop :=
  position ≤ s.size ∧
    ∀ i entry, s.entries[i]? = some entry → (entry.1 ≤ offset ↔ i < position)

theorem Neat.lt (neat : s.Neat) {i j : Nat} {later : Nat × α} (less : i < j)
    (first : s.entries[i]? = some entry) (second : s.entries[j]? = some later) :
    entry.1 < later.1 := by
  rw [← Array.getElem?_toList] at first second
  obtain ⟨inside, rfl⟩ := List.getElem?_eq_some_iff.mp first
  obtain ⟨within, rfl⟩ := List.getElem?_eq_some_iff.mp second
  exact List.pairwise_iff_getElem.mp neat.sorted i j inside within less

theorem Neat.countBetween (neat : s.Neat) {low high : Nat} (ordered : low ≤ high)
    (inside : high ≤ s.size)
    (before : ∀ i entry, i < low → s.entries[i]? = some entry → entry.1 ≤ offset)
    (after : ∀ i entry, high ≤ i → s.entries[i]? = some entry → offset < entry.1) :
    s.Splits offset (s.countBetween offset low high) := by
  fun_induction SlotSeq.countBetween s offset low high with
  | case1 low high open_ middle start value found early ih =>
    refine ih (by omega) inside (fun i entry less known => ?_) after
    rcases Nat.lt_or_eq_of_le (Nat.le_of_lt_succ less) with sooner | rfl
    · exact (neat.lt sooner known found).le.trans early
    · rw [found] at known
      cases known
      exact early
  | case2 low high open_ middle start value found late ih =>
    refine ih (by omega) (by omega) before (fun i entry most known => ?_)
    rcases Nat.lt_or_eq_of_le most with later | rfl
    · exact (Nat.lt_of_not_le late).trans (neat.lt later found known)
    · rw [found] at known
      cases known
      exact Nat.lt_of_not_le late
  | case3 low high open_ middle missing =>
    rw [Array.getElem?_eq_none_iff] at missing
    have size : s.size = s.entries.size := rfl
    omega
  | case4 low high closed =>
    refine ⟨by omega, fun i entry known => ⟨fun small => ?_, fun less => before i entry less known⟩⟩
    by_contra beyond
    have large := after i entry (by omega) known
    omega

theorem Neat.countUpTo (neat : s.Neat) (offset : Nat) : s.Splits offset (s.countUpTo offset) :=
  neat.countBetween (Nat.zero_le _) (le_rfl) (fun _ _ less => absurd less (Nat.not_lt_zero _))
    fun i entry most known => by
      have size : s.size = s.entries.size := rfl
      have inside := (Array.getElem?_eq_some_iff.mp known).1
      omega

theorem Splits.le {i j : Nat} (first : s.Splits offset i) (second : s.Splits offset j) : i ≤ j := by
  by_contra more
  have inside : j < s.entries.size := (Nat.lt_of_not_le more).trans_le first.1
  have known := Array.getElem?_eq_getElem inside
  exact lt_irrefl j ((second.2 j _ known).mp ((first.2 j _ known).mpr (Nat.lt_of_not_le more)))

theorem Neat.at?_of_splits {start : Nat} (neat : s.Neat) (split : s.Splits offset (index + 1))
    (last : s.entries[index]? = some (start, a)) :
    s.at? offset = if start = offset then .found index a
      else if index + 1 < s.size then .inside (index + 1) else .beyond := by
  have count := ((neat.countUpTo offset).le split).antisymm (split.le (neat.countUpTo offset))
  unfold SlotSeq.at?
  rw [count]
  dsimp only
  rw [last]

theorem Neat.at?_eq_found (neat : s.Neat) :
    s.at? offset = .found index a ↔ s.entries[index]? = some (offset, a) := by
  constructor
  · intro found
    unfold SlotSeq.at? at found
    dsimp only at found
    split at found
    · split at found <;> cases found
    · split at found
      · next known =>
        split at found
        · next same =>
          cases found
          rw [known, same]
        · split at found <;> cases found
      · split at found <;> cases found
  · intro known
    have inside : index + 1 ≤ s.size := (Array.getElem?_eq_some_iff.mp known).1
    refine (neat.at?_of_splits ⟨inside, fun i entry other => ?_⟩ known).trans (if_pos rfl)
    rcases lt_trichotomy i index with less | rfl | more
    · have := neat.lt less other known
      dsimp only at this
      omega
    · rw [known] at other
      cases other
      simp
    · have := neat.lt more known other
      dsimp only at this
      omega

theorem Neat.get?_eq_some (neat : s.Neat) :
    s.get? offset = some a ↔ (offset, a) ∈ s.entries.toList := by
  rw [List.mem_iff_getElem?]
  constructor
  · intro found
    unfold SlotSeq.get? at found
    split at found
    · next index known located =>
      cases found
      rw [neat.at?_eq_found] at located
      exact ⟨index, by rw [Array.getElem?_toList]; exact located⟩
    · cases found
  · rintro ⟨index, known⟩
    rw [Array.getElem?_toList] at known
    unfold SlotSeq.get?
    rw [neat.at?_eq_found.mpr known]

theorem Neat.get?_push [Width α] (neat : s.Neat) {new : α} (wide : 0 < Width.width new) :
    (s.push new).get? offset = some a ↔ s.get? offset = some a ∨ offset = s.next ∧ a = new := by
  rw [(neat.push wide).get?_eq_some, neat.get?_eq_some]
  simp [SlotSeq.push]

end Lookup

end SlotSeq

end ClassForge
