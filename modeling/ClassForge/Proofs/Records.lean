import ClassForge.Proofs.Accounting
import ClassForge.Proofs.Aiming

namespace ClassForge

/-- An instruction starts at the position, or the position is the end of the code and can be
reached. -/
structure Inside (alive : Bool) (code : Bytes) (p : Nat) : Prop where
  boundary : Boundary code 0 p
  reached : p = code.length → alive = true

namespace Inside

variable {alive alive' : Bool} {code other : Bytes} {p pc : Nat}

theorem le_length (inside : Inside alive code p) : p ≤ code.length := inside.boundary.le_length

theorem layout (inside : Inside alive code p) (same : SameLayout 0 code other)
    (goes : alive = true → alive' = true) : Inside alive' other p where
  boundary := same.boundary p inside.boundary
  reached last := goes (inside.reached (last.trans same.size))

theorem append {bytes : Bytes} (inside : Inside alive code p) (some : bytes ≠ []) :
    Inside alive' (code ++ bytes) p where
  boundary := inside.boundary.append bytes
  reached last := by
    have := inside.le_length
    have := List.length_pos_iff.mpr some
    rw [List.length_append] at last
    omega

theorem take {opcode : UInt8} (boundary : Boundary code 0 p) (jump : JumpAt code 0 pc opcode)
    (last : pc + 3 = code.length) (before : p ≠ code.length) : Inside true (code.take pc) p where
  boundary := by
    have bound := boundary.le_length
    have positive := Opcode.jumpLength_pos opcode
    refine boundary.take ?_
    by_contra after
    have := jump.end_le boundary (by omega)
    omega
  reached _ := rfl

end Inside

/-- Rows about positions in the code, in order. -/
structure Rows {α : Type} (alive : Bool) (code : Bytes) (rows : Array (Nat × α)) : Prop where
  sorted : rows.toList.Pairwise (·.1 < ·.1)
  inside : ∀ row ∈ rows.toList, Inside alive code row.1

namespace Rows

variable {α : Type} {alive alive' : Bool} {code other : Bytes} {rows : Array (Nat × α)} {pc : Nat}
  {row : Nat × α}

theorem empty : Rows alive code (#[] : Array (Nat × α)) := ⟨by simp, by simp⟩

theorem imp (table : Rows alive code rows)
    (keeps : ∀ p, Inside alive code p → Inside alive' other p) : Rows alive' other rows :=
  ⟨table.sorted, fun row member => keeps row.1 (table.inside row member)⟩

theorem init {last : Nat × α} (table : Rows alive code (rows.push last)) :
    Rows alive code rows ∧ ∀ row ∈ rows.toList, row.1 < last.1 := by
  have sorted := table.sorted
  rw [Array.toList_push, List.pairwise_append] at sorted
  refine ⟨⟨sorted.1, fun row member => table.inside row ?_⟩, fun row member =>
    sorted.2.2 row member last (List.mem_singleton_self last)⟩
  rw [Array.toList_push]
  exact List.mem_append_left _ member

theorem push {entry : α} (table : Rows true code rows) (tiled : Boundary code 0 code.length)
    (before : ∀ row ∈ rows.toList, row.1 < code.length) :
    Rows true code (rows.push (code.length, entry)) := by
  refine ⟨?_, fun row member => ?_⟩
  · rw [Array.toList_push, List.pairwise_append]
    refine ⟨table.sorted, by simp, fun row member other single => ?_⟩
    cases List.mem_singleton.mp single
    exact before row member
  · rw [Array.toList_push] at member
    rcases List.mem_append.mp member with old | new
    · exact table.inside row old
    · cases List.mem_singleton.mp new
      exact ⟨tiled, fun _ => rfl⟩

/-- The rows without one for the given position at their end. -/
def without (rows : Array (Nat × α)) (pc : Nat) : Array (Nat × α) :=
  match rows.back? with
  | some (last, _) => if last = pc then rows.pop else rows
  | none => rows

theorem without_end (table : Rows alive code rows) :
    Rows alive code (without rows code.length) ∧
      ∀ row ∈ (without rows code.length).toList, row.1 < code.length := by
  by_cases none : rows.size = 0
  · obtain rfl := Array.eq_empty_of_size_eq_zero none
    exact ⟨table, by simp [without]⟩
  obtain ⟨front, last, rfl⟩ := Array.eq_push_of_size_ne_zero none
  obtain ⟨start, before⟩ := table.init
  have bound := (table.inside last (by simp)).le_length
  simp only [without, Array.back?_push, Array.pop_push]
  split
  · rename_i here
    exact ⟨start, fun row member => here ▸ before row member⟩
  · rename_i away
    refine ⟨table, fun row member => ?_⟩
    rw [Array.toList_push] at member
    rcases List.mem_append.mp member with old | new
    · have := before row old
      omega
    · cases List.mem_singleton.mp new
      omega

/-- The rows without a last one beyond the end. -/
def upTo (rows : Array (Nat × α)) (length : Nat) : Array (Nat × α) :=
  match rows.back? with
  | some (pc, _) => if length < pc then rows.pop else rows
  | none => rows

theorem mem_of_mem_pop (member : row ∈ rows.pop.toList) : row ∈ rows.toList := by
  rw [Array.toList_pop] at member
  exact List.dropLast_subset _ member

theorem mem_of_mem_without {pc : Nat} (member : row ∈ (without rows pc).toList) :
    row ∈ rows.toList := by
  unfold without at member
  split at member
  · split at member
    · exact mem_of_mem_pop member
    · exact member
  · exact member

theorem mem_of_mem_upTo {length : Nat} (member : row ∈ (upTo rows length).toList) :
    row ∈ rows.toList := by
  unfold upTo at member
  split at member
  · split at member
    · exact mem_of_mem_pop member
    · exact member
  · exact member

theorem mem_pop_of_ne (member : row ∈ rows.toList) (differ : rows.back? ≠ some row) :
    row ∈ rows.pop.toList := by
  by_cases none : rows.size = 0
  · obtain rfl := Array.eq_empty_of_size_eq_zero none
    exact member
  obtain ⟨front, last, rfl⟩ := Array.eq_push_of_size_ne_zero none
  rw [Array.toList_push] at member
  rw [Array.pop_push]
  rcases List.mem_append.mp member with old | new
  · exact old
  · cases List.mem_singleton.mp new
    exact absurd Array.back?_push differ

theorem mem_without (member : row ∈ rows.toList) (differ : row.1 ≠ pc) :
    row ∈ (without rows pc).toList := by
  unfold without
  split
  · rename_i last entry atLast
    split
    · refine mem_pop_of_ne member fun same => ?_
      rw [atLast] at same
      cases same
      exact absurd ‹_› differ
    · exact member
  · exact member

theorem mem_upTo (member : row ∈ rows.toList) (bound : row.1 ≤ pc) :
    row ∈ (upTo rows pc).toList := by
  unfold upTo
  split
  · rename_i last entry atLast
    split
    · refine mem_pop_of_ne member fun same => ?_
      rw [atLast] at same
      cases same
      omega
    · exact member
  · exact member

theorem take {opcode : UInt8} (table : Rows alive code rows) (jump : JumpAt code 0 pc opcode)
    (last : pc + 3 = code.length) : Rows true (code.take pc) (upTo rows pc) := by
  by_cases none : rows.size = 0
  · obtain rfl := Array.eq_empty_of_size_eq_zero none
    exact .empty
  obtain ⟨front, final, rfl⟩ := Array.eq_push_of_size_ne_zero none
  obtain ⟨start, before⟩ := table.init
  have bound := (table.inside final (by simp)).le_length
  have early : Rows true (code.take pc) front := by
    refine ⟨start.sorted, fun row member => ?_⟩
    have := before row member
    exact .take (start.inside row member).boundary jump last (by omega)
  simp only [upTo, Array.back?_push, Array.pop_push]
  split
  · exact early
  · refine ⟨table.sorted, fun row member => ?_⟩
    rw [Array.toList_push] at member
    rcases List.mem_append.mp member with old | new
    · exact early.inside row old
    · cases List.mem_singleton.mp new
      exact .take (table.inside final (by simp)).boundary jump last (by omega)

end Rows

namespace Buffer

variable {b : Buffer}

theorem frames_retract (count : Nat) :
    (b.retract count).frames = Rows.upTo b.frames (b.code.size - count) := rfl

theorem lines_retract (count : Nat) :
    (b.retract count).lines = Rows.upTo b.lines (b.code.size - count) := rfl

end Buffer

namespace Asm

theorem addLine_eq (rows : Array (Nat × UInt16)) (pc : Nat) (line : UInt16) :
    addLine rows pc line = Rows.without rows pc ∨
      addLine rows pc line = (Rows.without rows pc).push (pc, line) := by
  have same : addLine rows pc line = (Rows.without rows pc).back?.elim
      ((Rows.without rows pc).push (pc, line)) fun row =>
        if row.2 = line then Rows.without rows pc else (Rows.without rows pc).push (pc, line) := by
    unfold addLine Rows.without
    cases rows.back? <;> dsimp only <;> split <;> rename_i known <;> rw [known] <;> rfl
  rw [same]
  cases (Rows.without rows pc).back? with
  | none => exact .inr rfl
  | some row => exact (ite_eq_or_eq _ _ _)

theorem rows_addLine {code : Bytes} {rows : Array (Nat × UInt16)} {line : UInt16}
    (table : Rows true code rows) (tiled : Boundary code 0 code.length) :
    Rows true code (addLine rows code.length line) := by
  obtain ⟨start, before⟩ := table.without_end
  rcases addLine_eq rows code.length line with same | same
  · rw [same]
    exact start
  · rw [same]
    exact start.push tiled before

theorem framed_eq {ctx : Context} (b : Buffer) (maps : ctx.settings.stackMaps = true) :
    framed ctx b = { b with
      frames := (Rows.without b.frames b.code.size).push (b.code.size, b.state.frame) } := by
  unfold framed Rows.without
  rw [if_pos maps]
  cases b.frames.back? <;> rfl

theorem framed_frames (ctx : Context) (b : Buffer) : (framed ctx b).frames = b.frames ∨
    (framed ctx b).frames =
      (Rows.without b.frames b.code.size).push (b.code.size, b.state.frame) := by
  unfold framed Rows.without
  split
  · right
    cases b.frames.back? <;> rfl
  · exact .inl rfl

/-- Recording a frame keeps the rows in order. -/
theorem rows_framed {ctx : Context} {b : Buffer} (table : Rows true b.bytes b.frames)
    (tiled : Boundary b.bytes 0 b.bytes.length) : Rows true b.bytes (framed ctx b).frames := by
  obtain ⟨start, before⟩ := table.without_end
  rcases framed_frames ctx b with same | same
  · rw [same]
    exact table
  · rw [same, ← Buffer.length_bytes]
    exact start.push tiled before

end Asm

end ClassForge
