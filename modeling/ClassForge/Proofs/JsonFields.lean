import ClassForge.Json.Reader
import Mathlib.Data.List.Forall2

namespace ClassForge

namespace Json

variable {v : Json}
variable {α : Type} {key other : String} {value : Json} {rest : List (String × Json)}

section Written

@[simp] theorem asString?_string (text : String) : (string text).asString? = some text := rfl

theorem below_head : sizeOf value < sizeOf (object ((key, value) :: rest)) := by
  simp only [Json.object.sizeOf_spec, List.cons.sizeOf_spec, Prod.mk.sizeOf_spec]
  omega

theorem below_tail (below : sizeOf v < sizeOf (object rest)) :
    sizeOf v < sizeOf (object ((key, value) :: rest)) := by
  simp only [Json.object.sizeOf_spec, List.cons.sizeOf_spec, Prod.mk.sizeOf_spec] at *
  omega

theorem field?_eq_some {fields : List (String × Json)} (found : fields.lookup key = some value) :
    (object fields).field? key = some ⟨value, sizeOf_lookup found⟩ := by
  simp only [field?]
  split
  · next same =>
    rw [found] at same
    cases same
    rfl
  · next none =>
    rw [found] at none
    cases none

theorem field?_head : (object ((key, value) :: rest)).field? key = some ⟨value, below_head⟩ :=
  field?_eq_some (by simp)

theorem field?_tail (distinct : (key == other) = false) :
    (object ((other, value) :: rest)).field? key =
      ((object rest).field? key).map fun v => ⟨v.val, below_tail v.property⟩ := by
  have skipped : ((other, value) :: rest).lookup key = rest.lookup key := by
    rw [List.lookup_cons, distinct]
  cases found : rest.lookup key with
  | some v =>
    rw [field?_eq_some found, field?_eq_some (skipped.trans found), Option.map_some]
  | none =>
    simp only [field?]
    split
    · next same =>
      rw [skipped, found] at same
      cases same
    · split
      · next same =>
        rw [found] at same
        cases same
      · rfl

@[simp] theorem required_head (read : (object ((key, value) :: rest)).Below → Option α) :
    (object ((key, value) :: rest)).required key read = read ⟨value, below_head⟩ := by
  rw [required, field?_head, Option.bind_some]

@[simp] theorem required_tail (distinct : (key == other) = false)
    (read : (object ((other, value) :: rest)).Below → Option α) :
    (object ((other, value) :: rest)).required key read =
      (object rest).required key fun v => read ⟨v.val, below_tail v.property⟩ := by
  rw [required, field?_tail distinct, required, Option.bind_map]
  rfl

@[simp] theorem withDefault_head (fallback : α)
    (read : (object ((key, value) :: rest)).Below → Option α) :
    (object ((key, value) :: rest)).withDefault key fallback read = read ⟨value, below_head⟩ := by
  rw [withDefault, field?_head]

@[simp] theorem withDefault_tail (distinct : (key == other) = false) (fallback : α)
    (read : (object ((other, value) :: rest)).Below → Option α) :
    (object ((other, value) :: rest)).withDefault key fallback read =
      (object rest).withDefault key fallback fun v => read ⟨v.val, below_tail v.property⟩ := by
  rw [withDefault, field?_tail distinct, withDefault]
  cases (object rest).field? key <;> rfl

theorem optional_head (read : (object ((key, value) :: rest)).Below → Option α) :
    (object ((key, value) :: rest)).optional key read =
      if value.isNull then some none else (read ⟨value, below_head⟩).map some := by
  rw [optional, given?, field?_head]
  cases value <;> rfl

@[simp] theorem optional_tail (distinct : (key == other) = false)
    (read : (object ((other, value) :: rest)).Below → Option α) :
    (object ((other, value) :: rest)).optional key read =
      (object rest).optional key fun v => read ⟨v.val, below_tail v.property⟩ := by
  rw [optional, given?, field?_tail distinct, optional, given?]
  rcases (object rest).field? key with _ | ⟨value, below⟩
  · rfl
  · cases value <;> rfl

end Written

section Read

variable {j : Json} {read : j.Below → Option α}

theorem of_required {a : α} (ok : j.required key read = some a) : ∃ v, read v = some a := by
  obtain ⟨v, -, found⟩ := Option.bind_eq_some_iff.mp ok
  exact ⟨v, found⟩

theorem of_optional {x : Option α} (ok : j.optional key read = some x) :
    ∀ a ∈ x, ∃ v, read v = some a := by
  intro a member
  cases member
  rw [optional] at ok
  split at ok
  · cases ok
  · next v _ =>
    obtain ⟨b, found, same⟩ := Option.map_eq_some_iff.mp ok
    cases same
    exact ⟨v, found⟩

theorem of_withDefault {a fallback : α} (ok : j.withDefault key fallback read = some a) :
    a = fallback ∨ ∃ v, read v = some a := by
  rw [withDefault] at ok
  split at ok
  · cases ok
    exact .inl rfl
  · next v _ => exact .inr ⟨v, ok⟩

end Read

section Lists

variable {β : Type} {items : List β} {made : List α} {f : β → Option α}

theorem mapM_eq_some_iff :
    items.mapM f = some made ↔ List.Forall₂ (fun item a => f item = some a) items made := by
  induction items generalizing made with
  | nil =>
    rw [List.mapM_nil, List.forall₂_nil_left_iff]
    exact ⟨fun same => (Option.some.inj same).symm, fun same => congrArg some same.symm⟩
  | cons item items ih =>
    rw [List.mapM_cons, List.forall₂_cons_left_iff]
    constructor
    · intro ok
      obtain ⟨a, first, ok⟩ := Option.bind_eq_some_iff.mp ok
      obtain ⟨more, others, ok⟩ := Option.bind_eq_some_iff.mp ok
      cases ok
      exact ⟨a, more, first, ih.mp others, rfl⟩
    · rintro ⟨a, more, first, others, rfl⟩
      rw [first, Option.bind_eq_bind, Option.bind_some, ih.mpr others]
      rfl

theorem below_item {items : List Json} (member : v ∈ items) : sizeOf v < sizeOf (array items) := by
  have inside := List.sizeOf_lt_of_mem member
  simp only [Json.array.sizeOf_spec]
  omega

theorem mapM_pmap {γ : Type} {p : β → Prop} {f : (b : β) → p b → γ} {read : γ → Option α}
    {direct : β → Option α} (same : ∀ b h, read (f b h) = direct b) (held : ∀ b ∈ items, p b) :
    (items.pmap f held).mapM read = items.mapM direct := by
  induction items with
  | nil => rfl
  | cons b items ih => rw [List.pmap_cons, List.mapM_cons, List.mapM_cons, same, ih]

theorem listOf_array (items : List Json) (read : Json → Option α) :
    ((array items).listOf fun w => read w.val) = items.mapM read := by
  have pairs : ((array items).listOf fun w => read w.val) =
      (items.pmap (fun v member => (⟨v, below_item member⟩ : (array items).Below))
        fun _ member => member).mapM fun w => read w.val := by
    rw [List.pmap_eq_map_attach]
    rfl
  rw [pairs, mapM_pmap]
  intro _ _
  rfl

theorem listOf_cons (read : Json → Option α) (value : Json) (items : List Json) :
    ((array (value :: items)).listOf fun w => read w.val) =
      (read value).bind fun a => ((array items).listOf fun w => read w.val).map (a :: ·) := by
  rw [listOf_array, listOf_array, List.mapM_cons]
  cases read value with
  | none => rfl
  | some a => cases items.mapM read <;> rfl

/-- Written items are read back in order if each of them is. -/
theorem listOf_map {write : α → Json} {items : List α} {read : Json → Option α}
    (back : ∀ a ∈ items, read (write a) = some a) :
    ((array (items.map write)).listOf fun w => read w.val) = some items := by
  rw [listOf_array, mapM_eq_some_iff, List.forall₂_map_left_iff, List.forall₂_same]
  exact back

theorem of_mapM (ok : items.mapM f = some made) : ∀ a ∈ made, ∃ item, f item = some a := by
  rw [mapM_eq_some_iff] at ok
  induction ok with
  | nil => exact fun a member => (List.not_mem_nil member).elim
  | cons first _ ih =>
    intro a member
    rcases List.mem_cons.mp member with rfl | later
    · exact ⟨_, first⟩
    · exact ih a later

theorem of_listOf {j : Json} {read : j.Below → Option α} (ok : j.listOf read = some made) :
    ∀ a ∈ made, ∃ v, read v = some a := by
  obtain ⟨items, -, each⟩ := Option.bind_eq_some_iff.mp ok
  exact of_mapM each

end Lists

end Json

end ClassForge
