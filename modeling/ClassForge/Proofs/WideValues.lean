import ClassForge.Proofs.FrameCoding
import ClassForge.Proofs.Bounded

namespace ClassForge

namespace State

open SlotSeq (layout)

variable {register : UInt16} {i start offset : Nat}
variable {state other rest joined after : State} {type : VType} {types : List VType}
  {locals : Array LocalSlot} {slots : List LocalSlot}

def Covered (locals : Array LocalSlot) : Nat → Prop
  | 0 => False
  | first + 1 => ∃ type, locals[first]? = some (.defined type) ∧ type.width = 2

/-- States that come about from the empty one. A wide value is forgotten as a whole. -/
inductive Reached : State → Prop where
  | empty : Reached .empty
  | push {state : State} (type : VType) : Reached state → Reached (state.push type)
  | pop {state rest : State} {type : VType} : Reached state → state.pop = .ok (type, rest) →
      Reached rest
  | setLocal {state : State} {type : VType} (register : UInt16) : Reached state → type ≠ .top →
      Reached (state.setLocal register type)
  | apply {state after : State} {thisClass : BinaryName} {pc : Nat} {instruction : Instruction} :
      Reached state → state.apply thisClass pc instruction = .ok after → Reached after
  | force {state : State} (type : VType) : Reached state → Reached (state.force type)
  | join {state other joined : State} {graph : ClassGraph} : Reached state → Reached other →
      state.join graph other = .ok joined → Reached joined
  | undefine {state : State} {register : UInt16} : Reached state →
      ¬Covered state.locals register.toNat → Reached (state.undefine register)
  | undefineFrom {state : State} {register : UInt16} : Reached state →
      ¬Covered state.locals register.toNat → Reached (state.undefineFrom register)

/-- The stack has no gaps, wide values have two registers, and no register holds what cannot be
used. -/
structure Formed (state : State) : Prop where
  stack : ∃ types, state.stack = .ofList types
  paired : Paired state.locals
  usable : ∀ register : Nat, state.locals[register]? ≠ some (.defined .top)
  apart : ∀ register : Nat, state.locals[register]? = some .upper →
    state.locals[register + 1]? ≠ some .upper

theorem getElem?_extendLocals (locals : Array LocalSlot) (size i : Nat) :
    (extendLocals locals size)[i]? =
      if i < locals.size then locals[i]? else if i < size then some .undefined else none := by
  unfold extendLocals
  grind

theorem getElem?_dropUpper (locals : Array LocalSlot) (register half i : Nat) :
    (dropUpper locals register half)[i]? =
      if i = register ∧ i < locals.size ∧ locals[half]? = some .upper then some .undefined
      else locals[i]? := by
  unfold dropUpper
  grind

/-- What is defined after a register has been set: the value in it, and what was there before unless
it has lost one of its halves. -/
theorem getElem?_setLocal {slot : LocalSlot} (known : slot ≠ .undefined) :
    (state.setLocal register type).locals[i]? = some slot ↔
      i = register.toNat ∧ slot = .defined type ∨
      type.width = 2 ∧ i = register.toNat + 1 ∧ slot = .upper ∨
      state.locals[i]? = some slot ∧ (i < register.toNat ∨ register.toNat + type.width ≤ i) ∧
        (i + 1 = register.toNat → state.locals[i + 1]? ≠ some .upper) ∧
        (i = register.toNat + type.width → slot ≠ .upper) := by
  have either : type.width = 1 ∨ type.width = 2 := by cases type <;> simp [VerificationType.width]
  generalize size : type.width = width at *
  unfold setLocal
  simp only [size]
  generalize register.toNat = first at *
  generalize extended : extendLocals state.locals (first + width) = locals
  have at_ (i : Nat) := extended ▸ getElem?_extendLocals state.locals (first + width) i
  have room : locals.size = max state.locals.size (first + width) := by
    rw [← extended, extendLocals, Array.size_append, Array.size_replicate]
    omega
  clear size extended
  by_cases double : width = 2 <;> by_cases inner : 0 < first
  all_goals
    simp only [double, inner, if_true, if_false, Array.getElem?_setIfInBounds, getElem?_dropUpper,
      size_dropUpper, Array.size_setIfInBounds, room, at_]
    grind

section

variable (formed : state.Formed)

include formed

theorem Formed.setLocal (usable : type ≠ .top) : (state.setLocal register type).Formed := by
  have width : type.width = 1 ∨ type.width = 2 := by cases type <;> simp [VerificationType.width]
  refine ⟨formed.stack, fun i held known wide => ?_, fun i known => ?_, fun i known next => ?_⟩
  · have here := formed.paired i held
    have apart := formed.apart (i + 1)
    rw [getElem?_setLocal (by simp)] at known ⊢
    grind
  · have here := formed.usable i
    rw [getElem?_setLocal (by simp)] at known
    grind
  · have here := formed.apart i
    rw [getElem?_setLocal (by simp)] at known next
    grind

/-- Forgetting registers keeps the state in order unless a wide value loses its second half. -/
theorem Formed.forget
    (fewer : ∀ (i : Nat) (slot : LocalSlot), locals[i]? = some slot →
      slot = .undefined ∨ state.locals[i]? = some slot)
    (whole : ∀ (i : Nat) (held : VType), locals[i]? = some (.defined held) → held.width = 2 →
      locals[i + 1]? = state.locals[i + 1]?) : { state with locals }.Formed := by
  refine ⟨formed.stack, fun i held known wide => ?_, fun i known => ?_, fun i known next => ?_⟩
  · have here := formed.paired i held
    have same := whole i held known wide
    have old := fewer i _ known
    grind
  · have here := formed.usable i
    have old := fewer i _ known
    grind
  · have here := formed.apart i
    have old := fewer i _ known
    have old' := fewer (i + 1) _ next
    grind

theorem Formed.undefine (whole : ¬Covered state.locals register.toNat) :
    (state.undefine register).Formed := by
  refine formed.forget (fun i slot known => by grind) fun i held known wide => ?_
  have apart : register.toNat ≠ i + 1 := by
    intro same
    rw [same] at whole
    exact whole ⟨held, by grind, wide⟩
  grind

theorem Formed.undefineFrom (whole : ¬Covered state.locals register.toNat) :
    (state.undefineFrom register).Formed := by
  refine formed.forget (fun i slot known => by grind) fun i held known wide => ?_
  have apart : register.toNat ≠ i + 1 := by
    intro same
    rw [same] at whole
    exact whole ⟨held, by grind, wide⟩
  grind

theorem Formed.join {graph : ClassGraph} (formed' : other.Formed)
    (run : state.join graph other = .ok joined) : joined.Formed := by
  refine ⟨?_, formed.paired.join formed'.paired run, fun i known => ?_, fun i known next => ?_⟩
  · obtain ⟨_, types, _, rfl⟩ := join_ok.mp run
    exact ⟨types, rfl⟩
  · exact formed.usable i ((getElem?_join run (by simp)).mp known).1
  · exact formed.apart i ((getElem?_join run (by simp)).mp known).1
      ((getElem?_join run (by simp)).mp next).1

theorem Formed.packed : state.stack.Packed ∧ state.stack.start = 0 :=
  SlotSeq.exists_ofList.mp formed.stack

theorem Formed.withStack {stack : SlotSeq VType} (packed : stack.Packed)
    (start : stack.start = state.stack.start) : { state with stack }.Formed :=
  ⟨SlotSeq.exists_ofList.mpr ⟨packed, start.trans formed.packed.2⟩,
    formed.paired, formed.usable, formed.apart⟩

end

theorem width_of_isReference (refers : type.isReference = true) : type.width = 1 := by
  cases type with
  | long | double => cases refers
  | _ => rfl

instance : Closed False Formed where
  push type formed := formed.withStack formed.packed.1.push rfl
  pop {state rest type} formed popped := by
    obtain ⟨offset, found, same⟩ := pop_ok popped
    rw [same]
    obtain ⟨packed, start⟩ := formed.packed.1.pop found
    exact formed.withStack packed start
  replace {state source target} formed refers refers' := by
    have same (type : VType) : (if type = source then target else type).width = type.width := by
      split
      · next equal => rw [equal, width_of_isReference refers, width_of_isReference refers']
      · rfl
    refine ⟨SlotSeq.exists_ofList.mpr ⟨formed.packed.1.map fun type _ => same type, formed.packed.2⟩,
      fun i held known wide => ?_, fun i known => ?_, fun i known next => ?_⟩
    · have here := formed.paired i
      simp only [State.replace, Array.getElem?_map] at known ⊢
      grind
    · have here := formed.usable i
      simp only [State.replace, Array.getElem?_map] at known
      grind [VerificationType.isReference]
    · have here := formed.apart i
      simp only [State.replace, Array.getElem?_map] at known next
      grind
  setLocal formed usable _ := formed.setLocal usable

theorem Formed.force (formed : state.Formed) (type : VType) : (state.force type).Formed := by
  unfold State.force
  split
  · next old last =>
    split
    · next refers =>
      obtain ⟨refers, refers'⟩ := Bool.and_eq_true_iff.mp refers
      refine formed.withStack (formed.packed.1.setLast fun found known => ?_)
        (SlotSeq.next_setLast type).2
      cases last.symm.trans known
      exact (width_of_isReference refers').trans (width_of_isReference refers).symm
    · exact formed
  · exact formed

theorem Reached.formed (reached : state.Reached) : state.Formed := by
  induction reached with
  | empty => exact ⟨⟨[], rfl⟩, nofun, nofun, nofun⟩
  | push type _ ih => exact Closed.push type ih
  | pop _ popped ih => exact Closed.pop ih popped
  | setLocal register _ usable ih => exact ih.setLocal usable
  | apply _ run ih => exact Closed.apply ih nofun run
  | force type _ ih => exact ih.force type
  | join _ _ run ih ih' => exact ih.join ih' run
  | undefine _ whole ih => exact ih.undefine whole
  | undefineFrom _ whole ih => exact ih.undefineFrom whole

theorem mem_layout_cons {first : VType} :
    (start + i, type) ∈ layout start (first :: types) ↔ i = 0 ∧ type = first ∨
      ∃ j, i = first.width + j ∧ (start + first.width + j, type) ∈ layout (start + first.width) types := by
  have behind (offset : Nat) (later : (offset, type) ∈ layout (start + first.width) types) :
      start + first.width ≤ offset := (SlotSeq.start_le_of_mem_layout later).1
  simp only [layout, List.mem_cons, Prod.mk.injEq, Nat.add_eq_left]
  refine or_congr_right ⟨fun later => ⟨i - first.width, ?_⟩, ?_⟩
  · have := behind _ later
    have same : start + i = start + first.width + (i - first.width) := by omega
    exact ⟨by omega, same ▸ later⟩
  · rintro ⟨j, rfl, later⟩
    rwa [← Nat.add_assoc]

theorem mem_layout_frameLocals {start i : Nat} (paired : Paired slots.toArray) :
    (start + i, type) ∈ layout start (frameLocals slots) ↔ slots[i]? = some (.defined type) ∨
      type = .top ∧ i < slots.length ∧ (∀ held, slots[i]? ≠ some (.defined held)) ∧
        ¬Covered slots.toArray i := by
  have width (held : VType) : held.width = 1 ∨ held.width = 2 := by
    cases held <;> simp [VerificationType.width]
  simp only [Paired, List.getElem?_toArray] at paired
  fun_induction frameLocals slots generalizing start i with
  | case1 => simp [layout]
  | case2 held wide second rest ih =>
    have next := paired 0 held rfl wide
    have later (i : Nat) := @ih (start + 2) i fun i held => paired (i + 2) held
    rw [mem_layout_cons, wide]
    clear ih paired
    rcases i with _ | _ | _ | i
    · grind
    · grind [Covered]
    · have := later 0
      grind [Covered]
    · have := later (i + 1)
      grind [Covered]
  | case3 held wide => cases paired 0 held rfl wide
  | case4 held rest narrow ih =>
    have later (i : Nat) := @ih (start + 1) i fun i held => paired (i + 1) held
    rw [mem_layout_cons, (width held).resolve_right narrow]
    clear ih paired
    rcases i with _ | _ | i
    · grind
    · have := later 0
      grind [Covered]
    · have := later (i + 1)
      grind [Covered]
  | case5 slot rest other ih =>
    have later (i : Nat) := @ih (start + 1) i fun i held => paired (i + 1) held
    rw [mem_layout_cons, show (VerificationType.top : VType).width = 1 from rfl]
    clear ih paired
    rcases i with _ | _ | i
    · grind [Covered]
    · have := later 0
      grind [Covered]
    · have := later (i + 1)
      grind [Covered]

theorem mem_layout_trimTop :
    (offset, type) ∈ layout start (trimTop types) ↔ (offset, type) ∈ layout start types ∧
      ∃ later held, (later, held) ∈ layout start types ∧ offset ≤ later ∧ held ≠ .top := by
  induction types generalizing start offset type with
  | nil => simp [trimTop, layout]
  | cons first rest ih =>
    have behind {offset : Nat} {type : VType}
        (later : (offset, type) ∈ layout (start + first.width) rest) : start < offset := by
      have := (SlotSeq.start_le_of_mem_layout later).1
      have := first.width_pos
      omega
    unfold trimTop
    split
    · next empty =>
      -- Nothing that can be used follows, or it would have been kept.
      refine ⟨fun member => absurd member List.not_mem_nil, ?_⟩
      rintro ⟨_, later, held, member, _, usable⟩
      rcases List.mem_cons.mp member with same | member
      · cases same
        exact absurd rfl usable
      · have kept := ih.mpr ⟨member, later, held, member, le_rfl, usable⟩
        rw [empty] at kept
        cases kept
    · next kept =>
      simp only [layout, List.mem_cons]
      constructor
      · rintro (here | member)
        · obtain ⟨rfl, rfl⟩ := Prod.mk.inj here
          refine ⟨.inl rfl, ?_⟩
          by_cases usable : type = .top
          · obtain ⟨next, more, shown⟩ := List.exists_cons_of_ne_nil (kept usable)
            have first : (offset + type.width, next) ∈ layout (offset + type.width) (trimTop rest) := by
              rw [shown]
              exact .head _
            obtain ⟨_, later, held, found, order, usable⟩ := ih.mp first
            exact ⟨later, held, .inr found, by omega, usable⟩
          · exact ⟨offset, type, .inl rfl, le_rfl, usable⟩
        · obtain ⟨member, later, held, found, rest⟩ := ih.mp member
          exact ⟨.inr member, later, held, .inr found, rest⟩
      · rintro ⟨here | member, later, held, same | found, order, usable⟩
        · exact .inl here
        · exact .inl here
        · have := behind member
          cases same
          omega
        · exact .inr (ih.mpr ⟨member, later, held, found, order, usable⟩)

theorem get?_frame (formed : state.Formed) :
    state.frame.locals.get? offset = some type ↔
      state.locals[offset]? = some (.defined type) ∨
      type = .top ∧ (∀ held, state.locals[offset]? ≠ some (.defined held)) ∧
        ¬Covered state.locals offset ∧
        ∃ later held, offset < later ∧ state.locals[later]? = some (.defined held) := by
  have known {i : Nat} {type : VType} :=
    @mem_layout_frameLocals type state.locals.toList 0 i formed.paired
  simp only [Nat.zero_add, Array.getElem?_toList] at known
  have neat := (SlotSeq.packed_ofList (trimTop (frameLocals state.locals.toList))).neat
    VerificationType.width_pos
  rw [frame, neat.get?_eq_some, SlotSeq.entries_ofList, mem_layout_trimTop]
  simp only [known]
  have usable := formed.usable
  constructor
  · rintro ⟨here | ⟨rfl, _, unknown, whole⟩, later, held, found, order, plain⟩
    · exact .inl here
    · have defined := found.resolve_right fun top => plain top.1
      have apart : offset ≠ later := fun same => unknown held (same ▸ defined)
      exact .inr ⟨rfl, unknown, whole, later, held, by omega, defined⟩
  · rintro (here | ⟨rfl, unknown, whole, later, held, order, defined⟩)
    · exact ⟨.inl here, offset, type, .inl here, le_rfl, fun top => usable offset (top ▸ here)⟩
    · have room : later < state.locals.size := (Array.getElem?_eq_some_iff.mp defined).1
      refine ⟨.inr ⟨rfl, ?_, unknown, whole⟩, later, held, .inl defined, by omega,
        fun top => usable later (top ▸ defined)⟩
      exact Nat.lt_trans order room

/-- The frames of all states that can be reached are built up from slot 0. -/
theorem Reached.laidOut_frame (reached : state.Reached) : state.frame.LaidOut :=
  ⟨⟨_, rfl⟩, reached.formed.stack⟩

/-- Whatever was done to a state, its depth is what the values on its stack take, a wide value has
the register after its own to itself, nothing is left of it once either half is overwritten, and the
frame has each value at the offset of its register, with unusable entries between them only. -/
theorem wide_values_keep_their_registers (reached : state.Reached) :
    state.depth = SlotSeq.slots state.stack.toList ∧ Paired state.locals ∧
    (∀ (register half : UInt16) (type new : VType), half.toNat = register.toNat + 1 →
      state.local? register = some type → type.width = 2 → state.local? half = none ∧
        (state.setLocal half new).local? register = none ∧
        (state.setLocal register new).local? half = none) ∧
    state.frame.stack = state.stack ∧
    ∀ offset type, state.frame.locals.get? offset = some type ↔
      state.locals[offset]? = some (.defined type) ∨
      type = .top ∧ (∀ held, state.locals[offset]? ≠ some (.defined held)) ∧
        ¬Covered state.locals offset ∧
        ∃ later held, offset < later ∧ state.locals[later]? = some (.defined held) := by
  have formed := reached.formed
  refine ⟨?_, formed.paired, fun register half type new next known wide => ?_, rfl,
    fun offset type => get?_frame formed⟩
  · obtain ⟨types, built⟩ := formed.stack
    rw [depth, built, SlotSeq.next_ofList, SlotSeq.toList_ofList]
  · have upper := formed.paired _ _ (local?_eq_some.mp known) wide
    refine ⟨?_, ?_, ?_⟩
    all_goals
      refine Option.eq_none_iff_forall_ne_some.mpr fun held found => ?_
      rw [local?_eq_some] at found
    · grind
    · rw [getElem?_setLocal (by simp)] at found
      grind
    · rw [getElem?_setLocal (by simp)] at found
      have := new.width_pos
      grind

def shifted : State := (empty.setLocal 1 .long).push .double

theorem wide_values_keep_their_registers_shifted : shifted.Reached ∧
    shifted.depth = SlotSeq.slots shifted.stack.toList ∧
    (shifted.setLocal 2 .integer).local? 1 = none ∧
    shifted.frame.locals.get? 0 = some .top ∧ shifted.frame.locals.get? 1 = some .long := by
  have reached : shifted.Reached := .push _ (.setLocal _ .empty nofun)
  have locals : shifted.locals = #[.undefined, .defined .long, .upper] := rfl
  obtain ⟨depth, _, halves, _, entries⟩ := wide_values_keep_their_registers reached
  refine ⟨reached, depth, (halves 1 2 .long .integer rfl rfl rfl).2.1,
    (entries 0 .top).mpr (.inr ⟨rfl, ?_, nofun, 1, .long, by decide, ?_⟩),
    (entries 1 .long).mpr (.inl ?_)⟩
  all_goals simp [locals]

end State

end ClassForge
