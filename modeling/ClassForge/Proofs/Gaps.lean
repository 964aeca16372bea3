import ClassForge.Proofs.Holding

namespace ClassForge

variable {ctx : Context} {b b' : Buffer}

theorem Asm.position_size {pc : Nat} (run : Asm.position ctx b = .ok pc b') :
    pc = b'.code.size := by
  obtain ⟨b1, log, _, rfl, rfl⟩ := Asm.position_ok run
  rcases Asm.marked_cases ctx b1 with same | same | ⟨line, _, same⟩ <;> rw [same]

namespace MethodState

def gap (σ : MethodState) (depth : Nat) : List Nat := (σ.records.getD depth {}).gaps.toList

def ShutAt (σ : MethodState) (depth : Nat) : Prop := (σ.gap depth).length % 2 = 0

def Shut (σ : MethodState) : Prop := ∀ depth, σ.ShutAt depth

variable {σ σ' : MethodState} {depth k : Nat}

theorem gap_eq (σ : MethodState) (depth : Nat) :
    σ.gap depth = ((σ.gaps[depth]?).getD #[]).toList := by
  unfold gap gaps
  rw [List.getD_eq_getElem?_getD, List.getElem?_map]
  cases σ.records[depth]? <;> rfl

theorem gap_congr (same : σ'.gaps = σ.gaps) (depth : Nat) : σ'.gap depth = σ.gap depth := by
  rw [gap_eq, gap_eq, same]

theorem gap_enclosed_succ (σ : MethodState) (depth : Nat) :
    ({ σ with records := {} :: σ.records } : MethodState).gap (depth + 1) = σ.gap depth := rfl

theorem gap_drop (σ : MethodState) (k depth : Nat) :
    ({ σ with records := σ.records.drop k } : MethodState).gap depth = σ.gap (k + depth) := by
  unfold gap
  rw [List.getD_eq_getElem?_getD, List.getD_eq_getElem?_getD, List.getElem?_drop]

theorem gap_under (σ σ' : MethodState) (size : σ'.records.length = (σ.records.drop k).length)
    (depth : Nat) :
    ({ σ' with records := σ.records.take k ++ σ'.records } : MethodState).gap depth =
      if depth < k then σ.gap depth else σ'.gap (depth - k) := by
  rw [List.length_drop] at size
  unfold gap
  simp only [List.getD_eq_getElem?_getD, List.getElem?_append, List.length_take, List.getElem?_take]
  by_cases beyond : σ.records.length ≤ depth
  · rw [if_neg (by omega)]
    split
    · rw [List.getElem?_eq_none (by omega), List.getElem?_eq_none (by omega)]
    · by_cases short : k ≤ σ.records.length
      · rw [Nat.min_eq_left short]
      · rw [List.getElem?_eq_none (by omega), List.getElem?_eq_none (by omega)]
  · split
    · rw [if_pos (by omega), if_pos (by omega)]
    · rw [if_neg (by omega), Nat.min_eq_left (by omega)]

theorem gap_modify (f : ScopeRecord → ScopeRecord) (depth other : Nat) :
    ({ σ with records := σ.records.modify depth f } : MethodState).gap other =
      if other = depth ∧ depth < σ.records.length then (f (σ.records.getD depth {})).gaps.toList
      else σ.gap other := by
  unfold gap
  simp only [List.getD_eq_getElem?_getD, List.getElem?_modify]
  by_cases here : other = depth
  · subst here
    by_cases inside : other < σ.records.length
    · rw [List.getElem?_eq_getElem inside]
      simp [inside]
    · rw [List.getElem?_eq_none (by omega)]
      simp [inside]
  · simp [here, Ne.symm here]

theorem gap_push (σ : MethodState) (depth other pc : Nat) :
    ({ σ with records := σ.records.modify depth fun record =>
      { record with gaps := record.gaps.push pc } } : MethodState).gap other =
      σ.gap other ++ if other = depth ∧ depth < σ.records.length then [pc] else [] := by
  rw [gap_modify]
  split
  · next here =>
    rw [here.1]
    exact Array.toList_push
  · rw [List.append_nil]

end MethodState

namespace Lowering

/-- Neither the gaps nor the exception table change. -/
structure Still (s : Session) (σ : MethodState) (s' : Session) (σ' : MethodState) : Prop where
  steady : s.Steady s'
  gaps : σ'.gaps = σ.gaps

instance : Change.Lawful Still where
  still steady same := ⟨steady, same⟩
  trans first second := ⟨first.steady.trans second.steady, second.gaps.trans first.gaps⟩

/-- The gaps of the statements from a depth on are only added to, at positions that become known in
this order. -/
structure Marks (k : Nat) (s : Session) (σ : MethodState) (s' : Session) (σ' : MethodState) :
    Prop where
  grows : s.Grows s'
  size : σ'.records.length = σ.records.length
  gaps : ∃ seen, s'.observed = seen ++ s.observed ∧ ∀ depth, k ≤ depth →
    ∃ added, σ'.gap depth = σ.gap depth ++ added ∧ added.reverse.Sublist seen

/-- Besides, where no copy of a finalizer is open before, none is open after. -/
structure Shuts (before after : Nat → Prop) (s : Session) (σ : MethodState) (s' : Session)
    (σ' : MethodState) : Prop extends Marks 0 s σ s' σ' where
  shut : (∀ i, before i → σ.ShutAt i) → ∀ i, after i → σ'.ShutAt i

/-- Rows of the exception table are only added for handlers that have not been entered before. -/
def Adds (s s' : Session) : Prop :=
  ∃ rows, s'.buffer.catches.toList = s.buffer.catches.toList ++ rows ∧
    ∀ row ∈ rows, row.handler.toNat ∉ s.entries

structure Leaves (before after : Nat → Prop) (s : Session) (σ : MethodState) (s' : Session)
    (σ' : MethodState) : Prop extends Shuts before after s σ s' σ' where
  rows : Adds s s'

abbrev Tracks : Change := Leaves (fun _ => True) fun _ => True

variable {k depth : Nat} {s s' s1 s2 : Session} {σ σ' σ1 σ2 : MethodState}

namespace Marks

theorem still (grows : s.Grows s') (same : σ'.gaps = σ.gaps) : Marks k s σ s' σ' where
  grows := grows
  size := by
    have size := congrArg List.length same
    simpa [MethodState.gaps] using size
  gaps := by
    obtain ⟨seen, observed⟩ := grows.observed
    exact ⟨seen, observed.symm, fun depth _ => ⟨[], by
      rw [MethodState.gap_congr same, List.append_nil], List.nil_sublist _⟩⟩

theorem trans (first : Marks k s σ s1 σ1) (second : Marks k s1 σ1 s2 σ2) : Marks k s σ s2 σ2 where
  grows := first.grows.trans second.grows
  size := second.size.trans first.size
  gaps := by
    obtain ⟨seen, observed, gaps⟩ := first.gaps
    obtain ⟨seen', observed', gaps'⟩ := second.gaps
    refine ⟨seen' ++ seen, by rw [observed', observed, List.append_assoc], fun depth above => ?_⟩
    obtain ⟨added, same, sub⟩ := gaps depth above
    obtain ⟨added', same', sub'⟩ := gaps' depth above
    refine ⟨added ++ added', by rw [same', same, List.append_assoc], ?_⟩
    rw [List.reverse_append]
    exact sub'.append sub

theorem weaken (marks : Marks 0 s σ s' σ') : Marks k s σ s' σ' :=
  { marks with
    gaps := by
      obtain ⟨seen, observed, gaps⟩ := marks.gaps
      exact ⟨seen, observed, fun depth _ => gaps depth (Nat.zero_le _)⟩ }

theorem enclosed (marks : Marks (k + 1) s { σ with records := {} :: σ.records } s' σ') :
    Marks k s σ s' { σ' with records := σ'.records.drop 1 } :=
  { marks with
    size := by simp [marks.size]
    gaps := by
      obtain ⟨seen, observed, gaps⟩ := marks.gaps
      refine ⟨seen, observed, fun depth above => ?_⟩
      obtain ⟨added, same, sub⟩ := gaps (depth + 1) (by omega)
      refine ⟨added, ?_, sub⟩
      rw [MethodState.gap_drop, Nat.add_comm, same, MethodState.gap_enclosed_succ] }

theorem outside (marks : Marks 0 s { σ with records := σ.records.drop depth } s' σ') :
    Marks 0 s σ s' { σ' with records := σ.records.take depth ++ σ'.records } :=
  { marks with
    size := by
      have size := marks.size
      simp only [List.length_drop] at size
      simp only [List.length_append, List.length_take]
      omega
    gaps := by
      obtain ⟨seen, observed, gaps⟩ := marks.gaps
      refine ⟨seen, observed, fun other _ => ?_⟩
      rw [MethodState.gap_under σ σ' marks.size]
      split
      · exact ⟨[], (List.append_nil _).symm, List.nil_sublist _⟩
      · obtain ⟨added, same, sub⟩ := gaps (other - depth) (Nat.zero_le _)
        refine ⟨added, ?_, sub⟩
        rw [same, MethodState.gap_drop, show depth + (other - depth) = other by omega] }

end Marks

namespace Adds

theorem same (catches : s'.buffer.catches.toList = s.buffer.catches.toList) : Adds s s' :=
  ⟨[], by rw [catches, List.append_nil], by simp⟩

theorem trans (first : Adds s s1) (second : Adds s1 s2) (later : s.Extends s1) : Adds s s2 := by
  obtain ⟨rows, same, fresh⟩ := first
  obtain ⟨rows', same', fresh'⟩ := second
  refine ⟨rows ++ rows', by rw [same', same, List.append_assoc], fun row member => ?_⟩
  rcases List.mem_append.mp member with member | member
  · exact fresh row member
  · exact fun old => fresh' row member (later.entries _ old)

end Adds

section Statements

variable {before between after : Nat → Prop}

theorem Shuts.trans (first : Shuts before between s σ s1 σ1)
    (second : Shuts between after s1 σ1 s2 σ2) : Shuts before after s σ s2 σ2 :=
  ⟨first.toMarks.trans second.toMarks, fun shut => second.shut (first.shut shut)⟩

theorem Shuts.still (grows : s.Grows s') (same : σ'.gaps = σ.gaps) :
    Shuts before before s σ s' σ' :=
  ⟨.still grows same, fun shut i inside => by
    unfold MethodState.ShutAt
    rw [MethodState.gap_congr same]
    exact shut i inside⟩

theorem Leaves.trans (first : Leaves before between s σ s1 σ1)
    (second : Leaves between after s1 σ1 s2 σ2) : Leaves before after s σ s2 σ2 :=
  ⟨first.toShuts.trans second.toShuts, first.rows.trans second.rows first.grows.toExtends⟩

theorem Leaves.still (steady : s.Steady s') (same : σ'.gaps = σ.gaps) :
    Leaves before before s σ s' σ' :=
  ⟨.still steady.toGrows same, .same (congrArg _ steady.catches)⟩

instance : Change.Lawful (Leaves before before) := ⟨Leaves.still, Leaves.trans⟩

theorem Leaves.weaken (leaves : Leaves before between s σ s' σ')
    (fewer : ∀ i, after i → between i) : Leaves before after s σ s' σ' :=
  ⟨⟨leaves.toMarks, fun shut i inside => leaves.shut shut i (fewer i inside)⟩, leaves.rows⟩

end Statements

namespace Tracks

theorem enclosed (tracks : Tracks s { σ with records := {} :: σ.records } s' σ') :
    Tracks s σ s' { σ' with records := σ'.records.drop 1 } := by
  refine ⟨⟨(tracks.toMarks.weaken (k := 1)).enclosed, fun shut i _ => ?_⟩, tracks.rows⟩
  unfold MethodState.ShutAt
  rw [MethodState.gap_drop]
  refine tracks.shut (fun i _ => ?_) _ trivial
  cases i with
  | zero => rfl
  | succ i => exact shut i trivial

theorem outside (tracks : Tracks s { σ with records := σ.records.drop depth } s' σ') :
    Leaves (depth ≤ ·) (depth ≤ ·) s σ s'
      { σ' with records := σ.records.take depth ++ σ'.records } := by
  refine ⟨⟨tracks.toMarks.outside, fun shut i above => ?_⟩, tracks.rows⟩
  unfold MethodState.ShutAt
  rw [MethodState.gap_under σ σ' tracks.size, if_neg (by omega)]
  refine tracks.shut (fun j _ => ?_) _ trivial
  unfold MethodState.ShutAt
  rw [MethodState.gap_drop]
  exact shut (depth + j) (by omega)

end Tracks

section Statements

variable {mc : MethodContext} {y : Unit}
variable {α β : Type} {owned kept : Multiset Nat} {before between after : Nat → Prop}
  {x : Lowering α} {f : α → Lowering β} {last : β → Option (Multiset Nat)}

theorem Keeps.ahead (first : Keeps (Leaves before before) 0 x fun _ => 0)
    (second : ∀ a, Yields (Leaves before after) owned (f a) last) :
    Yields (Leaves before after) owned (x >>= f) last :=
  first.bind_of (fun a => (second a).mono (zero_add owned).ge) (zero_add owned).le Leaves.trans

theorem Keeps.chain (first : Keeps (Leaves before between) 0 x fun _ => 0)
    (second : ∀ a, Yields (Leaves between after) owned (f a) last) :
    Yields (Leaves before after) owned (x >>= f) last :=
  first.bind_of (fun a => (second a).mono (zero_add owned).ge) (zero_add owned).le Leaves.trans

theorem markGap_ok (holds : Holds ctx s σ b owned) (run : markGap depth mc σ ctx b = .ok (y, σ') b') :
    ∃ s' pc, s.Steady s' ∧ s'.observed = pc :: s.observed ∧ pc = b'.code.size ∧
      Asm.position ctx b = .ok pc b' ∧
      σ' = { σ with records := σ.records.modify depth fun record =>
        { record with gaps := record.gaps.push pc } } ∧ Holds ctx s' σ' b' owned := by
  obtain ⟨pc, c, ran, run⟩ := lift_bind_ok.mp run
  obtain ⟨rfl, rfl⟩ := changeRecord_ok.mp run
  obtain ⟨s', steady, observed, holds'⟩ := holds.position ran
  refine ⟨s', pc, steady, observed, Asm.position_size ran, ran, rfl, holds'.change le_rfl fun p gap => ?_⟩
  rw [Array.toList_push, List.mem_append, List.mem_singleton] at gap
  rcases gap with old | rfl
  · exact holds'.gap depth p old
  · rw [observed]
    exact .head _

theorem keeps_markGap (fewer : ∀ i, after i → before i ∧ i ≠ depth) :
    Keeps (Leaves before after) 0 (markGap depth) fun _ => 0 := by
  intro mc ctx σ σ' b b' y run s rest _ holds known
  cases known
  obtain ⟨s', pc, steady, observed, _, _, rfl, holds'⟩ := markGap_ok holds run
  refine ⟨s', ⟨⟨⟨steady.toGrows, List.length_modify .., ?_⟩, fun shut i inside => ?_⟩,
    .same (congrArg _ steady.catches)⟩, holds'⟩
  · refine ⟨[pc], observed, fun other _ => ⟨_, MethodState.gap_push σ depth other pc, ?_⟩⟩
    split
    · exact List.Sublist.refl _
    · exact List.nil_sublist _
  · obtain ⟨inside, away⟩ := fewer i inside
    unfold MethodState.ShutAt
    rw [MethodState.gap_push, if_neg fun here => away here.1, List.append_nil]
    exact shut i inside

/-- A gap is closed only if it is open, with the current position as its end. -/
theorem endGap_cases (run : endGap depth mc σ ctx b = .ok (y, σ') b') :
    (σ.ShutAt depth ∧ σ = σ' ∧ b = b') ∨
      (¬σ.ShutAt depth ∧ depth < σ.records.length ∧ ∃ pc, Asm.position ctx b = .ok pc b' ∧
        { σ with records := σ.records.modify depth fun record =>
          { record with gaps := record.gaps.push pc } } = σ') := by
  rw [endGap, record_bind] at run
  have size : (σ.gap depth).length = (σ.records.getD depth {}).gaps.size := Array.length_toList
  by_cases inGap : (σ.records.getD depth {}).inGap = true
  · rw [if_pos inGap] at run
    obtain ⟨pc, c, ran, run⟩ := lift_bind_ok.mp run
    obtain ⟨rfl, rfl⟩ := changeRecord_ok.mp run
    have odd : (σ.gap depth).length % 2 = 1 := by
      rw [size]
      simpa [ScopeRecord.inGap] using inGap
    refine .inr ⟨fun even => ?_, ?_, pc, ran, rfl⟩
    · unfold MethodState.ShutAt at even
      omega
    · by_contra beyond
      have none : σ.gap depth = [] := by
        rw [MethodState.gap_eq, List.getElem?_eq_none (by simp [MethodState.gaps]; omega)]
        rfl
      rw [none] at odd
      cases odd
  · rw [if_neg inGap] at run
    cases run
    refine .inl ⟨?_, rfl, rfl⟩
    have even : (σ.records.getD depth {}).gaps.size % 2 ≠ 1 := by
      simpa [ScopeRecord.inGap] using inGap
    unfold MethodState.ShutAt
    omega

theorem keeps_endGap :
    Keeps (Leaves before fun i => before i ∨ i = depth) 0 (endGap depth) fun _ => 0 := by
  intro mc ctx σ σ' b b' y run s rest _ holds known
  cases known
  rcases endGap_cases run with ⟨even, rfl, rfl⟩ | ⟨odd, inside, pc, asked, rfl⟩
  · refine ⟨s, ⟨⟨.still (.refl s) rfl, fun shut i inside => ?_⟩, .same rfl⟩, holds⟩
    rcases inside with inside | rfl
    · exact shut i inside
    · exact even
  · have keeps : Keeps (Leaves before fun i => before i ∧ i ≠ depth) 0 (markGap depth) fun _ => 0 :=
      keeps_markGap fun _ => id
    have marked : markGap depth mc σ ctx b = .ok ((), _) b' :=
      bind_ok.mpr ⟨pc, σ, b', lift_ok.mpr ⟨rfl, asked⟩, changeRecord_ok.mpr ⟨rfl, rfl⟩⟩
    obtain ⟨s', changed, holds'⟩ := keeps marked holds rfl
    refine ⟨s', ⟨⟨changed.toMarks, fun shut i among => ?_⟩, changed.rows⟩, holds'⟩
    by_cases here : i = depth
    · subst here
      unfold MethodState.ShutAt at odd ⊢
      rw [MethodState.gap_push, if_pos ⟨rfl, inside⟩, List.length_append, List.length_singleton]
      omega
    · exact changed.shut shut i ⟨among.resolve_right here, here⟩

theorem keeps_endGapsFrom (depth count : Nat) :
    Keeps (Leaves before fun i => before i ∨ depth ≤ i ∧ i < depth + count) 0
      (endGapsFrom depth count) fun _ => 0 := by
  induction count generalizing before depth with
  | zero =>
    refine Yields.weaken (keeps_pure le_rfl) fun {s s' σ σ'} (same : Leaves before before s σ s' σ') =>
      same.weaken fun i inside => ?_
    rcases inside with inside | none
    · exact inside
    · omega
  | succ count ih =>
    refine Yields.weaken (keeps_endGap.chain fun _ => ih (depth + 1)) fun changed =>
      changed.weaken fun i inside => ?_
    rcases inside with inside | between
    · exact .inl (.inl inside)
    · rcases Nat.eq_or_lt_of_le between.1 with here | after
      · exact .inl (.inr here.symm)
      · exact .inr (by omega)

end Statements

end Lowering

end ClassForge
