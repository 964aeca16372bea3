import ClassForge.Lowering.Guard
import ClassForge.Proofs.Gaps

namespace ClassForge

def Buffer.covered (b : Buffer) (rows : List CatchEntry) : Buffer :=
  { b with catches := b.catches ++ rows.toArray }

theorem Buffer.covered_nil (b : Buffer) : b.covered [] = b := by simp [covered]

theorem Buffer.covered_covered (b : Buffer) (rows more : List CatchEntry) :
    (b.covered rows).covered more = b.covered (rows ++ more) := by simp [covered]

/-- Rows for the ranges, one for each of the classes. -/
def rowsFor (handler : Nat) (types : List (Option BinaryName)) (ranges : List (Nat × Nat)) :
    List CatchEntry :=
  ranges.flatMap fun range => types.map fun type =>
    ⟨.ofNat range.1, .ofNat range.2, .ofNat handler, type⟩

def FitsIn (handler : Nat) (types : List (Option BinaryName)) (ranges : List (Nat × Nat)) : Prop :=
  ∀ range ∈ ranges, types ≠ [] → range.1 ≤ 0xFFFF ∧ range.2 ≤ 0xFFFF ∧ handler ≤ 0xFFFF

def oneRange (start stop : Nat) : List (Nat × Nat) := if start = stop then [] else [(start, stop)]

/-- What is left of a body without its gaps. -/
def bodyRanges (start stop : Nat) : List (Nat × Option Nat) → List (Nat × Nat)
  | [] => if start < stop then [(start, stop)] else []
  | (gapStart, gapStop) :: rest =>
    oneRange start gapStart ++ bodyRanges (gapStop.getD stop) stop rest

def rangesBetween (start : Nat) : List (Nat × Option Nat) → List (Nat × Nat)
  | [] => []
  | (gapStart, gapStop) :: rest =>
    oneRange start gapStart ++ rangesBetween (gapStop.getD gapStart) rest

def afterGaps (start : Nat) : List (Nat × Option Nat) → Nat
  | [] => start
  | (gapStart, gapStop) :: rest => afterGaps (gapStop.getD gapStart) rest

section Rows

variable {handler : Nat} {types : List (Option BinaryName)} {ranges others : List (Nat × Nat)}

theorem rowsFor_append : rowsFor handler types (ranges ++ others) =
    rowsFor handler types ranges ++ rowsFor handler types others := by
  simp [rowsFor]

theorem FitsIn.append (first : FitsIn handler types ranges) (second : FitsIn handler types others) :
    FitsIn handler types (ranges ++ others) := by
  intro range member
  rcases List.mem_append.mp member with member | member
  · exact first range member
  · exact second range member

theorem mem_rowsFor (fits : FitsIn handler types ranges) {row : CatchEntry}
    (member : row ∈ rowsFor handler types ranges) : (row.start.toNat, row.stop.toNat) ∈ ranges ∧
      row.handler.toNat = handler ∧ row.catchType ∈ types := by
  obtain ⟨range, listed, member⟩ := List.mem_flatMap.mp member
  obtain ⟨type, caught, rfl⟩ := List.mem_map.mp member
  obtain ⟨first, second, third⟩ := fits range listed (List.ne_nil_of_mem caught)
  have exact_ : ∀ {n : Nat}, n ≤ 0xFFFF → (UInt16.ofNat n).toNat = n := fun bound =>
    UInt16.toNat_ofNat_of_lt' (by simpa [UInt16.size] using Nat.lt_succ_of_le bound)
  exact ⟨by simpa only [exact_ first, exact_ second] using listed, exact_ third, caught⟩

end Rows

def Buffer.rowsOf (b : Buffer) (handler : Nat) : List CatchEntry :=
  b.catches.toList.filter fun row => row.handler.toNat == handler

theorem Buffer.rowsOf_covered (b : Buffer) {handler : Nat} {types : List (Option BinaryName)}
    {ranges : List (Nat × Nat)} (fits : FitsIn handler types ranges) :
    (b.covered (rowsFor handler types ranges)).rowsOf handler =
      b.rowsOf handler ++ rowsFor handler types ranges := by
  have all : ∀ row ∈ rowsFor handler types ranges, (row.handler.toNat == handler) = true :=
    fun row member => by simpa using (mem_rowsFor fits member).2.1
  simp only [rowsOf, covered, Array.toList_append, List.filter_append, List.filter_eq_self.mpr all]

namespace Lowering

variable {types : List BinaryName} {y : Unit} {gaps : List (Nat × Option Nat)} {known : Nat → Prop}

theorem Adds.rowsOf {s s' : Session} {handler : Nat} (adds : Adds s s')
    (entered : handler ∈ s.entries) : s'.buffer.rowsOf handler = s.buffer.rowsOf handler := by
  obtain ⟨rows, same, fresh⟩ := adds
  have none : ∀ row ∈ rows, ¬(row.handler.toNat == handler) = true := by
    intro row member here
    rw [beq_iff_eq] at here
    exact fresh row member (here ▸ entered)
  simp only [Buffer.rowsOf, same, List.filter_append, List.filter_eq_nil_iff.mpr none,
    List.append_nil]

variable {mc : MethodContext} {ctx : Context} {σ σ' : MethodState} {b b' : Buffer}
  {s s' : Session} {owned : Multiset Nat} {start stop handler : Nat}

theorem cover_ok {type : Option BinaryName}
    (run : cover start stop handler type mc σ ctx b = .ok (y, σ') b') :
    σ = σ' ∧ b' = b.covered (rowsFor handler [type] (oneRange start stop)) ∧
      FitsIn handler [type] (oneRange start stop) := by
  unfold cover oneRange at *
  by_cases same : start = stop
  · rw [if_neg (by simpa using same)] at run
    cases run
    rw [if_pos same]
    exact ⟨rfl, (b.covered_nil).symm, nofun⟩
  · rw [if_pos (by simpa using same)] at run
    rw [if_neg same]
    by_cases beyond : (decide (start > 0xFFFF) || decide (stop > 0xFFFF) ||
        decide (handler > 0xFFFF)) = true
    · rw [if_pos beyond] at run
      obtain ⟨_, _, _, thrown, _⟩ := bind_ok.mp run
      exact (throw_ok.mp thrown).elim
    · rw [if_neg beyond] at run
      obtain ⟨rfl, ran⟩ := lift_ok.mp run
      simp only [Bool.or_eq_true, decide_eq_true_eq, not_or, Nat.not_lt] at beyond
      cases Asm.modify_ok.mp ran
      refine ⟨rfl, ?_, fun range member _ => ?_⟩
      · simp [Buffer.covered, rowsFor]
      · cases List.mem_singleton.mp member
        exact ⟨beyond.1.1, beyond.1.2, beyond.2⟩

theorem coverFor_ok (run : coverFor types start stop handler mc σ ctx b = .ok (y, σ') b') :
    σ = σ' ∧ b' = b.covered (rowsFor handler (types.map some) (oneRange start stop)) ∧
      FitsIn handler (types.map some) (oneRange start stop) := by
  unfold coverFor at run
  induction types generalizing b with
  | nil =>
    cases run
    refine ⟨rfl, ?_, fun _ _ none => absurd rfl none⟩
    rw [show rowsFor handler ([].map some) (oneRange start stop) = [] by simp [rowsFor],
      Buffer.covered_nil]
  | cons type rest ih =>
    obtain ⟨_, _, c, first, run⟩ := bind_ok.mp run
    obtain ⟨rfl, rfl, fits⟩ := cover_ok first
    obtain ⟨rfl, rfl, _⟩ := ih run
    refine ⟨rfl, ?_, fun range member _ => fits range member (List.cons_ne_nil _ _)⟩
    rw [Buffer.covered_covered, oneRange]
    congr 1
    split
    · rfl
    · simp [rowsFor]

theorem coverBody_ok (run : coverBody types handler start stop gaps mc σ ctx b = .ok (y, σ') b') :
    σ = σ' ∧ b' = b.covered (rowsFor handler (types.map some) (bodyRanges start stop gaps)) ∧
      FitsIn handler (types.map some) (bodyRanges start stop gaps) := by
  induction gaps generalizing b start with
  | nil =>
    unfold coverBody at run
    unfold bodyRanges
    split at run
    · next before =>
      obtain ⟨rfl, rfl, fits⟩ := coverFor_ok run
      rw [oneRange, if_neg (by omega)] at fits ⊢
      rw [if_pos before]
      exact ⟨rfl, rfl, fits⟩
    · next after =>
      cases run
      rw [if_neg after]
      exact ⟨rfl, (b'.covered_nil).symm, nofun⟩
  | cons gap rest ih =>
    obtain ⟨_, _, c, first, run⟩ := bind_ok.mp run
    obtain ⟨rfl, rfl, fits⟩ := coverFor_ok first
    obtain ⟨rfl, rfl, fits'⟩ := ih run
    exact ⟨rfl, by rw [Buffer.covered_covered, bodyRanges, rowsFor_append], fits.append fits'⟩

theorem coverBetween_ok {last : Nat}
    (run : coverBetween handler start gaps mc σ ctx b = .ok (last, σ') b') :
    σ = σ' ∧ b' = b.covered (rowsFor handler [none] (rangesBetween start gaps)) ∧
      FitsIn handler [none] (rangesBetween start gaps) ∧ last = afterGaps start gaps := by
  induction gaps generalizing b start with
  | nil =>
    cases run
    exact ⟨rfl, (b'.covered_nil).symm, nofun, rfl⟩
  | cons gap rest ih =>
    obtain ⟨_, _, c, first, run⟩ := bind_ok.mp run
    obtain ⟨rfl, rfl, fits⟩ := cover_ok first
    obtain ⟨rfl, rfl, fits', rfl⟩ := ih run
    exact ⟨rfl, by rw [Buffer.covered_covered, rangesBetween, rowsFor_append], fits.append fits',
      rfl⟩

theorem Holds.rows {rows : List CatchEntry} (holds : Holds ctx s σ b owned)
    (covers : ∀ row ∈ rows, s.Covers row) :
    ∃ s', s.Grows s' ∧ s'.observed = s.observed ∧ s'.entries = s.entries ∧
      s'.buffer.catches.toList = s.buffer.catches.toList ++ rows ∧
      Holds ctx s' σ (b.covered rows) owned := by
  induction rows generalizing s b with
  | nil => exact ⟨s, .refl s, rfl, rfl, (List.append_nil _).symm, by rwa [Buffer.covered_nil]⟩
  | cons row rest ih =>
    have run : (Call.note (.addCatch row)).perform ctx b = .ok () (b.covered [row]) := by
      change EStateM.Result.ok () { b with catches := b.catches.push row } = _
      simp [Buffer.covered]
    obtain ⟨log, _, holds1⟩ := holds.ask (.note (.addCatch row)) rfl rfl trivial
      (covers row (.head _)) run
    obtain ⟨s2, grows, observed, entries, catches, holds2⟩ := ih holds1 fun other member =>
      have covers := covers other (.tail _ member)
      ⟨covers.start, covers.stop, covers.handler, covers.ordered⟩
    refine ⟨s2, .trans (Session.grows_after rfl) grows, observed, entries, ?_, ?_⟩
    · rw [catches]
      obtain rfl := holds.owns.buffer
      change (s.buffer.covered [row]).catches.toList ++ rest = _
      simp [Buffer.covered]
    · rwa [Buffer.covered_covered] at holds2

/-- Rows for known ranges before a handler that has been entered can be recorded. -/
theorem covers_rowsFor {types : List (Option BinaryName)} {ranges : List (Nat × Nat)}
    (fits : FitsIn handler types ranges) (entered : handler ∈ s.entries)
    (known : ∀ range ∈ ranges, range.1 ∈ s.observed ∧ range.2 ∈ s.observed ∧ range.1 ≤ handler) :
    ∀ row ∈ rowsFor handler types ranges, s.Covers row := by
  intro row member
  obtain ⟨listed, here, _⟩ := mem_rowsFor fits member
  obtain ⟨start, stop, ordered⟩ := known _ listed
  exact ⟨start, stop, here ▸ entered, here ▸ ordered⟩

theorem mem_oneRange {range : Nat × Nat} (member : range ∈ oneRange start stop) :
    range = (start, stop) ∧ start ≠ stop := by
  unfold oneRange at member
  split at member
  · cases member
  · next differ => exact ⟨List.mem_singleton.mp member, differ⟩

def OfGaps (known : Nat → Prop) (gaps : List (Nat × Option Nat)) : Prop :=
  ∀ gap ∈ gaps, known gap.1 ∧ ∀ stop, gap.2 = some stop → known stop

theorem ofGaps_gapPairs {gaps : List Nat} (all : ∀ p ∈ gaps, known p) :
    OfGaps known (gapPairs gaps) := by
  induction gaps using gapPairs.induct with
  | case1 start stop rest ih =>
    intro gap member
    rcases List.mem_cons.mp member with rfl | member
    · refine ⟨all _ (.head _), fun end_ same => ?_⟩
      cases same
      exact all _ (.tail _ (.head _))
    · exact ih (fun p inside => all p (List.mem_cons_of_mem _ (.tail _ inside)))
        gap member
  | case2 start =>
    intro gap member
    cases List.mem_singleton.mp member
    exact ⟨all _ (.head _), fun stop same => by cases same⟩
  | case3 => exact fun gap member => absurd member List.not_mem_nil

theorem mem_bodyRanges (first : known start) (last : known stop) (all : OfGaps known gaps) :
    ∀ range ∈ bodyRanges start stop gaps, known range.1 ∧ known range.2 := by
  induction gaps generalizing start with
  | nil =>
    intro range member
    unfold bodyRanges at member
    split at member
    · cases List.mem_singleton.mp member
      exact ⟨first, last⟩
    · cases member
  | cons gap rest ih =>
    intro range member
    obtain ⟨opened, closed⟩ := all gap (.head _)
    rcases List.mem_append.mp member with member | member
    · obtain ⟨rfl, _⟩ := mem_oneRange member
      exact ⟨first, opened⟩
    · refine ih ?_ (fun gap member => all gap (.tail _ member)) range member
      cases ended : gap.2 with
      | none => exact last
      | some stop => exact closed stop ended

theorem mem_rangesBetween (first : known start) (all : OfGaps known gaps) :
    (∀ range ∈ rangesBetween start gaps, known range.1 ∧ known range.2) ∧
      known (afterGaps start gaps) := by
  induction gaps generalizing start with
  | nil => exact ⟨fun range member => absurd member List.not_mem_nil, first⟩
  | cons gap rest ih =>
    obtain ⟨opened, closed⟩ := all gap (.head _)
    have next : known (gap.2.getD gap.1) := by
      cases ended : gap.2 with
      | none => exact opened
      | some stop => exact closed stop ended
    obtain ⟨ranges, last⟩ := ih next fun gap member => all gap (.tail _ member)
    refine ⟨fun range member => ?_, last⟩
    rcases List.mem_append.mp member with member | member
    · obtain ⟨rfl, _⟩ := mem_oneRange member
      exact ⟨first, opened⟩
    · exact ranges range member

/-- Rows are added for one handler, or for those that have not been entered before. -/
def AddsFor (own : Nat) (s s' : Session) : Prop :=
  ∃ rows, s'.buffer.catches.toList = s.buffer.catches.toList ++ rows ∧
    ∀ row ∈ rows, row.handler.toNat = own ∨ row.handler.toNat ∉ s.entries

namespace AddsFor

variable {own : Nat} {s1 s2 : Session}

theorem ofAdds (adds : Adds s s') : AddsFor own s s' := by
  obtain ⟨rows, same, fresh⟩ := adds
  exact ⟨rows, same, fun row member => .inr (fresh row member)⟩

theorem ofSteady (steady : s.Steady s') : AddsFor own s s' :=
  .ofAdds (.same (congrArg _ steady.catches))

theorem trans (first : AddsFor own s s1) (second : AddsFor own s1 s2) (later : s.Extends s1) :
    AddsFor own s s2 := by
  obtain ⟨rows, same, fresh⟩ := first
  obtain ⟨rows', same', fresh'⟩ := second
  refine ⟨rows ++ rows', by rw [same', same, List.append_assoc], fun row member => ?_⟩
  rcases List.mem_append.mp member with member | member
  · exact fresh row member
  · exact (fresh' row member).imp_right fun new old => new (later.entries _ old)

theorem adds (adds : AddsFor own s s') (fresh : own ∉ s.entries) : Adds s s' := by
  obtain ⟨rows, same, new⟩ := adds
  exact ⟨rows, same, fun row member => (new row member).elim (fun here => here ▸ fresh) id⟩

end AddsFor

end Lowering

end ClassForge
