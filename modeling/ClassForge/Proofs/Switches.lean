import ClassForge.Proofs.Scopes

namespace ClassForge

variable {labels : List Int32} {label value word : Int32} {i count : Nat} {y : Unit}
  {case : SwitchCase} {rest : List SwitchCase}

theorem Buffer.word32_eq {b : Buffer} {pos : Nat} (found : b.bytes.word32At? pos = some word) :
    b.word32 pos = word := by
  unfold Bytes.word32At? at found
  unfold word32
  simp only [getD_code, Nat.add_zero]
  split at found
  · rename_i first second third fourth atFirst atSecond atThird atFourth
    rw [atFirst, atSecond, atThird, atFourth, ← Option.some.inj found]
    rfl
  · cases found

namespace SwitchLayout

theorem extreme_mem {extreme : Option Int} (before : Int → Int → Prop) (other : Int)
    (empty : extreme = none → labels.map (·.toInt) = [])
    (is : ∀ n, extreme = some n →
      n ∈ labels.map (·.toInt) ∧ ∀ m ∈ labels.map (·.toInt), before n m)
    (some : labels ≠ []) :
    (∃ label ∈ labels, extreme.getD other = label.toInt) ∧
      ∀ label ∈ labels, before (extreme.getD other) label.toInt := by
  cases found : extreme with
  | none => exact absurd (List.map_eq_nil_iff.mp (empty found)) some
  | some n =>
    obtain ⟨member, bound⟩ := is n found
    obtain ⟨label, member, same⟩ := List.mem_map.mp member
    exact ⟨⟨label, member, same.symm⟩, fun label member => bound _ (List.mem_map_of_mem member)⟩

theorem lowest_mem : labels ≠ [] → (∃ label ∈ labels, lowest labels = label.toInt) ∧
    ∀ label ∈ labels, lowest labels ≤ label.toInt :=
  extreme_mem (· ≤ ·) 0 List.min?_eq_none_iff.mp fun _ => List.min?_eq_some_iff.mp

theorem highest_mem : labels ≠ [] → (∃ label ∈ labels, highest labels = label.toInt) ∧
    ∀ label ∈ labels, label.toInt ≤ highest labels :=
  extreme_mem (fun n m => m ≤ n) (-1) List.max?_eq_none_iff.mp fun _ =>
    List.max?_eq_some_iff.mp

theorem mem_range (member : label ∈ labels) :
    lowest labels ≤ label.toInt ∧ label.toInt ≤ highest labels :=
  have some := List.ne_nil_of_mem member
  ⟨(lowest_mem some).2 label member, (highest_mem some).2 label member⟩

def tableFor (labels : List Int32) : Bool :=
  prefersTable labels.length (lowest labels) (highest labels)

/-- The operands of a switch over the labels, with all offsets open. -/
def operandsFor (labels : List Int32) : List Int32 :=
  if tableFor labels then
    -1 :: Int32.ofInt (lowest labels) :: Int32.ofInt (highest labels) ::
      List.replicate (highest labels - lowest labels + 1).toNat (-1)
  else -1 :: Int32.ofNat labels.length :: List.replicate (2 * labels.length) (-1)

theorem ne_nil_of_tableFor (table : tableFor labels = true) : labels ≠ [] := by
  rintro rfl
  cases table

theorem operandsFor_complete (few : tableFor labels = true ∨ labels.length < 2147483648) :
    SwitchOperands (tableFor labels) (operandsFor labels) := by
  unfold operandsFor
  cases table : tableFor labels with
  | true =>
    have some := ne_nil_of_tableFor table
    obtain ⟨⟨first, member, low⟩, lower⟩ := lowest_mem some
    obtain ⟨last, member', high⟩ := (highest_mem some).1
    have ordered := lower last member'
    simp only [if_true, SwitchOperands, List.length_replicate]
    rw [high]
    rw [low] at ordered ⊢
    rw [Int32.ofInt_toInt, Int32.ofInt_toInt]
    exact ⟨ordered, rfl⟩
  | false =>
    have short : labels.length < 2147483648 := by simpa [table] using few
    have count : (Int32.ofNat labels.length).toInt = labels.length :=
      Int32.toInt_ofNat_of_lt (by simpa using short)
    simp only [Bool.false_eq_true, if_false, SwitchOperands, List.length_replicate, count]
    omega

theorem operandsFor_open (offset : IsOffsetOperand (tableFor labels) i)
    (found : (operandsFor labels)[i]? = some word) : word = -1 := by
  unfold operandsFor at found
  unfold IsOffsetOperand at offset
  cases table : tableFor labels with
  | true =>
    simp only [table, if_true] at found offset
    match i, offset, found with
    | 0, _, found => exact (Option.some.inj found).symm
    | i + 3, _, found =>
      simp only [List.getElem?_cons_succ, List.getElem?_replicate] at found
      split at found
      · exact (Option.some.inj found).symm
      · cases found
  | false =>
    simp only [table, Bool.false_eq_true, if_false, false_or] at found offset
    match i, offset, found with
    | 0, _, found => exact (Option.some.inj found).symm
    | i + 3, _, found =>
      simp only [List.getElem?_cons_succ, List.getElem?_replicate] at found
      split at found
      · exact (Option.some.inj found).symm
      · cases found

def at_ (labels : List Int32) (place : SwitchPlace) : SwitchLayout :=
  ⟨place.table, lowest labels, highest labels, place.start, place.base⟩

end SwitchLayout

namespace Lowering

open SwitchLayout

variable {mc : MethodContext} {ctx : Context} {σ σ' : MethodState} {b b' : Buffer}
  {s s' : Session} {owned : Multiset Nat}

theorem emitWords_eq (value : Int32) (count : Nat) :
    emitWords value count = liftM ((List.replicate count value).forM Asm.emitWord) := by
  induction count with
  | zero => simp [emitWords]
  | succ count ih => rw [emitWords, ih, List.replicate_succ, List.forM, liftM_bind]

theorem openSwitch_eq (labels : List Int32) :
    openSwitch labels = (liftM (Asm.placeSwitch (tableFor labels) (operandsFor labels)) >>= fun found =>
      pure (found.map (at_ labels))) := by
  unfold openSwitch Asm.placeSwitch
  rw [liftM_bind, bind_assoc]
  refine bind_congr fun answer => ?_
  cases answer with
  | none => simp
  | some start =>
    -- The words after the default are emitted one after another in both cases.
    unfold operandsFor tableFor
    cases prefersTable labels.length (lowest labels) (highest labels) <;>
      (simp only [List.forM, emitWords_eq, liftM_bind, bind_assoc, if_true, Bool.false_eq_true, if_false,
        liftM_pure, pure_bind, List.length_cons, Option.map_some]
       rfl)

theorem openSwitch_ok {answer : Option SwitchLayout}
    (run : openSwitch labels mc σ ctx b = .ok (answer, σ') b') :
    σ = σ' ∧ ∃ place, Asm.placeSwitch (tableFor labels) (operandsFor labels) ctx b = .ok place b' ∧
      answer = place.map (at_ labels) := by
  rw [openSwitch_eq] at run
  obtain ⟨place, c, placed, run⟩ := lift_bind_ok.mp run
  cases run
  exact ⟨rfl, place, placed, rfl⟩

/-- The offset of a case is filled in for its labels, and for all other values if it is the default. -/
def aimCase (layout : SwitchLayout) (case : SwitchCase) (offset : Int32) : Lowering Unit := do
  (if layout.table then fillTable layout offset case.labels else pure ())
  if case.isDefault then Asm.putWord layout.base offset

/-- Without a default case the other values lead to the end of the switch. -/
def aimDefault (layout : SwitchLayout) (state : State) : Lowering Unit := do
  if (← buffer).word32 layout.base == -1 then
    let pc ← Asm.entryPointWith state none
    Asm.putWord layout.base (← switchOffset layout pc)

/-- All operands that are still open are filled in. -/
def fillRest (layout : SwitchLayout) (found : List (Int32 × Int32)) : Lowering Unit := do
  if layout.table then
    completeTable layout ((← buffer).word32 layout.base) 0 layout.span
  else
    fillList layout 0 (found.reverse.mergeSort fun a b => a.1 ≤ b.1)

def dispatch (limit : UInt16) (cases : List SwitchCase) (layout : SwitchLayout) : Lowering Unit := do
  let state := (← buffer).state
  Asm.markDead
  let (found, record) ← enclosed (genCases layout state [] cases)
  Asm.resolve (record.exit.undefineFrom limit)
  aimDefault layout state
  fillRest layout found
  Asm.endScopes limit

theorem genCases_cons {layout : SwitchLayout} {state : State} {found : List (Int32 × Int32)} :
    genCases layout state found (case :: rest) = (do
      let pc ← Asm.entryPointWith state none
      let offset ← switchOffset layout pc
      aimCase layout case offset
      case.code
      genCases layout state ((case.labels.map (·, offset)).reverse ++ found) rest) := by
  rw [genCases]
  unfold aimCase
  refine bind_congr fun pc => bind_congr fun offset => ?_
  split <;> split <;> simp

theorem genSwitch_eq (selector : Lowering Item) (cases : List SwitchCase) :
    genSwitch selector cases = (do
      let limit ← nextRegister
      let selected ← loadAs .int selector
      if cases.isEmpty then
        selected.drop
        Asm.endScopes limit
      else
        match ← openSwitch (cases.flatMap (·.labels)) with
        | none => pure ()
        | some layout => dispatch limit cases layout) := by
  have tail (layout : SwitchLayout) (state : State) (found : List (Int32 × Int32))
      (next : Lowering Unit) : (do aimDefault layout state; fillRest layout found; next) = (do
        if (← buffer).word32 layout.base == -1 then
          let pc ← Asm.entryPointWith state none
          Asm.putWord layout.base (← switchOffset layout pc)
        if layout.table then
          completeTable layout ((← buffer).word32 layout.base) 0 layout.span
        else
          fillList layout 0 (found.reverse.mergeSort fun a b => a.1 ≤ b.1)
        next) := by
    unfold aimDefault fillRest
    rw [bind_assoc]
    refine bind_congr fun b => ?_
    split <;> split <;> simp
  rw [genSwitch]
  refine bind_congr fun limit => bind_congr fun selected => ?_
  split
  · rfl
  · refine bind_congr fun opened => ?_
    cases opened with
    | none => rfl
    | some layout => simp only [dispatch, tail]

end Lowering

namespace Session

variable {ctx : Context} {s s' : Session} {place : SwitchPlace} {word : Int32} {pos : Nat}

theorem LeadsIn.mono {start : Nat} (leads : s.LeadsIn start word) (extends_ : s.Extends s') :
    s'.LeadsIn start word := by
  obtain ⟨positive, target, entered, same⟩ := leads
  exact ⟨positive, target, extends_.entries target entered, same⟩

theorem Sound.filled_of_ne (sound : s.Sound ctx) (member : place ∈ s.switches)
    (offset : place.IsOffset pos) (differ : s.buffer.word32 pos ≠ -1) : pos ∈ s.filled := by
  by_contra missing
  exact differ (Buffer.word32_eq (sound.stands.upright.aims.opened place member pos offset missing))

theorem Sound.leadsIn (sound : s.Sound ctx) (member : place ∈ s.switches)
    (offset : place.IsOffset pos) (filled : pos ∈ s.filled) :
    s.LeadsIn place.start (s.buffer.word32 pos) := by
  obtain ⟨word, target, entered, found, positive, same⟩ :=
    sound.stands.upright.aims.closed place member pos offset filled
  rw [Buffer.word32_eq found]
  exact ⟨positive, target, entered, same⟩

end Session

namespace Lowering

open SwitchLayout

variable {pc first : Nat} {offset : Int32} {state : State} {found found' : List (Int32 × Int32)}
  {cases : List SwitchCase} {table : Bool} {operands : List Int32} {log : List (Nat × Nat)}
  {b1 : Buffer}
variable {mc : MethodContext} {ctx : Context} {σ σ' : MethodState} {b b' : Buffer}
  {s s' : Session} {owned : Multiset Nat} {place : SwitchPlace} {layout : SwitchLayout}

theorem Holds.putWord (holds : Holds ctx s σ b owned) (member : place ∈ s.switches)
    (slot : place.IsSlot pc) (leads : place.IsOffset pc → s.LeadsIn place.start value)
    (run : Asm.putWord pc value ctx b = .ok () b') :
    ∃ s', s.Steady s' ∧ pc ∈ s'.filled ∧ Holds ctx s' σ b' owned := by
  have slots : ∀ pos ∈ (Call.putWord pc value).fills, ∃ place ∈ s.switches, place.IsSlot pos := by
    intro pos filled
    cases List.mem_singleton.mp filled
    exact ⟨place, member, slot⟩
  obtain ⟨log, _, holds'⟩ := (holds.mono (zero_add owned).le).perform (.putWord pc value) slots
    trivial ⟨place, member, slot, leads⟩ run
  obtain rfl := holds.owns.buffer
  exact ⟨_, Session.steady_after (.putWord pc value) rfl rfl run, .head _,
    holds'.mono (zero_add owned).ge⟩

structure Fits (layout : SwitchLayout) (place : SwitchPlace) : Prop where
  table : layout.table = place.table
  start : layout.start = place.start
  base : layout.base = place.base
  some : 0 < place.count

section

variable (fits : Fits layout place)

include fits

theorem Fits.offset_base : place.IsOffset layout.base :=
  ⟨0, fits.some, .inl rfl, fits.base⟩

theorem Fits.offset_slot (table : layout.table = true) (inside : i + 3 < place.count) :
    place.IsOffset (layout.slot i) := by
  refine ⟨i + 3, inside, .inr ⟨by omega, .inl (fits.table ▸ table)⟩, ?_⟩
  rw [← fits.base]
  rfl

theorem Fits.pair (list : layout.table = false) (inside : 2 * i + 3 < place.count) :
    place.IsSlot (layout.pair i) ∧ ¬place.IsOffset (layout.pair i) ∧
      place.IsOffset (layout.pair i + 4) := by
  have form : place.table = false := fits.table ▸ list
  refine ⟨⟨2 * i + 2, by omega, .inr ?_, ?_⟩, ?_, 2 * i + 3, inside, .inr ⟨by omega, .inr ?_⟩, ?_⟩
  · simp only [SwitchPlace.header, form, Bool.false_eq_true, if_false]
    omega
  · rw [← fits.base, SwitchLayout.pair]
    omega
  · rintro ⟨j, _, which, same⟩
    rw [← fits.base, SwitchLayout.pair] at same
    rcases which with rfl | ⟨_, table | odd⟩
    · omega
    · rw [form] at table
      cases table
    · omega
  · omega
  · rw [← fits.base, SwitchLayout.pair]
    omega

theorem fillTable_ok (table : layout.table = true)
    (inside : ∀ label ∈ labels, (label.toInt - layout.low).toNat + 3 < place.count)
    (holds : Holds ctx s σ b owned) (member : place ∈ s.switches)
    (leads : s.LeadsIn place.start offset)
    (run : fillTable layout offset labels mc σ ctx b = .ok (y, σ') b') :
    σ = σ' ∧ ∃ s', s.Steady s' ∧ Holds ctx s' σ b' owned := by
  induction labels generalizing s b with
  | nil =>
    cases run
    exact ⟨rfl, s, .refl s, holds⟩
  | cons label rest ih =>
    obtain ⟨_, c, ran, run⟩ := lift_bind_ok.mp run
    have offset' := fits.offset_slot table (inside label (.head _))
    obtain ⟨s1, steady, _, holds1⟩ := holds.putWord member offset'.isSlot (fun _ => leads) ran
    obtain ⟨same, s2, steady', holds2⟩ := ih
      (fun label member => inside label (.tail _ member)) holds1
      (steady.switches place member) (leads.mono steady.toExtends) run
    exact ⟨same, s2, steady.trans steady', holds2⟩

theorem leadsIn_of_entry {c : Buffer} (holds : Holds ctx s σ b owned) (member : place ∈ s.switches)
    (entered : Asm.entryPointWith state none ctx c = .ok pc b) (entry : pc ∈ s.entries)
    (run : switchOffset layout pc mc σ ctx b = .ok (offset, σ') b') :
    σ = σ' ∧ b = b' ∧ s.LeadsIn place.start offset := by
  unfold switchOffset at run
  split at run
  · next near =>
    cases run
    refine ⟨rfl, rfl, ?_⟩
    have size : pc = b.code.size := by
      obtain ⟨d, asked, rfl⟩ := Asm.entryPointWith_ok entered
      have last := Asm.position_size asked
      exact last
    have inCode := fits.offset_base.inCode holds.owns.sound.accounted.slotted member
    have before := inCode.lt_length
    rw [holds.owns.buffer, Buffer.length_bytes, ← size, ← fits.start] at before
    have value : (Int32.ofNat (pc - layout.start)).toInt = (pc - layout.start : Nat) :=
      Int32.toInt_ofNat_of_lt near
    refine ⟨by omega, pc, entry, ?_⟩
    rw [value, ← fits.start]
    omega
  · exact (throw_ok.mp run).elim

theorem aimCase_ok
    (inside : layout.table = true → ∀ label ∈ case.labels, (label.toInt - layout.low).toNat + 3 <
      place.count) (holds : Holds ctx s σ b owned) (member : place ∈ s.switches)
    (leads : s.LeadsIn place.start offset)
    (run : aimCase layout case offset mc σ ctx b = .ok (y, σ') b') :
    σ = σ' ∧ ∃ s', s.Steady s' ∧ Holds ctx s' σ b' owned := by
  obtain ⟨_, σ1, b1, labelled, run⟩ := bind_ok.mp run
  -- The table, if there is one, gets the offset for every label.
  have filled : σ = σ1 ∧ ∃ s1, s.Steady s1 ∧ Holds ctx s1 σ b1 owned := by
    split at labelled
    · next table => exact fillTable_ok fits table (inside table) holds member leads labelled
    · cases labelled
      exact ⟨rfl, s, .refl s, holds⟩
  obtain ⟨rfl, s1, steady, holds1⟩ := filled
  split at run
  · obtain ⟨rfl, ran⟩ := lift_ok.mp run
    obtain ⟨s2, steady', _, holds2⟩ := holds1.putWord (steady.switches place member)
      fits.offset_base.isSlot (fun _ => leads.mono steady.toExtends) ran
    exact ⟨rfl, s2, steady.trans steady', holds2⟩
  · cases run
    exact ⟨rfl, s1, steady, holds1⟩

theorem genCases_ok (sound : ∀ case ∈ cases, Keeps Tracks 0 case.code fun _ => 0)
    (inside : layout.table = true → ∀ case ∈ cases, ∀ label ∈ case.labels,
      (label.toInt - layout.low).toNat + 3 < place.count) (holds : Holds ctx s σ b owned)
    (member : place ∈ s.switches) (leads : ∀ entry ∈ found, s.LeadsIn place.start entry.2)
    (run : genCases layout state found cases mc σ ctx b = .ok (found', σ') b') :
    ∃ s', Tracks s σ s' σ' ∧ Holds ctx s' σ' b' owned ∧
      (∀ entry ∈ found', s'.LeadsIn place.start entry.2) ∧
      found'.length = found.length + (cases.flatMap (·.labels)).length ∧
      (cases ≠ [] → b.pending = [] → b.code.size ∈ s'.entries) := by
  induction cases generalizing s σ b found with
  | nil =>
    cases run
    exact ⟨s, Change.Lawful.refl s _, holds, leads, by simp, fun any => absurd rfl any⟩
  | cons case rest ih =>
    rw [genCases_cons] at run
    obtain ⟨pc, b1, ran, run⟩ := lift_bind_ok.mp run
    obtain ⟨s1, steady1, _, entry, holds1⟩ := holds.entryPointWith ran
    have member1 := steady1.switches place member
    obtain ⟨offset, _, _, measured, run⟩ := bind_ok.mp run
    obtain ⟨rfl, rfl, lead⟩ := leadsIn_of_entry fits holds1 member1 ran entry measured
    obtain ⟨_, _, b2, aimed, run⟩ := bind_ok.mp run
    obtain ⟨rfl, s2, steady2, holds2⟩ := aimCase_ok fits
      (fun table => inside table case (.head _)) holds1 member1 lead aimed
    have steady := steady1.trans steady2
    obtain ⟨_, σ3, b3, coded, run⟩ := bind_ok.mp run
    obtain ⟨s3, tracks, holds3⟩ := (sound case (.head _)).run coded holds2
    have later : s2.Extends s3 := tracks.grows.toExtends
    have leads3 : ∀ entry ∈ (case.labels.map (·, offset)).reverse ++ found,
        s3.LeadsIn place.start entry.2 := by
      intro entry listed
      rcases List.mem_append.mp listed with new | old
      · obtain ⟨label, _, rfl⟩ := List.mem_map.mp (List.mem_reverse.mp new)
        exact (lead.mono steady2.toExtends).mono later
      · exact ((leads entry old).mono steady.toExtends).mono later
    obtain ⟨s4, tracks', holds4, leads4, count, _⟩ := ih
      (fun case member => sound case (.tail _ member))
      (fun table case member => inside table case (.tail _ member))
      holds3 (later.switches place (steady2.switches place member1)) leads3 run
    refine ⟨s4, ?_, holds4, leads4, ?_, fun _ none => ?_⟩
    · exact Leaves.trans (Leaves.still steady rfl) (Leaves.trans tracks tracks')
    · rw [count, List.flatMap_cons, List.length_append, List.length_append, List.length_reverse,
        List.length_map]
      omega
    · have here : pc = b.code.size := by
        obtain ⟨_, asked, _⟩ := Asm.entryPointWith_ok ran
        obtain ⟨c, _, flushes, rfl, _⟩ := Asm.position_ok asked
        rw [(flushes.of_nil none).1]
      rw [← here]
      exact tracks'.grows.entries pc (later.entries pc (steady2.entries pc entry))

theorem completeTable_ok (table : layout.table = true) (inside : first + count + 3 ≤ place.count)
    (holds : Holds ctx s σ b owned) (member : place ∈ s.switches)
    (leads : s.LeadsIn place.start offset)
    (run : completeTable layout offset first count mc σ ctx b = .ok (y, σ') b') :
    σ = σ' ∧ ∃ s', s.Steady s' ∧ Holds ctx s' σ b' owned ∧
      ∀ i, first ≤ i → i < first + count → layout.slot i ∈ s'.filled := by
  induction count generalizing s b first with
  | zero =>
    cases run
    exact ⟨rfl, s, .refl s, holds, fun i _ _ => by omega⟩
  | succ count ih =>
    rw [completeTable, buffer_bind] at run
    have slot := fits.offset_slot table (show first + 3 < place.count by omega)
    have put : ∃ b1 s1, s.Steady s1 ∧ layout.slot first ∈ s1.filled ∧ Holds ctx s1 σ b1 owned ∧
        completeTable layout offset (first + 1) count mc σ ctx b1 = .ok (y, σ') b' := by
      by_cases missing : (b.word32 (layout.slot first) == -1) = true
      · rw [if_pos missing] at run
        obtain ⟨_, b1, ran, run⟩ := lift_bind_ok.mp run
        obtain ⟨s1, steady, filled, holds1⟩ := holds.putWord member slot.isSlot (fun _ => leads) ran
        exact ⟨b1, s1, steady, filled, holds1, run⟩
      · rw [if_neg missing] at run
        have filled := holds.owns.sound.filled_of_ne member slot
          (by rw [holds.owns.buffer]; simpa using missing)
        exact ⟨b, s, .refl s, filled, holds, run⟩
    obtain ⟨b1, s1, steady, filled, holds1, run⟩ := put
    obtain ⟨same, s2, steady', holds2, rest⟩ := ih (by omega) holds1
      (steady.switches place member) (leads.mono steady.toExtends) run
    refine ⟨same, s2, steady.trans steady', holds2, fun i lower upper => ?_⟩
    rcases Nat.eq_or_lt_of_le lower with rfl | after
    · exact steady'.filled _ filled
    · exact rest i after (by omega)

theorem fillList_ok {entries : List (Int32 × Int32)} (list : layout.table = false)
    (inside : 2 * (first + entries.length) + 2 ≤ place.count) (holds : Holds ctx s σ b owned)
    (member : place ∈ s.switches) (leads : ∀ entry ∈ entries, s.LeadsIn place.start entry.2)
    (run : fillList layout first entries mc σ ctx b = .ok (y, σ') b') :
    σ = σ' ∧ ∃ s', s.Steady s' ∧ Holds ctx s' σ b' owned ∧
      ∀ i, first ≤ i → i < first + entries.length → layout.pair i + 4 ∈ s'.filled := by
  induction entries generalizing s b first with
  | nil =>
    cases run
    exact ⟨rfl, s, .refl s, holds, fun i _ upper => by rw [List.length_nil] at upper; omega⟩
  | cons entry rest ih =>
    rw [List.length_cons] at inside
    obtain ⟨value, noOffset, offset⟩ := fits.pair list (show 2 * first + 3 < place.count by omega)
    obtain ⟨_, b1, ran, run⟩ := lift_bind_ok.mp run
    obtain ⟨s1, steady1, _, holds1⟩ := holds.putWord member value (fun is => absurd is noOffset) ran
    obtain ⟨_, b2, ran', run⟩ := lift_bind_ok.mp run
    have member1 := steady1.switches place member
    obtain ⟨s2, steady2, filled, holds2⟩ := holds1.putWord member1 offset.isSlot
      (fun _ => (leads entry (.head _)).mono steady1.toExtends) ran'
    have steady := steady1.trans steady2
    obtain ⟨same, s3, steady3, holds3, others⟩ := ih (by omega) holds2
      (steady.switches place member)
      (fun entry member => (leads entry (.tail _ member)).mono steady.toExtends) run
    refine ⟨same, s3, steady.trans steady3, holds3, fun i lower upper => ?_⟩
    rw [List.length_cons] at upper
    rcases Nat.eq_or_lt_of_le lower with rfl | after
    · exact steady3.filled _ filled
    · exact others i after (by omega)

end

theorem clear_of_switch (sound : s.Sound ctx)
    (placed : Asm.placeSwitch table operands ctx s.buffer = .ok (some place) b)
    (logs : (Call.switch table operands).Logs ctx s.buffer b log) :
    (s.after (.switch table operands) (some place) b log).Clear := by
  obtain ⟨_, flushes'⟩ := logs
  rcases Asm.placeSwitch_core placed with ⟨_, _, answer⟩ | ⟨c, _, flushes, _, grows⟩
  · cases answer
  obtain ⟨rfl, rfl⟩ := flushes.unique flushes'
  have upright := sound.stands.upright.flushes sound.stands.firm sound.accounted.carries
    sound.accounted.slotted flushes
  have tiled := (sound.accounted.carries.flushes flushes).wired.tiled
  obtain ⟨frames, lines, _⟩ : Rows true c.bytes (Asm.begun ctx c).tables.frames ∧
      Rows true c.bytes (Asm.begun ctx c).tables.lines ∧ _ :=
    Asm.rows_begun grows.alive tiled upright.frames upright.lines
  rw [← grows.tables] at frames lines
  have grown : c.code.size < b.code.size := by
    rw [grows.size_eq, Bytes.ofSwitch, List.length_cons]
    omega
  have early : ∀ {alive p}, Inside alive c.bytes p → p < b.code.size := by
    intro alive p inside
    have bound := inside.le_length
    rw [Buffer.length_bytes] at bound
    omega
  exact ⟨(Nat.zero_lt_of_lt grown).ne', fun p member => (early (upright.entered p member)).ne,
    fun entry member => (early (upright.landed entry member)).ne,
    fun row member => (early (frames.inside row member)).ne,
    fun row member => (early (lines.inside row member)).ne⟩

theorem placeSwitch_settled (placed : Asm.placeSwitch table operands ctx b = .ok (some place) b') :
    b'.pending = [] ∧ b'.alive = true ∧ place.base + 4 * place.count = b'.code.size := by
  rcases Asm.placeSwitch_core placed with ⟨_, _, answer⟩ | ⟨c, log, flushes, answer, grows⟩
  · cases answer
  · cases answer
    have total := Bytes.length_ofSwitch table c.code.size operands
    have after := Bytes.lt_switchBase c.code.size
    refine ⟨(congrArg Buffer.Core.pending grows.core).trans flushes.pending_eq,
      congrArg Buffer.Core.alive grows.core, ?_⟩
    rw [grows.size_eq]
    dsimp only
    omega

theorem placeSwitch_none (placed : Asm.placeSwitch table operands ctx b = .ok none b') :
    b' = b := by
  rcases Asm.placeSwitch_core placed with ⟨_, same, _⟩ | ⟨c, log, flushes, answer, _⟩
  · exact same
  · cases answer

/-- A case that a switch can reach from behind its operands, of which there are not too many then. -/
theorem operands_few {d : Buffer}
    (placed : Asm.placeSwitch table operands ctx b = .ok (some place) b')
    (entered : Asm.entryPointWith state none ctx { b' with alive := false } = .ok pc d)
    (near : pc - place.start < 0x80000000) : operands.length < 536870912 := by
  rcases Asm.placeSwitch_core placed with ⟨_, _, answer⟩ | ⟨c, log, flushes, answer, grows⟩
  · cases answer
  cases answer
  obtain ⟨e, asked, _⟩ := Asm.entryPointWith_ok entered
  obtain ⟨f, more, flushed, rfl, _⟩ := Asm.position_ok asked
  obtain ⟨rfl, _⟩ := flushed.of_nil ((congrArg Buffer.Core.pending grows.core).trans flushes.pending_eq)
  have total := Bytes.length_ofSwitch table c.code.size operands
  have after := Bytes.lt_switchBase c.code.size
  have size := grows.size_eq
  change b'.code.size - c.code.size < _ at near
  omega

theorem labels_few (placed : Asm.placeSwitch table operands ctx b = .ok (some place) b')
    (start : layout.start = place.start) {σ1 : MethodState}
    (run : genCases layout state found (case :: rest) mc σ ctx { b' with alive := false } = .ok
      (found', σ1) b1) : operands.length < 536870912 := by
  obtain ⟨pc, d, ran, run⟩ := lift_bind_ok.mp run
  obtain ⟨offset, _, _, measured, _⟩ := bind_ok.mp run
  unfold switchOffset at measured
  split at measured
  · next near =>
    rw [start] at near
    exact operands_few placed ran near
  · exact (throw_ok.mp measured).elim

theorem Leaves.placed {before after : Nat → Prop} {s1 : Session}
    (placed : Asm.placeSwitch table operands ctx s.buffer = .ok (some place) b)
    (leaves : Leaves before after (s.after (.switch table operands) (some place) b log) σ s1 σ')
    (closed : s1.Closed place) : Leaves before after s σ s1 σ' := by
  have catches : b.catches.toList = s.buffer.catches.toList := by
    have same := (Call.switch table operands).catches_eq placed
    rwa [show (Call.switch table operands).rows = [] from rfl, List.append_nil] at same
  have extends_ := s.extends_after (.switch table operands) (some place) b log
  refine ⟨⟨⟨⟨extends_.trans leaves.grows.toExtends, fun other member => ?_⟩, leaves.size,
    leaves.gaps⟩, leaves.shut⟩, ?_⟩
  · rcases leaves.grows.closed other member with old | closed'
    · rcases List.mem_cons.mp (show other ∈ place :: s.switches from old) with rfl | old
      · exact .inr closed
      · exact .inl old
    · exact .inr closed'
  · obtain ⟨rows, same, fresh⟩ := leaves.rows
    exact ⟨rows, same.trans (congrArg (· ++ rows) catches), fresh⟩

/-- The default offset is filled in, at the end of the switch if no case is the default one. -/
theorem aimDefault_ok (fits : Fits layout place) (holds : Holds ctx s σ b owned)
    (member : place ∈ s.switches) (run : aimDefault layout state mc σ ctx b = .ok (y, σ') b') :
    σ = σ' ∧ ∃ s', s.Steady s' ∧ layout.base ∈ s'.filled ∧ Holds ctx s' σ b' owned := by
  rw [aimDefault, buffer_bind] at run
  split at run
  · obtain ⟨pc, c, ran, run⟩ := lift_bind_ok.mp run
    obtain ⟨s1, steady1, _, entry, holds1⟩ := holds.entryPointWith ran
    have member1 := steady1.switches place member
    obtain ⟨offset, _, _, measured, run⟩ := bind_ok.mp run
    obtain ⟨rfl, rfl, lead⟩ := leadsIn_of_entry fits holds1 member1 ran entry measured
    obtain ⟨rfl, ran'⟩ := lift_ok.mp run
    obtain ⟨s2, steady2, filled, holds2⟩ := holds1.putWord member1 fits.offset_base.isSlot
      (fun _ => lead) ran'
    exact ⟨rfl, s2, steady1.trans steady2, filled, holds2⟩
  · next missing =>
    cases run
    have filled := holds.owns.sound.filled_of_ne member fits.offset_base
      (by rw [holds.owns.buffer]; simpa using missing)
    exact ⟨rfl, s, .refl s, filled, holds⟩

theorem fillRest_ok (fits : Fits layout place) (holds : Holds ctx s σ b owned)
    (member : place ∈ s.switches)
    (size : place.count = if layout.table then layout.span + 3 else 2 * found.length + 2)
    (default : layout.base ∈ s.filled) (leads : ∀ entry ∈ found, s.LeadsIn place.start entry.2)
    (run : fillRest layout found mc σ ctx b = .ok (y, σ') b') :
    σ = σ' ∧ ∃ s', s.Steady s' ∧ (∀ pos, place.IsOffset pos → pos ∈ s'.filled) ∧
      Holds ctx s' σ b' owned := by
  unfold fillRest at run
  by_cases table : layout.table = true
  · rw [if_pos table] at run size
    rw [buffer_bind] at run
    have lead := holds.owns.sound.leadsIn member fits.offset_base default
    rw [holds.owns.buffer] at lead
    obtain ⟨rfl, s1, steady, holds1, filled⟩ := completeTable_ok fits table
      (by omega) holds member lead run
    refine ⟨rfl, s1, steady, ?_, holds1⟩
    rintro pos ⟨i, inside, rfl | ⟨late, _⟩, rfl⟩
    · rw [← fits.base]
      exact steady.filled _ default
    · have slot := filled (i - 3) (Nat.zero_le _) (by omega)
      rwa [SwitchLayout.slot, fits.base, show i - 3 + 3 = i by omega] at slot
  · have list : layout.table = false := by simpa using table
    rw [if_neg table] at run size
    have length : (found.reverse.mergeSort fun a b => decide (a.1 ≤ b.1)).length = found.length := by
      rw [List.length_mergeSort, List.length_reverse]
    obtain ⟨rfl, s1, steady, holds1, filled⟩ := fillList_ok fits list
      (by rw [length]; omega) holds member
      (fun entry listed => leads entry (List.mem_reverse.mp (List.mem_mergeSort.mp listed))) run
    refine ⟨rfl, s1, steady, ?_, holds1⟩
    rintro pos ⟨i, inside, rfl | ⟨late, which⟩, rfl⟩
    · rw [← fits.base]
      exact steady.filled _ default
    · have odd : i % 2 = 1 := which.resolve_left (by rw [← fits.table, list]; decide)
      have pair := filled ((i - 3) / 2) (Nat.zero_le _) (by rw [length]; omega)
      rwa [SwitchLayout.pair, fits.base,
        show place.base + 8 * ((i - 3) / 2 + 1) + 4 = place.base + 4 * i by omega] at pair

theorem fits_placed
    (placed : Asm.placeSwitch (tableFor labels) (operandsFor labels) ctx b =
      .ok (some place) b') :
    Fits (at_ labels place) place ∧ place.table = tableFor labels ∧
      place.count = (operandsFor labels).length := by
  obtain ⟨c, log, flushes, ⟨_, _, answer⟩ | ⟨_, answer, _⟩⟩ := Asm.placeSwitch_ok placed
  · cases answer
  · cases answer
    refine ⟨⟨rfl, rfl, rfl, ?_⟩, rfl, rfl⟩
    change 0 < (operandsFor labels).length
    unfold operandsFor
    split <;> simp

theorem length_operandsFor (labels : List Int32) :
    (operandsFor labels).length = if tableFor labels then
      (highest labels - lowest labels + 1).toNat + 3
      else 2 * labels.length + 2 := by
  unfold operandsFor
  split <;> simp

theorem label_inside (member : label ∈ labels) (table : tableFor labels = true) :
    (label.toInt - lowest labels).toNat + 3 <
      (operandsFor labels).length := by
  obtain ⟨low, high⟩ := mem_range member
  rw [length_operandsFor, if_pos table]
  omega

theorem placed_ok (few : tableFor labels = true ∨ labels.length < 2147483648)
    (holds : Holds ctx s σ b owned)
    (placed : Asm.placeSwitch (tableFor labels) (operandsFor labels) ctx b =
      .ok (some place) b1) (dead : Asm.markDead ctx b1 = .ok () b') :
    ∃ s1, place ∈ s1.switches ∧ Holds ctx s1 σ b' owned ∧ ∀ {before after s2 σ2},
      Leaves before after s1 σ s2 σ2 → s2.Closed place → Leaves before after s σ s2 σ2 := by
  obtain rfl := holds.owns.buffer
  obtain ⟨log, logs, holds1⟩ := holds.ask
    (.switch (tableFor labels) (operandsFor labels)) rfl rfl
    (operandsFor_complete few) (fun i word => operandsFor_open) placed
  have clear := clear_of_switch holds.owns.sound placed logs
  obtain ⟨s2, steady, holds2⟩ := holds1.note .markDead clear rfl dead
  exact ⟨s2, steady.switches place (.head _), holds2, fun leaves closed =>
    Leaves.placed placed (Leaves.trans (Leaves.still steady rfl) leaves) closed⟩

theorem keeps_dispatch (limit : UInt16) (any : cases ≠ [])
    (sound : ∀ case ∈ cases, Keeps Tracks 0 case.code fun _ => 0) :
    Keeps Tracks 0 (do
      match ← openSwitch (cases.flatMap (·.labels)) with
      | none => pure ()
      | some layout => dispatch limit cases layout : Lowering Unit) fun _ => 0 := by
  intro mc ctx σ σ' b b' y run s rest _ holds known
  cases known
  obtain ⟨answer, _, b1, opened, run⟩ := bind_ok.mp run
  obtain ⟨rfl, found, placed, rfl⟩ := openSwitch_ok opened
  cases found with
  | none =>
    cases run
    obtain rfl := placeSwitch_none placed
    exact ⟨s, Change.Lawful.refl s σ, holds⟩
  | some place =>
    change dispatch limit cases (at_ _ place) mc σ ctx b1 = _ at run
    rw [dispatch, buffer_bind] at run
    obtain ⟨_, b2, dead, run⟩ := lift_bind_ok.mp run
    obtain ⟨⟨found, record⟩, σ1, b3, inner, after⟩ := bind_ok.mp run
    obtain ⟨inside, cased, same, rfl⟩ := of_enclosed inner
    obtain rfl := holds.owns.buffer
    -- The switch can be described by its operands.
    have few : tableFor (cases.flatMap (·.labels)) = true ∨
        (cases.flatMap (·.labels)).length < 2147483648 := by
      by_contra many
      rw [not_or] at many
      cases cases with
      | nil => exact any rfl
      | cons case others =>
        cases Asm.markDead_ok.mp dead
        have count := labels_few placed rfl cased
        rw [operandsFor, if_neg many.1] at count
        simp only [List.length_cons, List.length_replicate] at count
        omega
    obtain ⟨s1, member, holds1, through⟩ := placed_ok few holds placed dead
    obtain ⟨fits, form, count⟩ := fits_placed placed
    obtain ⟨s2, tracks, holds2, leads, total, entered⟩ := genCases_ok fits sound
      (fun table case member label listed => by
        rw [count]
        exact label_inside (List.mem_flatMap.mpr ⟨case, member, listed⟩) (form.symm.trans table))
      holds1.enclose member (by simp) cased
    have outer := tracks.enclosed
    have member2 := outer.grows.switches place member
    -- The jumps out of the switch lead to its end.
    obtain ⟨_, b4, ran, run⟩ := lift_bind_ok.mp after
    have owned : Holds ctx s2 { inside with records := inside.records.drop 1 } b3
        ((record.exit.undefineFrom limit).pcs + (0 + rest)) := by
      refine holds2.disclose.mono ?_
      rw [add_comm, Chain.pcs_undefineFrom, show record = inside.records.getD 0 {} from same]
      refine add_le_add_right ?_ _
      exact (Multiset.le_add_right _ _).trans (Multiset.le_add_right _ _)
    obtain ⟨s3, steady3, holds3⟩ := owned.asm (Asm.keeps_resolve _) ran
    have member3 := steady3.switches place member2
    obtain ⟨_, _, b5, aimed, run⟩ := bind_ok.mp run
    obtain ⟨rfl, s4, steady4, default, holds4⟩ := aimDefault_ok fits holds3 member3 aimed
    have steady := steady3.trans steady4
    have size : place.count = if place.table then (at_ (cases.flatMap (·.labels)) place).span + 3
        else 2 * found.length + 2 := by
      rw [count, length_operandsFor, ← form, total, List.length_nil, Nat.zero_add]
      rfl
    obtain ⟨_, _, b6, filled, run⟩ := bind_ok.mp run
    obtain ⟨rfl, s5, steady5, offsets, holds5⟩ := fillRest_ok fits holds4
      (steady4.switches place member3) size default
      (fun entry listed => (leads entry listed).mono steady.toExtends) filled
    obtain ⟨rfl, ended⟩ := lift_ok.mp run
    obtain ⟨s6, steady6, holds6⟩ := holds5.asm (Asm.keeps_endScopes limit) ended
    have last := (steady.trans steady5).trans steady6
    refine ⟨s6, through (Leaves.trans outer (Leaves.still last rfl))
      ⟨fun pos offset => steady6.filled pos (offsets pos offset), ?_⟩, holds6.mono (zero_add _).ge⟩
    -- The first case starts right behind the switch.
    obtain ⟨none, _, ends⟩ := placeSwitch_settled placed
    cases Asm.markDead_ok.mp dead
    rw [ends]
    exact last.entries _ (entered any none)

theorem keeps_genSwitch {selector : Lowering Item} (given : IsHandy selector)
    (sound : ∀ case ∈ cases, Keeps Tracks 0 case.code fun _ => 0) :
    Keeps Tracks 0 (genSwitch selector cases) fun _ => 0 := by
  rw [genSwitch_eq]
  refine keeps_nextRegister.next fun limit => ?_
  refine (keeps_loadAs .int given).next_of (sites_loadAs .int given) fun selected known => ?_
  split
  · exact (keeps_drop known).next fun _ => keeps_endScopes limit
  · next nonempty =>
    exact keeps_dispatch limit (by simpa using nonempty) sound

end Lowering

end ClassForge
