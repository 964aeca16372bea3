import ClassForge.Proofs.Protection
import ClassForge.Proofs.Sparing

namespace ClassForge

variable {value : Int32} {c : Buffer} {labels : List Int32} {pc : Nat}

namespace Bytes

/-- The offset of a table for a value. -/
def tableOffset? (code : Bytes) (base : Nat) (value : Int32) : Option Int32 := do
  let low ← code.word32At? (base + 4)
  let high ← code.word32At? (base + 8)
  if value < low ∨ high < value then code.word32At? base
  else code.word32At? (base + 4 * ((value.toInt - low.toInt).toNat + 3))

/-- The offset for a value in the pairs from a position on. -/
def pairOffset? (code : Bytes) (base : Nat) (value : Int32) : Nat → Nat → Option Int32
  | _, 0 => code.word32At? base
  | pos, count + 1 =>
    if code.word32At? pos = some value then code.word32At? (pos + 4)
    else code.pairOffset? base value (pos + 8) count

/-- Where the machine goes from a switch with a value. -/
def switchTarget? (code : Bytes) (pc : Nat) (value : Int32) : Option Int := do
  let base := switchBase pc
  let opcode ← code[pc]?
  let offset ←
    if opcode = Opcode.tableSwitch then code.tableOffset? base value
    else if opcode = Opcode.lookupSwitch then do
      let count ← code.word32At? (base + 4)
      code.pairOffset? base value (base + 8) count.toInt.toNat
    else none
  return pc + offset.toInt

variable {code other : Bytes} {base pos start stop : Nat} {words : List Int32}

def Reads (code : Bytes) (base : Nat) (words : List Int32) : Prop :=
  ∀ i word, words[i]? = some word → code.word32At? (base + 4 * i) = some word

theorem Reads.tail {word : Int32} (reads : code.Reads base (word :: words)) :
    code.Reads (base + 4) words := by
  intro i found here
  rw [← reads (i + 1) found here]
  congr 1
  omega

theorem Reads.alike (reads : code.Reads base words) (alike : Alike start stop code other)
    (lower : start ≤ base) (upper : base + 4 * words.length ≤ stop) : other.Reads base words := by
  intro i word found
  have inside := (List.getElem?_eq_some_iff.mp found).1
  rw [← reads i word found]
  exact word32At?_congr fun j _ _ => alike j (by omega) (by omega)

theorem Reads.pairOffset? {pairs : List (Int32 × Int32)} {default : Int32}
    (top : code.word32At? base = some default)
    (reads : code.Reads pos (pairs.flatMap fun pair => [pair.1, pair.2])) :
    code.pairOffset? base value pos pairs.length =
      some (((pairs.find? (·.1 == value)).map (·.2)).getD default) := by
  induction pairs generalizing pos with
  | nil => exact top
  | cons pair rest ih =>
    have key : code.word32At? pos = some pair.1 := reads 0 _ rfl
    rw [List.length_cons, Bytes.pairOffset?, key, List.find?_cons]
    by_cases same : pair.1 = value
    · rw [if_pos (congrArg some same), beq_iff_eq.mpr same]
      exact reads 1 _ rfl
    · rw [if_neg (same <| Option.some.inj ·), beq_eq_false_iff_ne.mpr same]
      exact ih reads.tail.tail

theorem Reads.key {pairs : List (Int32 × Int32)} {i : Nat} {key : Int32}
    (reads : code.Reads pos (pairs.flatMap fun pair => [pair.1, pair.2]))
    (found : (pairs.map (·.1))[i]? = some key) : code.word32At? (pos + 8 * i) = some key := by
  induction pairs generalizing pos i with
  | nil => cases found
  | cons first rest ih =>
    cases i with
    | zero => exact reads 0 _ found
    | succ i =>
      rw [show pos + 8 * (i + 1) = pos + 4 + 4 + 8 * i by omega]
      exact ih reads.tail.tail found

end Bytes

open Bytes (Alike Quiet)

def Buffer.Patched (b b' : Buffer) : Prop := b' = { b with code := b'.code } ∧ b'.code.size = b.code.size

theorem Buffer.Patched.trans {b b' : Buffer} (first : b.Patched b') (second : b'.Patched c) :
    b.Patched c :=
  ⟨second.1.trans (by rw [first.1]), second.2.trans first.2⟩

namespace SwitchLayout

variable {layout : SwitchLayout} {count : Nat} {default : Int32} {aims : Int → Int32}
  {done : List (SwitchCase × Nat)}

/-- The operands before the pairs of a list are known. -/
def row (layout : SwitchLayout) (count : Nat) (default : Int32) (aims : Int → Int32) : List Int32 :=
  default :: if layout.table then
    Int32.ofInt layout.low :: Int32.ofInt layout.high ::
      (List.range layout.span).map fun i : Nat => aims (layout.low + i)
  else Int32.ofNat count :: List.replicate (2 * count) (-1)

theorem row_set (table : layout.table = true) (i : Nat) (offset : Int32) :
    (layout.row count default aims).set (i + 3) offset =
      layout.row count default (Function.update aims (layout.low + i) offset) := by
  simp only [row, table, if_true, List.set_cons_succ, List.cons.injEq, true_and]
  refine List.ext_getElem (by simp) fun j _ _ => ?_
  by_cases same : i = j
  · subst same
    simp
  · have differ : layout.low + (j : Int) ≠ layout.low + i := by omega
    simp [List.getElem_set_ne same, Function.update_of_ne differ]

theorem row_operandsFor {place : SwitchPlace} (form : place.table = tableFor labels) :
    (at_ labels place).row labels.length (-1) (fun _ => -1) = operandsFor labels := by
  unfold row operandsFor at_ span
  rw [form]
  split <;> simp

def aim (layout : SwitchLayout) (pc : Nat) : Int32 := Int32.ofNat (pc - layout.start)

def Near (layout : SwitchLayout) (pc : Nat) : Prop :=
  layout.start < pc ∧ pc - layout.start < 0x80000000

theorem Near.toInt_aim (near : layout.Near pc) : (layout.aim pc).toInt = pc - layout.start := by
  have value : (layout.aim pc).toInt = (pc - layout.start : Nat) := Int32.toInt_ofNat_of_lt near.2
  have := near.1
  omega

theorem Near.aim_ne (near : layout.Near pc) : layout.aim pc ≠ -1 := by
  intro same
  have value := near.toInt_aim
  have after := near.1
  rw [same] at value
  have negative : (-1 : Int32).toInt = -1 := by decide
  omega

def startOf? (entries : List (SwitchCase × Nat)) (p : SwitchCase → Bool) : Option Nat :=
  (entries.find? (p ·.1)).map (·.2)

theorem startOf?_cons (case : SwitchCase) (p : SwitchCase → Bool) :
    startOf? ((case, pc) :: done) p = if p case then some pc else startOf? done p := by
  unfold startOf?
  rw [List.find?_cons]
  split <;> simp_all

theorem startOf?_some {p : SwitchCase → Bool} (found : startOf? done p = some pc) :
    ∃ entry ∈ done, p entry.1 = true ∧ entry.2 = pc := by
  obtain ⟨entry, first, rfl⟩ := Option.map_eq_some_iff.mp found
  exact ⟨entry, List.mem_of_find?_eq_some first, by simpa using List.find?_some first, rfl⟩

/-- The offset of the case for a label, given the cases so far from the last one to the first. -/
def aimFor (layout : SwitchLayout) (done : List (SwitchCase × Nat)) (none : Int32) (label : Int) : Int32 :=
  (startOf? done (·.labels.any (·.toInt == label))).elim none layout.aim

def aimElse (layout : SwitchLayout) (done : List (SwitchCase × Nat)) (none : Int32) : Int32 :=
  (startOf? done (·.isDefault)).elim none layout.aim

def listing (layout : SwitchLayout) (done : List (SwitchCase × Nat)) : List (Int32 × Int32) :=
  done.flatMap fun entry => (entry.1.labels.map (·, layout.aim entry.2)).reverse

def sofar (layout : SwitchLayout) (count : Nat) (done : List (SwitchCase × Nat)) : List Int32 :=
  layout.row count (layout.aimElse done (-1)) (layout.aimFor done (-1))

def sorted (layout : SwitchLayout) (done : List (SwitchCase × Nat)) : List (Int32 × Int32) :=
  (layout.listing done).reverse.mergeSort fun a b => a.1 ≤ b.1

def completed (layout : SwitchLayout) (default : Int32) (done : List (SwitchCase × Nat)) : List Int32 :=
  if layout.table then layout.row 0 default (layout.aimFor done default)
  else default :: Int32.ofNat (layout.sorted done).length ::
    (layout.sorted done).flatMap fun pair => [pair.1, pair.2]

theorem perm_sorted : (layout.sorted done).Perm (layout.listing done) :=
  (List.mergeSort_perm _ _).trans (List.reverse_perm _)

theorem any_toInt : labels.any (·.toInt == value.toInt) = true ↔ value ∈ labels := by
  simp [Int32.toInt_inj]

theorem find?_sorted (distinct : ((layout.listing done).map (·.1)).Nodup) :
    (((layout.sorted done).find? (·.1 == value)).map (·.2)).getD default =
      layout.aimFor done default value.toInt := by
  have listed {offset : Int32} : (value, offset) ∈ layout.sorted done ↔
      ∃ entry ∈ done, value ∈ entry.1.labels ∧ layout.aim entry.2 = offset := by
    rw [perm_sorted.mem_iff]
    simp [listing]
  have keys := (perm_sorted.map (·.1)).nodup_iff.mpr distinct
  unfold aimFor
  cases found : (layout.sorted done).find? (·.1 == value) with
  | none =>
    cases hit : startOf? done (·.labels.any (·.toInt == value.toInt)) with
    | none => rfl
    | some pc =>
      obtain ⟨entry, member, has, rfl⟩ := startOf?_some hit
      have here := listed.mpr ⟨entry, member, any_toInt.mp has, rfl⟩
      simpa using List.find?_eq_none.mp found _ here
  | some pair =>
    obtain ⟨key, offset⟩ := pair
    obtain rfl : key = value := by simpa using List.find?_some found
    have here := List.mem_of_find?_eq_some found
    obtain ⟨entry, member, has, _⟩ := listed.mp here
    cases hit : startOf? done (·.labels.any (·.toInt == key.toInt)) with
    | none => simpa [any_toInt.mpr has] using List.find?_eq_none.mp (Option.map_eq_none_iff.mp hit) entry member
    | some pc =>
      obtain ⟨other, member, has, rfl⟩ := startOf?_some hit
      have there := listed.mpr ⟨other, member, any_toInt.mp has, rfl⟩
      exact congrArg Prod.snd (List.inj_on_of_nodup_map keys here there rfl)

/-- The bounds of a table are those of its labels. -/
structure Spans (layout : SwitchLayout) (entries : List (SwitchCase × Nat)) : Prop where
  low : (Int32.ofInt layout.low).toInt = layout.low
  high : (Int32.ofInt layout.high).toInt = layout.high
  inside : ∀ entry ∈ entries, ∀ label ∈ entry.1.labels, layout.low ≤ label.toInt ∧ label.toInt ≤ layout.high

/-- The switch stands in the code, with the words as its operands, and no waiting jump is in it. -/
structure Standing (layout : SwitchLayout) (wide : Bool) (words : List Int32) (waiting : Multiset Nat)
    (b : Buffer) : Prop where
  quiet : Quiet wide layout.start (layout.base + 4 * words.length) (b.pending.pcs + waiting) b.bytes
  base : layout.base = Bytes.switchBase layout.start
  opcode : b.bytes[layout.start]? =
    some (if layout.table then Opcode.tableSwitch else Opcode.lookupSwitch)
  reads : b.bytes.Reads layout.base words

namespace Standing

variable {wide : Bool} {i : Nat}
variable {ctx : Context} {words : List Int32} {waiting others : Multiset Nat} {b b' : Buffer}

theorem keep (standing : layout.Standing wide words waiting b)
    (alike : Alike layout.start (layout.base + 4 * words.length) b.bytes b'.bytes)
    (quiet : Quiet wide layout.start (layout.base + 4 * words.length) (b'.pending.pcs + others)
      b'.bytes) : layout.Standing wide words others b' where
  quiet := quiet
  base := standing.base
  opcode := (alike _ le_rfl quiet.some).trans standing.opcode
  reads := standing.reads.alike alike (by
    rw [standing.base]
    exact (Bytes.lt_switchBase _).le) le_rfl

theorem fewer (standing : layout.Standing wide words waiting b) (less : ∀ pc ∈ others, pc ∈ waiting) :
    layout.Standing wide words others b := by
  refine standing.keep (fun _ _ _ => rfl) (standing.quiet.fewer fun pc member => ?_)
  exact Multiset.mem_add.mpr ((Multiset.mem_add.mp member).imp_right (less pc))

theorem call {α : Type} (call : Call α) {answer : α}
    (standing : layout.Standing ctx.wide words (call.takes + others) b) (still : call.fills = [])
    (run : call.perform ctx b = .ok answer b') :
    layout.Standing ctx.wide words (call.gives answer + others) b' := by
  obtain ⟨alike, quiet⟩ := call.spares standing.quiet (by simp [still]) run
  exact standing.keep alike quiet

theorem putWord (standing : layout.Standing ctx.wide words waiting b) (inside : i < words.length)
    (run : Asm.putWord (layout.base + 4 * i) value ctx b = .ok () b') :
    layout.Standing ctx.wide (words.set i value) waiting b' ∧ b.Patched b' := by
  obtain ⟨_, size, same⟩ := Asm.putWord_ok run
  have room := standing.quiet.inside
  have after := Bytes.lt_switchBase layout.start
  rw [← standing.base] at after
  rw [Buffer.length_bytes] at room
  cases Asm.modify_ok.mp run
  refine ⟨⟨?_, standing.base, ?_, fun j word found => ?_⟩, rfl, size⟩
  · rw [List.length_set]
    exact ⟨standing.quiet.some, by rwa [Buffer.length_bytes, size], standing.quiet.apart⟩
  · rw [same _ (.inl (by omega))]
    exact standing.opcode
  · by_cases here : i = j
    · subst here
      rw [List.getElem?_set_self inside] at found
      cases found
      exact Buffer.word32At?_overwrite value (by omega)
    · rw [List.getElem?_set_ne here] at found
      rw [← standing.reads j word found]
      exact Bytes.word32At?_congr fun k lower upper => same k (by omega)

theorem word {word : Int32} (standing : layout.Standing wide words waiting b)
    (found : words[i]? = some word) : b.word32 (layout.base + 4 * i) = word :=
  Buffer.word32_eq (standing.reads i word found)

theorem target_table (table : layout.table = true)
    (spans : layout.Spans done)
    (standing : layout.Standing wide (layout.row count default aims) waiting b) (value : Int32) :
    b.bytes.switchTarget? layout.start value = some (layout.start +
      (if value.toInt < layout.low ∨ layout.high < value.toInt then default
        else aims value.toInt).toInt) := by
  have reads := standing.reads
  have opcode := standing.opcode
  rw [standing.base, row, table, if_pos rfl] at reads
  have first : b.bytes.word32At? (Bytes.switchBase layout.start) = some default := reads 0 _ rfl
  simp only [table, if_true] at opcode
  simp only [Bytes.switchTarget?, opcode, Bytes.tableOffset?, Option.bind_eq_bind, Option.bind_some,
    if_true, reads 1 _ rfl, reads 2 _ rfl, Int32.lt_iff_toInt_lt, spans.low, spans.high]
  split
  · rw [first]
    rfl
  · next within =>
    rw [not_or] at within
    rw [reads ((value.toInt - layout.low).toNat + 3) (aims value.toInt)]
    · rfl
    · simp only [List.getElem?_cons_succ, List.getElem?_map]
      rw [List.getElem?_range (by unfold span; omega), Option.map_some]
      congr 2
      omega

theorem target_list {pairs : List (Int32 × Int32)} (list : layout.table = false)
    (few : pairs.length < 2147483648)
    (standing : layout.Standing wide (default :: Int32.ofNat pairs.length ::
      pairs.flatMap fun pair => [pair.1, pair.2]) waiting b) (value : Int32) :
    b.bytes.switchTarget? layout.start value =
      some (layout.start + (((pairs.find? (·.1 == value)).map (·.2)).getD default).toInt) := by
  have reads := standing.reads
  have opcode := standing.opcode
  rw [standing.base] at reads
  have rest : b.bytes.Reads (Bytes.switchBase layout.start + 8) _ := reads.tail.tail
  simp only [list, Bool.false_eq_true, if_false] at opcode
  have other : Opcode.lookupSwitch ≠ Opcode.tableSwitch := by decide
  simp only [Bytes.switchTarget?, opcode, Option.bind_eq_bind, Option.bind_some, if_neg other, if_true,
    reads 1 _ rfl, show (Int32.ofNat pairs.length).toInt = _ from Int32.toInt_ofNat_of_lt few,
    Int.toNat_natCast]
  rw [rest.pairOffset? (show b.bytes.word32At? (Bytes.switchBase layout.start) = _ from reads 0 _ rfl)]
  rfl

/-- A complete switch leads to the case of a label, and by default to where all other values go. -/
theorem target (spans : layout.table = true → layout.Spans done)
    (few : layout.table = false → (layout.sorted done).length < 2147483648)
    (distinct : ((layout.listing done).map (·.1)).Nodup)
    (standing : layout.Standing wide (layout.completed default done) waiting b) (value : Int32) :
    b.bytes.switchTarget? layout.start value =
      some (layout.start + (layout.aimFor done default value.toInt).toInt) := by
  unfold completed at standing
  by_cases table : layout.table = true
  · rw [if_pos table] at standing
    rw [standing.target_table table (spans table)]
    split
    · next outside =>
      have none : startOf? done (·.labels.any (·.toInt == value.toInt)) = none := by
        refine Option.map_eq_none_iff.mpr (List.find?_eq_none.mpr fun entry member has => ?_)
        have := (spans table).inside entry member value (any_toInt.mp has)
        omega
      rw [aimFor, none]
      rfl
    · rfl
  · rw [if_neg table] at standing
    have list : layout.table = false := by simpa using table
    rw [standing.target_list list (few list), find?_sorted distinct]

end Standing

/-- Where a value leads to: the case that has it as a label, or else the default case, or the end of
the switch. If several cases are the default, it is the last of them. -/
def landing (entries : List (SwitchCase × Nat)) (stop : Nat) (value : Int32) : Nat :=
  ((startOf? entries.reverse (·.labels.contains value)).or
    (startOf? entries.reverse (·.isDefault))).getD stop

/-- The switch in the code leads every value to where it should, with the starts of the cases and the
position of the end. The operands are aligned, and the labels of a list go up. -/
structure Dispatches (layout : SwitchLayout) (entries : List (SwitchCase × Nat)) (stop : Nat)
    (code : Bytes) : Prop where
  target : ∀ value, code.switchTarget? layout.start value = some (landing entries stop value : Int)
  opcode : code[layout.start]? = some (if layout.table then Opcode.tableSwitch else Opcode.lookupSwitch)
  aligned : layout.base = Bytes.switchBase layout.start ∧ layout.base % 4 = 0
  ascending : layout.table = false → ∃ keys : List Int32, keys.Perm (entries.flatMap (·.1.labels)) ∧
    keys.Pairwise (· < ·) ∧ ∀ i key, keys[i]? = some key → code.word32At? (layout.pair i) = some key

theorem listing_reverse (layout : SwitchLayout) (entries : List (SwitchCase × Nat)) :
    (layout.listing entries.reverse).map (·.1) = (entries.flatMap (·.1.labels)).reverse := by
  simp [listing, List.map_flatMap, List.reverse_flatMap, Function.comp_def, List.map_reverse]

theorem pairwise_sorted (distinct : ((layout.listing done).map (·.1)).Nodup) :
    ((layout.sorted done).map (·.1)).Pairwise (· < ·) := by
  have keys := (perm_sorted.map (·.1)).nodup_iff.mpr distinct
  have weak : (layout.sorted done).Pairwise fun a b => a.1 ≤ b.1 := by
    refine (List.pairwise_mergeSort (fun a b c first second => ?_) (fun a b => ?_) _).imp
      fun le => of_decide_eq_true le
    · exact decide_eq_true (Int32.le_trans (of_decide_eq_true first) (of_decide_eq_true second))
    · simpa using Int32.le_total a.1 b.1
  exact List.pairwise_map.mpr ((weak.and (List.pairwise_map.mp keys)).imp fun both =>
    Int32.lt_of_le_of_ne both.1 both.2)

/-- What a complete switch does, from the offsets that it has. -/
theorem Standing.dispatches {entries : List (SwitchCase × Nat)} {wide : Bool} {waiting : Multiset Nat}
    {b : Buffer} {stop : Nat}
    (spans : layout.table = true → layout.Spans entries.reverse)
    (few : layout.table = false → (entries.flatMap (·.1.labels)).length < 2147483648)
    (distinct : (entries.flatMap (·.1.labels)).Nodup) (nears : ∀ entry ∈ entries, layout.Near entry.2)
    (ended : startOf? entries.reverse (·.isDefault) = none → layout.Near stop)
    (standing : layout.Standing wide (layout.completed
      (layout.aimElse entries.reverse (layout.aim stop)) entries.reverse) waiting b) :
    layout.Dispatches entries stop b.bytes := by
  have lands {pc : Nat} (near : layout.Near pc) : (layout.start : Int) + (layout.aim pc).toInt = pc := by
    rw [near.toInt_aim]
    omega
  have case {p : SwitchCase → Bool} {pc : Nat} (found : startOf? entries.reverse p = some pc) :
      layout.Near pc := by
    obtain ⟨entry, member, _, rfl⟩ := startOf?_some found
    exact nears entry (List.mem_reverse.mp member)
  have keys : ((layout.sorted entries.reverse).map (·.1)).Perm _ := perm_sorted.map (·.1)
  rw [listing_reverse] at keys
  have once : ((layout.listing entries.reverse).map (·.1)).Nodup := by
    rw [listing_reverse]
    exact List.nodup_reverse.mpr distinct
  have length := keys.length_eq
  rw [List.length_map, List.length_reverse] at length
  refine ⟨fun value => ?_, standing.opcode, ⟨standing.base, ?_⟩, fun list => ?_⟩
  · rw [standing.target spans (fun list => length ▸ few list) once]
    have same : (fun case : SwitchCase => case.labels.any (·.toInt == value.toInt)) =
        fun case => case.labels.contains value := by
      funext case
      rw [Bool.eq_iff_iff, any_toInt, List.contains_iff_mem]
    unfold aimFor aimElse landing
    rw [same]
    cases hit : startOf? entries.reverse (·.labels.contains value) with
    | some pc => exact congrArg some (lands (case hit))
    | none =>
      cases other : startOf? entries.reverse (·.isDefault) with
      | some pc => exact congrArg some (lands (case other))
      | none => exact congrArg some (lands (ended other))
  · rw [standing.base, Bytes.switchBase]
    omega
  · have reads := standing.reads
    rw [completed, if_neg (by simp [list])] at reads
    refine ⟨_, keys.trans (List.reverse_perm _), pairwise_sorted once, fun i key found => ?_⟩
    rw [pair, show layout.base + 8 * (i + 1) = layout.base + 4 + 4 + 8 * i by omega]
    exact reads.tail.tail.key found

end SwitchLayout

namespace Lowering

open SwitchLayout

variable {mc : MethodContext} {ctx : Context} {σ σ' : MethodState} {b b' : Buffer} {scopes : List Scope}
  {layout : SwitchLayout} {count : Nat} {default offset : Int32} {aims : Int → Int32}
  {waiting : Multiset Nat} {state : State} {done : List (SwitchCase × Nat)}

/-- The cases are lowered one after another. The code of each starts at the position that its switch
has recorded for it. -/
inductive Laid (state : State) (mc : MethodContext) (ctx : Context) :
    List (SwitchCase × Nat) → MethodState → Buffer → MethodState → Buffer → Prop
  | nil {σ : MethodState} {b : Buffer} : Laid state mc ctx [] σ b σ b
  | cons {case : SwitchCase} {pc : Nat} {rest : List (SwitchCase × Nat)} {σ σ1 σ' : MethodState}
      {b b1 b2 b3 b' : Buffer} :
      Asm.entryPointWith state none ctx b = .ok pc b1 → b1.Patched b2 →
      case.code mc σ ctx b2 = .ok ((), σ1) b3 → Laid state mc ctx rest σ1 b3 σ' b' →
      Laid state mc ctx ((case, pc) :: rest) σ b σ' b'

theorem switchOffset_ok (run : switchOffset layout pc mc σ ctx b = .ok (offset, σ') b') :
    σ = σ' ∧ b = b' ∧ pc - layout.start < 0x80000000 ∧ offset = layout.aim pc := by
  unfold switchOffset at run
  split at run
  · next near =>
    cases run
    exact ⟨rfl, rfl, near, rfl⟩
  · exact (throw_ok.mp run).elim

theorem standing_entry {words : List Int32} (standing : layout.Standing ctx.wide words waiting b)
    (entered : Asm.entryPointWith state none ctx b = .ok pc c)
    (measured : switchOffset layout pc mc σ ctx c = .ok (offset, σ') b') :
    σ = σ' ∧ c = b' ∧ layout.Near pc ∧ offset = layout.aim pc ∧ c.code.size = pc ∧ c.pending = [] ∧
      layout.Standing ctx.wide words waiting c := by
  obtain ⟨rfl, rfl, near, rfl⟩ := switchOffset_ok measured
  have stays : layout.Standing ctx.wide words waiting c := by
    rw [← zero_add waiting] at standing ⊢
    exact standing.call (.entryPointWith state none) rfl entered
  have settled : c.code.size = pc ∧ c.pending = [] := by
    obtain ⟨_, asked, rfl⟩ := Asm.entryPointWith_ok entered
    have size := Asm.position_size asked
    obtain ⟨d, _, flushes, _, rfl⟩ := Asm.position_ok asked
    have pending := congrArg Buffer.Core.pending (Asm.core_marked ctx d)
    exact ⟨size.symm, pending.trans flushes.pending_eq⟩
  have inside := stays.quiet.inside
  have some := stays.quiet.some
  rw [Buffer.length_bytes, settled.1] at inside
  exact ⟨rfl, rfl, ⟨by omega, near⟩, rfl, settled.1, settled.2, stays⟩

theorem standing_fillTable (table : layout.table = true)
    (inside : ∀ label ∈ labels, layout.low ≤ label.toInt ∧ label.toInt ≤ layout.high)
    (standing : layout.Standing ctx.wide (layout.row count default aims) waiting b)
    (run : fillTable layout offset labels mc σ ctx b = .ok ((), σ') b') :
    σ = σ' ∧ b.Patched b' ∧ layout.Standing ctx.wide (layout.row count default fun v =>
      if labels.any (·.toInt == v) then offset else aims v) waiting b' := by
  induction labels generalizing b aims with
  | nil =>
    cases run
    exact ⟨rfl, ⟨rfl, rfl⟩, standing⟩
  | cons label rest ih =>
    obtain ⟨_, c, ran, run⟩ := lift_bind_ok.mp run
    obtain ⟨lower, upper⟩ := inside label (.head _)
    obtain ⟨standing1, patched⟩ := standing.putWord (i := (label.toInt - layout.low).toNat + 3)
      (by simp [row, table, span]; omega) ran
    rw [row_set table, show layout.low + ((label.toInt - layout.low).toNat : Int) = label.toInt by
      omega] at standing1
    obtain ⟨rfl, more, standing2⟩ := ih
      (fun other member => inside other (.tail _ member)) standing1 run
    refine ⟨rfl, patched.trans more, ?_⟩
    convert standing2 using 3 with v
    by_cases same : v = label.toInt
    · simp [same]
    · rw [Function.update_of_ne same, List.any_cons, beq_eq_false_iff_ne.mpr (Ne.symm same), Bool.false_or]

theorem standing_aimCase {case : SwitchCase}
    (inside : layout.table = true → ∀ label ∈ case.labels,
      layout.low ≤ label.toInt ∧ label.toInt ≤ layout.high)
    (standing : layout.Standing ctx.wide (layout.sofar count done) waiting b)
    (run : aimCase layout case (layout.aim pc) mc σ ctx b = .ok ((), σ') b') :
    σ = σ' ∧ b.Patched b' ∧
      layout.Standing ctx.wide (layout.sofar count ((case, pc) :: done)) waiting b' := by
  obtain ⟨_, σ1, c, filled, run⟩ := bind_ok.mp run
  -- A list has no places to be filled in yet.
  have tabled : σ = σ1 ∧ b.Patched c ∧ layout.Standing ctx.wide (layout.row count
      (layout.aimElse done (-1)) (layout.aimFor ((case, pc) :: done) (-1))) waiting c := by
    by_cases table : layout.table = true
    · rw [if_pos table] at filled
      obtain ⟨rfl, patched, standing1⟩ := standing_fillTable table (inside table) standing filled
      refine ⟨rfl, patched, ?_⟩
      convert standing1 using 3 with v
      rw [aimFor, startOf?_cons]
      split <;> rfl
    · rw [if_neg table] at filled
      cases filled
      refine ⟨rfl, ⟨rfl, rfl⟩, ?_⟩
      simp only [sofar, row, if_neg table] at standing ⊢
      exact standing
  obtain ⟨rfl, patched, standing1⟩ := tabled
  rw [sofar, aimElse, startOf?_cons]
  by_cases isDefault : case.isDefault = true
  · rw [if_pos isDefault] at run ⊢
    obtain ⟨rfl, ran⟩ := lift_ok.mp run
    obtain ⟨standing2, patched'⟩ := standing1.putWord (i := 0) (Nat.succ_pos _) ran
    exact ⟨rfl, patched.trans patched', standing2⟩
  · rw [if_neg isDefault] at run ⊢
    cases run
    exact ⟨rfl, patched, standing1⟩

theorem standing_genCases {found : List (Int32 × Int32)} {cases : List SwitchCase}
    (follows : ∀ case ∈ cases, ∀ start stop code,
      Follows (.sparing start stop code) scopes case.code)
    (inside : layout.table = true → ∀ case ∈ cases, ∀ label ∈ case.labels,
      layout.low ≤ label.toInt ∧ label.toInt ≤ layout.high)
    (sized : σ.records.length = scopes.length)
    (standing : layout.Standing ctx.wide (layout.sofar count done) σ.pcs b)
    (run : genCases layout state (layout.listing done) cases mc σ ctx b = .ok (found, σ') b') :
    σ'.records.length = scopes.length ∧
      ∃ entries, entries.map Prod.fst = cases ∧ Laid state mc ctx entries σ b σ' b' ∧
      (∀ entry ∈ entries, layout.Near entry.2) ∧ found = layout.listing (entries.reverse ++ done) ∧
      layout.Standing ctx.wide (layout.sofar count (entries.reverse ++ done)) σ'.pcs b' := by
  induction cases generalizing σ b done with
  | nil =>
    cases run
    exact ⟨sized, [], rfl, .nil, by simp, rfl, standing⟩
  | cons case rest ih =>
    rw [genCases_cons] at run
    obtain ⟨pc, b1, ran, run⟩ := lift_bind_ok.mp run
    obtain ⟨offset, _, _, measured, run⟩ := bind_ok.mp run
    obtain ⟨rfl, rfl, near, rfl, _, _, standing1⟩ := standing_entry standing ran measured
    obtain ⟨_, _, b2, aimed, run⟩ := bind_ok.mp run
    obtain ⟨rfl, patched, standing2⟩ := standing_aimCase
      (fun table => inside table case (.head _)) standing1 aimed
    obtain ⟨_, σ3, b3, coded, run⟩ := bind_ok.mp run
    obtain ⟨sized3, alike, quiet⟩ := Follows.spares
      (fun code => follows case (.head _) _ _ code) sized standing2.quiet coded
    obtain ⟨sized4, entries, same, laid, nears, rfl, standing4⟩ := ih
      (fun other member => follows other (.tail _ member))
      (fun table other member => inside table other (.tail _ member)) sized3
      (standing2.keep alike quiet) run
    refine ⟨sized4, (case, pc) :: entries, by rw [List.map_cons, same], .cons ran patched coded laid,
      List.forall_mem_cons.mpr ⟨near, nears⟩, ?_⟩
    rw [List.reverse_cons, List.append_assoc]
    exact ⟨rfl, standing4⟩

theorem standing_aimDefault (nears : ∀ entry ∈ done, layout.Near entry.2)
    (standing : layout.Standing ctx.wide (layout.sofar count done) waiting b)
    (run : aimDefault layout state mc σ ctx b = .ok ((), σ') b') :
    σ = σ' ∧ ∃ stop, layout.Standing ctx.wide (layout.row count (layout.aimElse done (layout.aim stop))
      (layout.aimFor done (-1))) waiting b' ∧ (startOf? done (·.isDefault) = none →
        layout.Near stop ∧ b'.code.size = stop ∧ b'.pending = []) := by
  rw [aimDefault, buffer_bind, show b.word32 layout.base = layout.aimElse done (-1) from
    standing.word (i := 0) rfl] at run
  unfold sofar aimElse at standing
  unfold aimElse at run ⊢
  cases other : startOf? done (·.isDefault) with
  | some pc =>
    obtain ⟨entry, member, _, rfl⟩ := startOf?_some other
    rw [other] at run standing
    rw [if_neg (by simpa using (nears entry member).aim_ne)] at run
    cases run
    exact ⟨rfl, 0, standing, fun none => by cases none⟩
  | none =>
    rw [other] at run standing
    rw [if_pos (by rfl)] at run
    obtain ⟨pc, c, ran, run⟩ := lift_bind_ok.mp run
    obtain ⟨offset, _, _, measured, run⟩ := bind_ok.mp run
    obtain ⟨rfl, rfl, near, rfl, size, settled, standing1⟩ := standing_entry standing ran measured
    obtain ⟨rfl, put⟩ := lift_ok.mp run
    obtain ⟨standing2, same, length⟩ := standing1.putWord (i := 0) (Nat.succ_pos _) put
    refine ⟨rfl, pc, standing2, fun _ => ⟨near, length.trans size, ?_⟩⟩
    rw [same]
    exact settled

theorem standing_completeTable {closed : Int → Int32} {first number : Nat} (table : layout.table = true)
    (all : first + number = layout.span)
    (before : ∀ i : Nat, i < first → closed (layout.low + i) = aims (layout.low + i))
    (after : ∀ i : Nat, first ≤ i → closed (layout.low + i) =
      if aims (layout.low + i) = -1 then offset else aims (layout.low + i))
    (standing : layout.Standing ctx.wide (layout.row count default aims) waiting b)
    (run : completeTable layout offset first number mc σ ctx b = .ok ((), σ') b') :
    σ = σ' ∧ b.Patched b' ∧ layout.Standing ctx.wide (layout.row 0 default closed) waiting b' := by
  induction number generalizing b aims first with
  | zero =>
    cases run
    refine ⟨rfl, ⟨rfl, rfl⟩, ?_⟩
    convert standing using 1
    simp only [row, table, if_true]
    congr 3
    refine List.map_congr_left fun i member => before i ?_
    rw [← all] at member
    exact List.mem_range.mp member
  | succ number ih =>
    rw [completeTable, buffer_bind] at run
    have here : b.word32 (layout.slot first) = aims (layout.low + first) := by
      refine standing.word (i := first + 3) ?_
      simp only [row, table, if_true, List.getElem?_cons_succ, List.getElem?_map]
      rw [List.getElem?_range (by omega)]
      rfl
    have now := after first le_rfl
    rw [here] at run
    split at run
    · next missing =>
      obtain ⟨_, c, ran, run⟩ := lift_bind_ok.mp run
      obtain ⟨standing1, patched⟩ := standing.putWord (i := first + 3)
        (by simp [row, table]; omega) ran
      rw [row_set table] at standing1
      obtain ⟨rfl, more, standing2⟩ := ih (by omega) (by grind) (by grind) standing1 run
      exact ⟨rfl, patched.trans more, standing2⟩
    · exact ih (by omega) (by grind) (by grind) standing run

theorem standing_fillList (front : List Int32) {pairs : List (Int32 × Int32)} {first : Nat}
    (length : front.length = 2 * first + 2)
    (standing : layout.Standing ctx.wide (front ++ List.replicate (2 * pairs.length) (-1)) waiting b)
    (run : fillList layout first pairs mc σ ctx b = .ok ((), σ') b') :
    σ = σ' ∧ b.Patched b' ∧
      layout.Standing ctx.wide (front ++ pairs.flatMap fun pair => [pair.1, pair.2]) waiting b' := by
  induction pairs generalizing b front first with
  | nil =>
    cases run
    exact ⟨rfl, ⟨rfl, rfl⟩, standing⟩
  | cons pair rest ih =>
    obtain ⟨_, c, ran, run⟩ := lift_bind_ok.mp run
    obtain ⟨_, d, ran', run⟩ := lift_bind_ok.mp run
    rw [SwitchLayout.pair, show 8 * (first + 1) = 4 * (2 * first + 2) by omega] at ran
    rw [SwitchLayout.pair, show layout.base + 8 * (first + 1) + 4 = layout.base + 4 * (2 * first + 3) by
      omega] at ran'
    obtain ⟨standing1, patched⟩ := standing.putWord (by simp; omega) ran
    obtain ⟨standing2, patched'⟩ := standing1.putWord (by simp; omega) ran'
    have words : ((front ++ List.replicate (2 * (pair :: rest).length) (-1)).set (2 * first + 2)
        pair.1).set (2 * first + 3) pair.2 =
        (front ++ [pair.1, pair.2]) ++ List.replicate (2 * rest.length) (-1) := by
      rw [List.length_cons, show 2 * (rest.length + 1) = 2 * rest.length + 1 + 1 by omega,
        List.replicate_succ, List.replicate_succ, ← length, List.set_append_right _ _ le_rfl,
        show 2 * first + 3 = front.length + 1 by omega, List.set_append_right _ _ (by omega)]
      simp
    rw [words] at standing2
    obtain ⟨rfl, more, standing3⟩ := ih _ (by simp; omega) standing2 run
    rw [List.append_assoc] at standing3
    exact ⟨rfl, (patched.trans patched').trans more, standing3⟩

theorem standing_fillRest (nears : ∀ entry ∈ done, layout.Near entry.2)
    (total : count = (layout.listing done).length)
    (standing : layout.Standing ctx.wide (layout.row count default (layout.aimFor done (-1))) waiting b)
    (run : fillRest layout (layout.listing done) mc σ ctx b = .ok ((), σ') b') :
    σ = σ' ∧ b.Patched b' ∧ layout.Standing ctx.wide (layout.completed default done) waiting b' := by
  unfold fillRest at run
  unfold completed
  by_cases table : layout.table = true
  · rw [if_pos table, buffer_bind, show b.word32 layout.base = default from
      standing.word (i := 0) rfl] at run
    rw [if_pos table]
    refine standing_completeTable table (Nat.zero_add _) nofun (fun i _ => ?_) standing run
    unfold aimFor
    cases hit : startOf? done (·.labels.any (·.toInt == layout.low + i)) with
    | none => rfl
    | some pc =>
      obtain ⟨entry, member, _, rfl⟩ := startOf?_some hit
      exact (if_neg (nears entry member).aim_ne).symm
  · rw [if_neg table] at run ⊢
    rw [total, ← perm_sorted.length_eq, row, if_neg table] at standing
    exact standing_fillList [default, Int32.ofNat (layout.sorted done).length] rfl standing run

variable {s : Session} {owned : Multiset Nat} {place : SwitchPlace}

theorem standing_placed (holds : Holds ctx s σ b owned)
    (placed : Asm.placeSwitch (tableFor labels) (operandsFor labels) ctx b = .ok (some place) b') :
    (at_ labels place).Standing ctx.wide (operandsFor labels) σ.pcs b' := by
  obtain ⟨none, _, ends⟩ := placeSwitch_settled placed
  rcases Asm.placeSwitch_core placed with ⟨_, _, answer⟩ | ⟨c, _, flushes, answer, grows⟩
  · cases answer
  cases answer
  obtain rfl := holds.owns.buffer
  have wired := (holds.owns.sound.accounted.carries.flushes flushes).wired
  have bytes : b'.bytes = c.bytes ++ Bytes.ofSwitch (tableFor labels) c.bytes.length
      (operandsFor labels) := grows.bytes_eq
  refine ⟨⟨(Bytes.lt_switchBase c.code.size).trans_le (Nat.le_add_right _ _), ?_, fun pc member => .inl ?_⟩,
    rfl, ?_, fun i word found => ?_⟩
  · rw [Buffer.length_bytes]
    exact ends.le
  · rw [none] at member
    have mine : pc ∈ owned + σ.pcs := Multiset.mem_add.mpr (.inr (by simpa using member))
    obtain ⟨opcode, jump, length⟩ := wired.jumps pc (Multiset.mem_add.mpr (.inr (Multiset.mem_add.mpr (.inl
      (Multiset.mem_of_le holds.owns.holds mine))))) (Nat.zero_le _)
    have fits := jump.end_le wired.tiled jump.lt_length
    rw [length] at fits
    exact fits.trans (Buffer.length_bytes (b := c)).le
  · rw [bytes]
    exact List.getElem?_append_right le_rfl |>.trans (by rw [Nat.sub_self]; rfl)
  · rw [bytes]
    exact (Bytes.word32At?_ofSwitch _ _ _ i).trans found

theorem endScopes_size {first : UInt16} (none : b.pending = [])
    (run : Asm.endScopes first ctx b = .ok () b') : b'.code.size = b.code.size := by
  rw [← Buffer.length_bytes, ← Buffer.length_bytes]
  obtain ⟨_, ⟨only, _⟩ | ⟨c, d, before, flushes, only⟩⟩ := Asm.endScopes_ok run
  · exact congrArg (·.bytes.length) only.core_eq
  · have settled : c.pending = [] := (congrArg Buffer.Core.pending before.core_eq).trans none
    obtain ⟨rfl, _⟩ := flushes.of_nil settled
    exact (congrArg (·.bytes.length) only.core_eq).trans <|
      (congrArg (·.bytes.length) (Asm.core_marked ctx d)).trans
        (congrArg (·.bytes.length) before.core_eq)

/-- The part of a switch after its instruction: the cases are laid out, and the operands filled in. -/
theorem standing_dispatch {groups : List SwitchCase} {limit : UInt16} {b2 : Buffer}
    (all : groups.flatMap (·.labels) = labels) (form : place.table = tableFor labels)
    (follows : ∀ case ∈ groups, ∀ start stop code,
      Follows (.sparing start stop code) (.switch :: scopes) case.code)
    (sized : σ.records.length = scopes.length)
    (fresh : (at_ labels place).Standing ctx.wide (operandsFor labels) σ.pcs b2)
    (run : dispatch limit groups (at_ labels place) mc σ ctx b2 = .ok ((), σ') b') :
    σ'.records.length = scopes.length ∧ ∃ entries found inner b3 stop, entries.map Prod.fst = groups ∧
      genCases (at_ labels place) b2.state [] groups mc { σ with records := {} :: σ.records } ctx
        { b2 with alive := false } = .ok (found, inner) b3 ∧
      Laid b2.state mc ctx entries { σ with records := {} :: σ.records } { b2 with alive := false }
        inner b3 ∧
      (∀ entry ∈ entries, (at_ labels place).Near entry.2) ∧
      (startOf? entries.reverse (·.isDefault) = none →
        (at_ labels place).Near stop ∧ b'.code.size = stop) ∧
      (at_ labels place).Standing ctx.wide ((at_ labels place).completed ((at_ labels place).aimElse
        entries.reverse ((at_ labels place).aim stop)) entries.reverse) σ'.pcs b' := by
  rw [← row_operandsFor form] at fresh
  rw [dispatch, buffer_bind] at run
  obtain ⟨_, _, dead, run⟩ := lift_bind_ok.mp run
  cases Asm.markDead_ok.mp dead
  obtain ⟨⟨found, record⟩, _, b3, inner, run⟩ := bind_ok.mp run
  obtain ⟨inside, cased, same, rfl⟩ := of_enclosed inner
  have opening : ({ σ with records := {} :: σ.records } : MethodState).pcs = σ.pcs := by
    simp [MethodState.pcs, ScopeRecord.pcs, Chain.pcs]
  obtain ⟨sized3, entries, whole, laid, nears, rfl, standing⟩ := standing_genCases follows
    (fun _ case member label listed => by
      have here := all ▸ List.mem_flatMap.mpr ⟨case, member, listed⟩
      exact mem_range here)
    (show ({ σ with records := {} :: σ.records } : MethodState).records.length = _ from
      congrArg Nat.succ sized)
    (show Standing _ _ (sofar _ labels.length []) _ { b2 with alive := false } from
      ⟨opening.symm ▸ fresh.quiet, fresh.base, fresh.opcode, fresh.reads⟩) cased
  rw [List.append_nil] at standing run
  have near : ∀ entry ∈ entries.reverse, (at_ labels place).Near entry.2 := fun entry member =>
    nears entry (List.mem_reverse.mp member)
  -- The jumps out of the switch lead to its end.
  obtain ⟨_, b4, resolved, run⟩ := lift_bind_ok.mp run
  have less : ∀ pc ∈ (record.exit.undefineFrom limit).pcs +
      ({ inside with records := inside.records.drop 1 } : MethodState).pcs, pc ∈ inside.pcs := by
    intro pc member
    obtain ⟨first, rest, records⟩ := List.exists_cons_of_length_eq_add_one sized3
    rw [records] at same
    cases same
    simp only [MethodState.pcs, ScopeRecord.pcs, records, List.drop_one, List.tail_cons,
      Chain.pcs_undefineFrom, List.map_cons, List.sum_cons, Multiset.mem_add] at member ⊢
    tauto
  have standing4 := (standing.fewer less).call (.resolve (record.exit.undefineFrom limit)) rfl resolved
  obtain ⟨_, _, b5, aimed, run⟩ := bind_ok.mp run
  obtain ⟨rfl, stop, standing5, ended⟩ := standing_aimDefault near standing4 aimed
  obtain ⟨_, _, b6, filled, run⟩ := bind_ok.mp run
  have keys : entries.flatMap (·.1.labels) = labels := by
    rw [← all, ← whole, List.flatMap_map]
  have total : labels.length = ((at_ labels place).listing entries.reverse).length := by
    simpa [keys] using (congrArg List.length (listing_reverse (at_ labels place) entries)).symm
  obtain ⟨rfl, patched, standing6⟩ := standing_fillRest near total standing5 filled
  obtain ⟨rfl, ending⟩ := lift_ok.mp run
  have last := standing6.call (.endScopes limit) rfl ending
  refine ⟨?_, entries, _, inside, b3, stop, whole, cased, laid, nears, fun none => ?_,
    last.fewer fun pc member => Multiset.mem_add.mpr (.inr member)⟩
  · rw [List.length_drop, sized3]
    rfl
  · obtain ⟨near, size, settled⟩ := ended none
    have pending : b6.pending = [] := by rw [patched.1]; exact settled
    exact ⟨near, (endScopes_size pending ending).trans (patched.2.trans size)⟩

/-- A switch that has been placed selects its cases once it is complete. -/
theorem dispatches_of_placed {groups : List SwitchCase} {limit : UInt16} {b2 : Buffer}
    (any : groups ≠ []) (all : groups.flatMap (·.labels) = labels) (distinct : labels.Nodup)
    (follows : ∀ case ∈ groups, ∀ start stop code,
      Follows (.sparing start stop code) (.switch :: scopes) case.code)
    (sized : σ.records.length = scopes.length) (holds : Holds ctx s σ b owned)
    (placed : Asm.placeSwitch (tableFor labels) (operandsFor labels) ctx b = .ok (some place) b2)
    (run : dispatch limit groups (at_ labels place) mc σ ctx b2 = .ok ((), σ') b') :
    σ'.records.length = scopes.length ∧ ∃ entries inner b3 words, entries.map Prod.fst = groups ∧
      Laid b2.state mc ctx entries { σ with records := {} :: σ.records } { b2 with alive := false }
        inner b3 ∧
      (at_ labels place).Standing ctx.wide words σ'.pcs b' ∧ ∀ {waiting b},
        (at_ labels place).Standing ctx.wide words waiting b →
        (at_ labels place).Dispatches entries b'.code.size b.bytes := by
  obtain ⟨_, form, _⟩ := fits_placed placed
  obtain ⟨sized', entries, found, inner, b3, stop, whole, cased, laid, nears, ended, standing⟩ :=
    standing_dispatch all form follows sized (standing_placed holds placed) run
  refine ⟨sized', entries, inner, b3, _, whole, laid, standing, fun again => ?_⟩
  have keys : entries.flatMap (·.1.labels) = labels := by
    rw [← all, ← whole, List.flatMap_map]
  have few (list : place.table = false) : labels.length < 2147483648 := by
    cases groups with
    | nil => exact absurd rfl any
    | cons case others =>
      have short := labels_few placed rfl cased
      simp only [length_operandsFor, ← form, list, Bool.false_eq_true, if_false] at short
      omega
  have spans (table : place.table = true) : (at_ labels place).Spans entries.reverse := by
    have some := ne_nil_of_tableFor (form.symm.trans table)
    obtain ⟨first, _, low⟩ := (lowest_mem some).1
    obtain ⟨last, _, high⟩ := (highest_mem some).1
    refine ⟨?_, ?_, fun entry member label has => ?_⟩
    · rw [at_, low, Int32.ofInt_toInt]
    · rw [at_, high, Int32.ofInt_toInt]
    · have here : label ∈ labels :=
        keys ▸ List.mem_flatMap.mpr ⟨entry, List.mem_reverse.mp member, has⟩
      exact mem_range here
  -- Where no case is the default, the position behind the switch is the end of its code.
  have same : (at_ labels place).aimElse entries.reverse ((at_ labels place).aim stop) =
      (at_ labels place).aimElse entries.reverse ((at_ labels place).aim b'.code.size) := by
    unfold aimElse
    cases other : startOf? entries.reverse (·.isDefault) with
    | some pc => rfl
    | none => rw [(ended other).2]
  rw [same] at again
  exact again.dispatches spans (keys.symm ▸ few) (keys.symm ▸ distinct) nears fun none =>
    (ended none).2 ▸ (ended none).1

/-- A switch selects the case of each label, wherever it is lowered, and what follows leaves it alone.
A table is chosen only if it is not much longer than the number of labels. -/
theorem switch_dispatches {selector : Expr} {cases : List Case} {item : Item} {σ1 : MethodState}
    {b1 : Buffer} (natural : Scope.Natural scopes) (amid : Amid scopes ctx s σ b owned)
    (any : cases ≠ [])
    (distinct : ((switchCases (.switch :: scopes) cases).flatMap (·.labels)).Nodup)
    (loaded : loadAs .int (genItem selector) mc σ ctx b = .ok (item, σ1) b1)
    (alive : b1.isAlive = true)
    (run : genStmtKind scopes (.switch selector cases) mc σ ctx b = .ok ((), σ') b') :
    ∃ layout entries b2 σ2 b3,
      openSwitch ((switchCases (.switch :: scopes) cases).flatMap (·.labels)) mc σ1 ctx b1 =
        .ok (some layout, σ1) b2 ∧
      entries.map Prod.fst = switchCases (.switch :: scopes) cases ∧
      Laid b2.state mc ctx entries { σ1 with records := {} :: σ1.records } { b2 with alive := false }
        σ2 b3 ∧
      layout.Dispatches entries b'.code.size b'.bytes ∧
      (∀ inSwitch following σ'' b'', genStmts scopes inSwitch following mc σ' ctx b' = .ok ((), σ'') b'' →
        layout.Dispatches entries b'.code.size b''.bytes) ∧
      (layout.table = true → ∀ label ∈ entries.flatMap (·.1.labels),
        ∀ other ∈ entries.flatMap (·.1.labels),
          other.toInt - label.toInt + 1 < 5 * ((entries.flatMap (·.1.labels)).length : Int)) := by
  have keeps : Keeps Tracks 0 (loadAs .int (genItem selector)) fun _ => 0 :=
    keeps_loadAs .int (handy_genItem selector)
  obtain ⟨s1, tracks, holds⟩ := keeps.run loaded amid.holds
  have sized : σ1.records.length = scopes.length := tracks.size.trans amid.sized
  have follows : ∀ case ∈ switchCases (.switch :: scopes) cases, ∀ start stop code,
      Follows (.sparing start stop code) (.switch :: scopes) case.code := by
    intro case member start stop code
    have inner : Scope.AllRegular (.sparing start stop code) (.switch :: scopes) :=
      (natural.regular id).cons nofun
    exact follows_switchCases inner cases (fun exact => exact.elim) case member
  have nonempty : switchCases (.switch :: scopes) cases ≠ [] := by
    cases cases with
    | nil => exact absurd rfl any
    | cons case rest =>
      cases case
      exact List.cons_ne_nil _ _
  rw [genStmtKind, genSwitch_eq, nextRegister_bind] at run
  obtain ⟨_, _, _, again, run⟩ := bind_ok.mp run
  cases loaded.symm.trans again
  rw [if_neg (by simpa using nonempty)] at run
  obtain ⟨answer, _, b2, opened, run⟩ := bind_ok.mp run
  obtain ⟨rfl, found, placed, rfl⟩ := openSwitch_ok opened
  cases found with
  | none =>
    rcases Asm.placeSwitch_core placed with ⟨dead, _⟩ | ⟨c, _, flushes, answer, _⟩
    · rw [alive] at dead
      cases dead
    · cases answer
  | some place =>
    obtain ⟨sized', entries, inner, b3, words, whole, laid, standing, dispatches⟩ :=
      dispatches_of_placed nonempty rfl distinct follows sized holds placed run
    refine ⟨_, entries, b2, inner, b3, opened, whole, laid, dispatches standing, ?_, ?_⟩
    · intro inSwitch following σ'' b'' ran
      obtain ⟨_, alike, quiet⟩ := Follows.spares (fun code => follows_genStmts (natural.regular id) inSwitch
        following fun exact => exact.elim) sized' standing.quiet ran
      exact dispatches (standing.keep alike quiet)
    · intro table label member other has
      have keys : entries.flatMap (·.1.labels) =
          (switchCases (.switch :: scopes) cases).flatMap (·.labels) := by rw [← whole, List.flatMap_map]
      rw [keys] at member has ⊢
      have lower := (mem_range member).1
      have upper := (mem_range has).2
      have chosen := (fits_placed placed).2.1.symm.trans table
      simp only [tableFor, prefersTable, Bool.and_eq_true, decide_eq_true_eq] at chosen
      omega

def alone {α : Type} (action : Lowering α) : EStateM.Result Error Buffer (α × MethodState) :=
  action ⟨.default, .void⟩ {} ⟨.empty, ⟨"Gate"⟩, Settings.default.code, false⟩ (.empty .empty)

def seven : Expr := .mk (some (.base .int)) (some (.int 7)) (.literal (.int 7))

def forks : List Case :=
  [.mk [7, -70000] false [.mk none (.breakTo none)], .mk [] true [.mk none (.ret none)],
    .mk [9] false []]

set_option maxRecDepth 2000 in
theorem switch_dispatches_forks : ∃ σ' b',
    alone (genStmtKind [] (.switch seven forks)) = .ok ((), σ') b' ∧
    [-70000, 7, 8, 9].map (b'.bytes.switchTarget? 2) = [some 36, some 36, some 39, some 40] ∧
    ∃ layout entries, entries.map Prod.fst = switchCases [.switch] forks ∧
      SwitchLayout.Dispatches layout entries b'.code.size b'.bytes := by
  have found : seen? (fun _ b => [-70000, 7, 8, 9].map (b.bytes.switchTarget? 2))
      (alone (genStmtKind [] (.switch seven forks))) = some [some 36, some 36, some 39, some 40] := by
    cbv
  have reached : seen? (fun _ b => b.isAlive) (alone (loadAs .int (genItem seven))) = some true := by
    cbv
  obtain ⟨result, b', run, targets⟩ := ok_of_seen? found
  obtain ⟨item, b1, loaded, live⟩ := ok_of_seen? reached
  obtain ⟨layout, entries, _, _, _, _, whole, _, dispatches, _⟩ := switch_dispatches
    (show Scope.Natural [] from trivial) (.start _ .empty) (by simp [forks]) (by decide) loaded live run
  exact ⟨result.2, b', run, targets, layout, entries, whole, dispatches⟩

end Lowering

end ClassForge
