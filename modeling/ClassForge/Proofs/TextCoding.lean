import ClassForge.Bytes.ModifiedUtf8
import Mathlib.Data.List.Chain
import Mathlib.Tactic.SplitIfs

namespace ClassForge

namespace ModifiedUtf8

variable {unit : Nat} {list : List Nat} {bytes : Bytes} {follows : UInt8 → Prop}

theorem decodeUnits_encodeUnit (small : unit < 0x10000) (done : List Nat) (rest : Bytes) :
    decodeUnits done (encodeUnit unit ++ rest) = decodeUnits (unit :: done) rest := by
  unfold encodeUnit
  split
  · next one =>
    rw [List.singleton_append, decodeUnits.eq_def]
    have lead : (UInt8.ofNat unit).toNat = unit := by
      rw [UInt8.toNat_ofNat']
      omega
    dsimp only
    rw [lead, if_neg (by omega), if_pos one.2]
  · split
    · have lead : (UInt8.ofNat (0xC0 + unit / 0x40)).toNat = 0xC0 + unit / 0x40 := by
        rw [UInt8.toNat_ofNat']
        omega
      have next : (UInt8.ofNat (0x80 + unit % 0x40)).toNat = 0x80 + unit % 0x40 := by
        rw [UInt8.toNat_ofNat']
        omega
      rw [List.cons_append, List.singleton_append, decodeUnits.eq_def]
      dsimp only
      rw [lead, next, if_neg (by omega), if_neg (by omega), if_neg (by omega), if_pos (by omega)]
      congr 2
      omega
    · have lead : (UInt8.ofNat (0xE0 + unit / 0x1000)).toNat = 0xE0 + unit / 0x1000 := by
        rw [UInt8.toNat_ofNat']
        omega
      have next : (UInt8.ofNat (0x80 + unit / 0x40 % 0x40)).toNat = 0x80 + unit / 0x40 % 0x40 := by
        rw [UInt8.toNat_ofNat']
        omega
      have last : (UInt8.ofNat (0x80 + unit % 0x40)).toNat = 0x80 + unit % 0x40 := by
        rw [UInt8.toNat_ofNat']
        omega
      rw [List.cons_append, List.cons_append, List.singleton_append, decodeUnits.eq_def]
      dsimp only
      rw [lead, next, last, if_neg (by omega), if_neg (by omega), if_neg (by omega),
        if_neg (by omega), if_pos (by omega)]
      congr 2
      omega

theorem toNat_ranges (c : Char) : c.toNat < 0xD800 ∨ 0xDFFF < c.toNat ∧ c.toNat < 0x110000 := c.valid

theorem units_small {c : Char} (member : unit ∈ units c) : unit < 0x10000 := by
  have range := toNat_ranges c
  unfold units at member
  split at member
  · cases List.mem_singleton.mp member
    assumption
  · simp only [List.mem_cons, List.not_mem_nil, or_false] at member
    omega

theorem isHighSurrogate_iff : isHighSurrogate unit = true ↔ 0xD800 ≤ unit ∧ unit < 0xDC00 := by
  simp [isHighSurrogate]

theorem isLowSurrogate_iff : isLowSurrogate unit = true ↔ 0xDC00 ≤ unit ∧ unit < 0xE000 := by
  simp [isLowSurrogate]

theorem joinUnits_units (c : Char) (done : List Char) (rest : List Nat) :
    joinUnits done (units c ++ rest) = joinUnits (c :: done) rest := by
  have range := toNat_ranges c
  unfold units
  split
  · next one =>
    rw [List.singleton_append, joinUnits.eq_def]
    dsimp only
    rw [if_neg, if_neg, Char.ofNat_toNat]
    · rw [isLowSurrogate_iff]
      omega
    · rw [isHighSurrogate_iff]
      omega
  · rw [List.cons_append, List.singleton_append, joinUnits, if_pos, if_pos]
    · have whole : 0x10000 + (0xD800 + (c.toNat - 0x10000) / 0x400 - 0xD800) * 0x400 +
          (0xDC00 + (c.toNat - 0x10000) % 0x400 - 0xDC00) = c.toNat := by
        omega
      rw [whole, Char.ofNat_toNat]
    · rw [isLowSurrogate_iff]
      omega
    · rw [isHighSurrogate_iff]
      omega

def unitBytes (list : List Nat) : Bytes := list.flatMap encodeUnit

theorem encode_eq (text : String) : encode text = unitBytes (text.toList.flatMap units) := by
  unfold encode unitBytes
  rw [List.flatMap_assoc]

theorem decodeUnits_unitBytes (small : ∀ unit ∈ list, unit < 0x10000) (done : List Nat) :
    decodeUnits done (unitBytes list) = some (done.reverse ++ list) := by
  induction list generalizing done with
  | nil => simp [unitBytes, decodeUnits]
  | cons unit rest ih =>
    change decodeUnits done (encodeUnit unit ++ unitBytes rest) = _
    rw [decodeUnits_encodeUnit (small unit (.head _)),
      ih fun unit member => small unit (.tail _ member)]
    simp

theorem joinUnits_flatMap (chars done : List Char) :
    joinUnits done (chars.flatMap units) = some (done.reverse ++ chars) := by
  induction chars generalizing done with
  | nil => simp [joinUnits]
  | cons c rest ih =>
    rw [List.flatMap_cons, joinUnits_units, ih]
    simp

theorem decode?_encode (text : String) : decode? (encode text) = some text := by
  unfold decode?
  have small : ∀ unit ∈ text.toList.flatMap units, unit < 0x10000 := by
    intro unit member
    obtain ⟨c, _, inside⟩ := List.mem_flatMap.mp member
    exact units_small inside
  rw [encode_eq, decodeUnits_unitBytes small, List.reverse_nil, List.nil_append]
  change (joinUnits [] (text.toList.flatMap units)).bind _ = _
  rw [joinUnits_flatMap, List.reverse_nil, List.nil_append]
  exact congrArg some String.ofList_toList

theorem length_encodeUnit (unit : Nat) : (encodeUnit unit).length =
    if 0 < unit ∧ unit < 0x80 then 1 else if unit < 0x800 then 2 else 3 := by
  unfold encodeUnit
  split
  · rfl
  · split <;> rfl

theorem length_flatMap_units (c : Char) : ((units c).flatMap encodeUnit).length = charLength c := by
  have range := toNat_ranges c
  unfold units charLength
  split
  · rw [List.flatMap_singleton, length_encodeUnit]
    split_ifs <;> omega
  · rw [List.flatMap_cons, List.flatMap_singleton, List.length_append, length_encodeUnit,
      length_encodeUnit]
    split_ifs <;> omega

theorem length_encode (text : String) : (encode text).length = length text := by
  have sum (chars : List Char) (total : Nat) :
      chars.foldl (fun total c => total + charLength c) total =
        total + (chars.flatMap fun c => (units c).flatMap encodeUnit).length := by
    induction chars generalizing total with
    | nil => rfl
    | cons c chars ih =>
      rw [List.foldl_cons, ih, List.flatMap_cons, List.length_append, length_flatMap_units]
      omega
  unfold length encode
  rw [String.foldl_eq_foldl_toList, sum, Nat.zero_add]

def IsContinuation (b : UInt8) : Prop := 0x80 ≤ b.toNat ∧ b.toNat ≤ 0xBF

/-- The bytes are groups of a lead byte and as many others as it asks for, and these are the units of
the groups. -/
inductive Spells (follows : UInt8 → Prop) : Bytes → List Nat → Prop
  | nil : Spells follows [] []
  | one {b : UInt8} {rest : Bytes} {list : List Nat} : 0x01 ≤ b.toNat → b.toNat ≤ 0x7F →
      Spells follows rest list → Spells follows (b :: rest) (b.toNat :: list)
  | two {b b1 : UInt8} {rest : Bytes} {list : List Nat} : 0xC0 ≤ b.toNat → b.toNat ≤ 0xDF →
      follows b1 → Spells follows rest list →
      Spells follows (b :: b1 :: rest) ((b.toNat % 0x20 * 0x40 + b1.toNat % 0x40) :: list)
  | three {b b1 b2 : UInt8} {rest : Bytes} {list : List Nat} : 0xE0 ≤ b.toNat → b.toNat ≤ 0xEF →
      follows b1 → follows b2 → Spells follows rest list →
      Spells follows (b :: b1 :: b2 :: rest)
        ((b.toNat % 0x10 * 0x1000 + b1.toNat % 0x40 * 0x40 + b2.toNat % 0x40) :: list)

theorem Spells.decodeUnits (spells : Spells follows bytes list) (done : List Nat) :
    decodeUnits done bytes = some (done.reverse ++ list) := by
  induction spells generalizing done with
  | nil => simp [ModifiedUtf8.decodeUnits]
  | one low high _ ih =>
    rw [ModifiedUtf8.decodeUnits.eq_def]
    dsimp only
    rw [if_neg (by omega), if_pos (by omega), ih]
    simp
  | two low high _ _ ih =>
    rw [ModifiedUtf8.decodeUnits.eq_def]
    dsimp only
    rw [if_neg (by omega), if_neg (by omega), if_neg (by omega), if_pos (by omega), ih]
    simp
  | three low high _ _ _ ih =>
    rw [ModifiedUtf8.decodeUnits.eq_def]
    dsimp only
    rw [if_neg (by omega), if_neg (by omega), if_neg (by omega), if_neg (by omega),
      if_pos (by omega), ih]
    simp

theorem spells_of_decodeUnits {done : List Nat} (run : decodeUnits done bytes = some list) :
    ∃ new, Spells (fun _ => True) bytes new := by
  fun_induction decodeUnits done bytes with
  | case1 => exact ⟨[], .nil⟩
  | case3 done b rest lead some one ih =>
    obtain ⟨new, spells⟩ := ih run
    exact ⟨_, .one (by omega) (by omega) spells⟩
  | case5 done b lead _ _ _ two b1 rest ih =>
    obtain ⟨new, spells⟩ := ih run
    exact ⟨_, .two (by omega) (by omega) trivial spells⟩
  | case7 done b lead _ _ _ _ three b1 b2 rest ih =>
    obtain ⟨new, spells⟩ := ih run
    exact ⟨_, .three (by omega) (by omega) trivial trivial spells⟩
  | _ => cases run

theorem Spells.short (spells : Spells follows bytes list) :
    (∀ unit ∈ list, unit < 0x10000) ∧ (unitBytes list).length ≤ bytes.length := by
  have step {unit : Nat} {list : List Nat} (small : unit < 0x10000)
      (others : ∀ unit ∈ list, unit < 0x10000) : ∀ other ∈ unit :: list, other < 0x10000 :=
    List.forall_mem_cons.mpr ⟨small, others⟩
  have width (unit : Nat) (list : List Nat) :
      (unitBytes (unit :: list)).length = (encodeUnit unit).length + (unitBytes list).length :=
    List.length_append
  induction spells with
  | nil => exact ⟨List.forall_mem_nil _, le_rfl⟩
  | one low high _ ih =>
    refine ⟨step (by omega) ih.1, ?_⟩
    rw [width, length_encodeUnit, if_pos ⟨low, by omega⟩, List.length_cons]
    omega
  | two low high _ _ ih =>
    refine ⟨step (by omega) ih.1, ?_⟩
    rw [width, length_encodeUnit, List.length_cons, List.length_cons]
    split_ifs <;> omega
  | three low high _ _ _ ih =>
    refine ⟨step (by omega) ih.1, ?_⟩
    rw [width, length_encodeUnit, List.length_cons, List.length_cons, List.length_cons]
    split_ifs <;> omega

theorem toNat_ofNat {n : Nat} (valid : n < 0xD800 ∨ 0xDFFF < n ∧ n < 0x110000) :
    (Char.ofNat n).toNat = n := by
  unfold Char.ofNat
  rw [dif_pos valid]
  rfl

/-- The units of characters that are put together are those that they are put together from. -/
theorem joinUnits_some {done chars : List Char} (small : ∀ unit ∈ list, unit < 0x10000)
    (run : joinUnits done list = some chars) :
    chars.flatMap units = done.reverse.flatMap units ++ list := by
  fun_induction joinUnits done list with
  | case1 done =>
    cases run
    simp
  | case2 done unit high low rest low' ih =>
    rw [isHighSurrogate_iff] at high
    rw [isLowSurrogate_iff] at low'
    rw [ih (fun other member => small other (by simp [member])) run]
    have both : units (Char.ofNat (0x10000 + (unit - 0xD800) * 0x400 + (low - 0xDC00))) =
        [unit, low] := by
      unfold units
      rw [toNat_ofNat (by omega), if_neg (by omega)]
      simp only [List.cons.injEq, and_true]
      omega
    simp [both]
  | case6 done unit rest high low ih =>
    rw [isHighSurrogate_iff] at high
    rw [isLowSurrogate_iff] at low
    have bound := small unit (.head _)
    rw [ih (fun other member => small other (.tail _ member)) run]
    have alone : units (Char.ofNat unit) = [unit] := by
      unfold units
      rw [toNat_ofNat (by omega), if_pos bound]
    simp [alone]
  | _ => cases run

theorem length_encode_le {text : String} (read : decode? bytes = some text) :
    (encode text).length ≤ bytes.length := by
  unfold decode? at read
  obtain ⟨list, found, read⟩ := Option.bind_eq_some_iff.mp read
  obtain ⟨chars, joined, read⟩ := Option.bind_eq_some_iff.mp read
  cases read
  obtain ⟨new, spells⟩ := spells_of_decodeUnits found
  cases found.symm.trans (spells.decodeUnits [])
  obtain ⟨small, short⟩ := spells.short
  rw [encode_eq, String.toList_ofList, joinUnits_some small joined]
  exact short

theorem zero_notMem_encodeUnit (small : unit < 0x10000) : 0 ∉ encodeUnit unit := by
  have nonzero {n : Nat} (positive : 0 < n) (byte : n < 0x100) : (0 : UInt8) ≠ UInt8.ofNat n := by
    intro same
    have value := congrArg UInt8.toNat same
    rw [UInt8.toNat_ofNat_of_lt' byte] at value
    exact absurd value positive.ne
  unfold encodeUnit
  split
  · next one =>
    simpa using nonzero one.1 (by omega)
  · split
    · simp only [List.mem_cons, List.not_mem_nil, or_false, not_or]
      exact ⟨nonzero (by omega) (by omega), nonzero (by omega) (by omega)⟩
    · simp only [List.mem_cons, List.not_mem_nil, or_false, not_or]
      exact ⟨nonzero (by omega) (by omega), nonzero (by omega) (by omega),
        nonzero (by omega) (by omega)⟩

theorem zero_notMem_encode (text : String) : 0 ∉ encode text := by
  intro zero
  obtain ⟨c, _, zero⟩ := List.mem_flatMap.mp zero
  obtain ⟨unit, member, zero⟩ := List.mem_flatMap.mp zero
  exact zero_notMem_encodeUnit (units_small member) zero

theorem encode_injective : Function.Injective encode := by
  intro text other same
  have read := congrArg decode? same
  rw [decode?_encode, decode?_encode] at read
  exact Option.some.inj read

/-- The bytes of a text give it back; they are as many as its characters take, none of them is zero,
and no other text has them. -/
theorem encode_spells_text (text : String) :
    decode? (encode text) = some text ∧ (encode text).length = length text ∧ 0 ∉ encode text ∧
      ∀ other, encode other = encode text ↔ other = text :=
  ⟨decode?_encode text, length_encode text, zero_notMem_encode text,
    fun _ => encode_injective.eq_iff⟩

/-- A high surrogate comes exactly before each low one. Zero stands for what is before and after the
units. -/
def Paired (list : List Nat) : Prop :=
  (0 :: (list ++ [0])).IsChain fun unit next => isHighSurrogate unit = isLowSurrogate next

/-- The bytes are groups, in which only continuations follow the lead bytes, and surrogates come in
pairs. -/
def WellFormed (bytes : Bytes) : Prop := ∃ list, Spells IsContinuation bytes list ∧ Paired list

theorem paired_cons_iff {before : Nat} (high : isHighSurrogate before = false) :
    ((before :: (list ++ [0])).IsChain fun unit next => isHighSurrogate unit = isLowSurrogate next) ↔
      Paired list := by
  unfold Paired
  have zero : isHighSurrogate 0 = false := rfl
  cases list with
  | nil => simp [high, zero]
  | cons unit rest => simp [high, zero]

theorem isLowSurrogate_of_high (high : isHighSurrogate unit = true) : isLowSurrogate unit = false := by
  rw [isHighSurrogate_iff] at high
  rw [Bool.eq_false_iff, ne_eq, isLowSurrogate_iff]
  omega

theorem isHighSurrogate_of_low (low : isLowSurrogate unit = true) : isHighSurrogate unit = false := by
  rw [isLowSurrogate_iff] at low
  rw [Bool.eq_false_iff, ne_eq, isHighSurrogate_iff]
  omega

theorem isSome_joinUnits_iff (done : List Char) (list : List Nat) :
    (joinUnits done list).isSome = true ↔ Paired list := by
  have zero : isHighSurrogate 0 = false ∧ isLowSurrogate 0 = false := ⟨rfl, rfl⟩
  fun_induction joinUnits done list with
  | case1 => simp [Paired, zero]
  | case2 done unit high low rest low' ih =>
    refine ih.trans ((paired_cons_iff (isHighSurrogate_of_low low')).symm.trans ?_)
    simp [Paired, zero, isLowSurrogate_of_high high, high, low']
  | case3 done unit high low rest low' =>
    have low : isLowSurrogate low = false := by simpa using low'
    simp [Paired, high, low]
  | case4 done unit high => simp [Paired, high, zero]
  | case5 done unit rest high low => simp [Paired, zero, low]
  | case6 done unit rest high low ih =>
    refine ih.trans ((paired_cons_iff (by simpa using high)).symm.trans ?_)
    simp [Paired, zero, low]

theorem isSome_decode?_iff {list : List Nat} (spells : Spells follows bytes list) :
    (decode? bytes).isSome = true ↔ Paired list := by
  rw [← isSome_joinUnits_iff [] list]
  unfold decode?
  rw [spells.decodeUnits []]
  cases joined : joinUnits [] list <;> simp [joined]

/-- Bytes are read if they are groups with their surrogates in pairs, whatever follows the lead bytes.
So they are well-formed exactly if they are read and each byte that follows is a continuation. -/
theorem decode?_accepts (bytes : Bytes) :
    ((decode? bytes).isSome = true ↔ ∃ list, Spells (fun _ => True) bytes list ∧ Paired list) ∧
      (WellFormed bytes ↔
        (decode? bytes).isSome = true ∧ ∃ list, Spells IsContinuation bytes list) := by
  refine ⟨⟨fun read => ?_, fun ⟨list, spells, paired⟩ => ?_⟩, fun ⟨list, spells, paired⟩ => ?_,
    fun ⟨read, list, spells⟩ => ?_⟩
  · obtain ⟨text, read⟩ := Option.isSome_iff_exists.mp read
    obtain ⟨list, found, _⟩ := Option.bind_eq_some_iff.mp read
    obtain ⟨new, spells⟩ := spells_of_decodeUnits found
    exact ⟨new, spells, (isSome_decode?_iff spells).mp (Option.isSome_iff_exists.mpr ⟨text, read⟩)⟩
  · exact (isSome_decode?_iff spells).mpr paired
  · exact ⟨(isSome_decode?_iff spells).mpr paired, list, spells⟩
  · exact ⟨list, spells, (isSome_decode?_iff spells).mp read⟩

/-- A letter is taken for the rest of a lead byte's group. -/
theorem decode?_ill_formed : ¬∀ bytes, (decode? bytes).isSome = true → WellFormed bytes := by
  intro formed
  obtain ⟨list, spells, _⟩ := formed [0xC3, 0x41] rfl
  cases spells with
  | one _ high _ => exact absurd high (by decide)
  | two _ _ follows _ => exact absurd follows.1 (by decide)

end ModifiedUtf8

end ClassForge
