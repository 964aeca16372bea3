import ClassForge.Proofs.Inversion
import Mathlib.Tactic.SplitIfs

namespace ClassForge

variable {opcode : UInt8} {length count pc : Nat} {bytes code : Bytes} {instruction : Instruction}

namespace Opcode

def fixedLength? (opcode : UInt8) : Option Nat :=
  let n := opcode.toNat
  if n ≤ 0x0F ∨ (0x1A ≤ n ∧ n ≤ 0x35) ∨ (0x3B ≤ n ∧ n ≤ 0x83) ∨ (0x85 ≤ n ∧ n ≤ 0x98) ∨
      (0xAC ≤ n ∧ n ≤ 0xB1) ∨ n = 0xBE ∨ n = 0xBF ∨ n = 0xC2 ∨ n = 0xC3 then some 1
  else if n = 0x10 ∨ n = 0x12 ∨ (0x15 ≤ n ∧ n ≤ 0x19) ∨ (0x36 ≤ n ∧ n ≤ 0x3A) ∨ n = 0xA9 ∨
      n = 0xBC then some 2
  else if n = 0x11 ∨ n = 0x13 ∨ n = 0x14 ∨ n = 0x84 ∨ (0x99 ≤ n ∧ n ≤ 0xA8) ∨
      (0xB2 ≤ n ∧ n ≤ 0xB8) ∨ n = 0xBB ∨ n = 0xBD ∨ n = 0xC0 ∨ n = 0xC1 ∨ n = 0xC6 ∨ n = 0xC7
    then some 3
  else if n = 0xC5 then some 4
  else if n = 0xB9 ∨ n = 0xBA ∨ n = 0xC8 ∨ n = 0xC9 then some 5
  else none

/-- Length of an instruction in its wide form, by the opcode after the prefix. -/
def wideLength? (opcode : UInt8) : Option Nat :=
  let n := opcode.toNat
  if n = 0x84 then some 6
  else if (0x15 ≤ n ∧ n ≤ 0x19) ∨ (0x36 ≤ n ∧ n ≤ 0x3A) ∨ n = 0xA9 then some 4
  else none

theorem fixedLength?_pos (known : fixedLength? opcode = some length) : 0 < length := by
  unfold fixedLength? at known
  grind

theorem wideLength?_two_le (known : wideLength? opcode = some length) : 2 ≤ length := by
  unfold wideLength? at known
  grind

end Opcode

namespace Bytes

variable {other : Bytes}

theorem toNat_toWord16 (high low : UInt8) :
    (toWord16 high low).toNat = high.toNat * 256 + low.toNat := by
  have lowBound := low.toNat_lt
  have highBound := high.toNat_lt
  simp only [toWord16, UInt16.toNat_or, UInt16.toNat_shiftLeft, UInt8.toNat_toUInt16]
  rw [show (8 : UInt16).toNat % 16 = 8 from rfl,
    Nat.mod_eq_of_lt (by rw [Nat.shiftLeft_eq]; omega), ← Nat.shiftLeft_add_eq_or_of_lt lowBound,
    Nat.shiftLeft_eq]

theorem toNat_toWord32 (high low : UInt16) :
    (toWord32 high low).toNat = high.toNat * 65536 + low.toNat := by
  have lowBound := low.toNat_lt
  have highBound := high.toNat_lt
  simp only [toWord32, UInt32.toNat_or, UInt32.toNat_shiftLeft, UInt16.toNat_toUInt32]
  rw [show (16 : UInt32).toNat % 32 = 16 from rfl,
    Nat.mod_eq_of_lt (by rw [Nat.shiftLeft_eq]; omega), ← Nat.shiftLeft_add_eq_or_of_lt lowBound,
    Nat.shiftLeft_eq]

theorem toWord16_ofWord16 (n : UInt16) : toWord16 (n >>> 8).toUInt8 n.toUInt8 = n := by
  have bound := n.toNat_lt
  rw [← UInt16.toNat_inj, toNat_toWord16]
  simp only [UInt16.toNat_toUInt8, UInt16.toNat_shiftRight, Nat.shiftRight_eq_div_pow]
  rw [show (8 : UInt16).toNat % 16 = 8 from rfl]
  omega

theorem toWord32_ofWord32 (n : UInt32) :
    toWord32 (toWord16 (n >>> 24).toUInt8 (n >>> 16).toUInt8)
      (toWord16 (n >>> 8).toUInt8 n.toUInt8) = n := by
  have bound := n.toNat_lt
  rw [← UInt32.toNat_inj, toNat_toWord32, toNat_toWord16, toNat_toWord16]
  simp only [UInt32.toNat_toUInt8, UInt32.toNat_shiftRight, Nat.shiftRight_eq_div_pow]
  rw [show (8 : UInt32).toNat % 32 = 8 from rfl, show (16 : UInt32).toNat % 32 = 16 from rfl,
    show (24 : UInt32).toNat % 32 = 24 from rfl]
  omega

def word32At? (code : Bytes) (pos : Nat) : Option Int32 :=
  match code[pos]?, code[pos + 1]?, code[pos + 2]?, code[pos + 3]? with
  | some a, some b, some c, some d => some (toWord32 (toWord16 a b) (toWord16 c d)).toInt32
  | _, _, _, _ => none

def Alike (start stop : Nat) (code other : Bytes) : Prop :=
  ∀ i, start ≤ i → i < stop → other[i]? = code[i]?

theorem word32At?_congr {pos : Nat} (same : Alike pos (pos + 4) code other) :
    word32At? other pos = word32At? code pos := by
  unfold word32At?
  rw [same pos (by omega) (by omega), same (pos + 1) (by omega) (by omega),
    same (pos + 2) (by omega) (by omega), same (pos + 3) (by omega) (by omega)]

def switchBase (pc : Nat) : Nat := (pc / 4 + 1) * 4

theorem lt_switchBase (pc : Nat) : pc < switchBase pc := by
  unfold switchBase
  omega

/-- Length of a table switch, which lists an offset for every value between two bounds. -/
def tableSwitchLength? (code : Bytes) (pc : Nat) : Option Nat :=
  match word32At? code (switchBase pc + 4), word32At? code (switchBase pc + 8) with
  | some low, some high =>
    if low.toInt ≤ high.toInt then
      some (switchBase pc + 12 + 4 * (high.toInt - low.toInt + 1).toNat - pc)
    else none
  | _, _ => none

/-- Length of a lookup switch, which lists pairs of a value and an offset. -/
def lookupSwitchLength? (code : Bytes) (pc : Nat) : Option Nat :=
  match word32At? code (switchBase pc + 4) with
  | some pairs =>
    if 0 ≤ pairs.toInt then some (switchBase pc + 8 + 8 * pairs.toInt.toNat - pc) else none
  | none => none

/-- Length of the instruction at a position, which is none if its opcode is unknown or the bytes
that determine the length are missing. -/
def instructionLength? (code : Bytes) (pc : Nat) : Option Nat :=
  match code[pc]? with
  | none => none
  | some opcode =>
    if opcode = Opcode.tableSwitch then tableSwitchLength? code pc
    else if opcode = Opcode.lookupSwitch then lookupSwitchLength? code pc
    else if opcode = Opcode.wide then (code[pc + 1]?).bind Opcode.wideLength?
    else Opcode.fixedLength? opcode

theorem tableSwitchLength?_eq_some : tableSwitchLength? code pc = some length ↔
    ∃ low high, word32At? code (switchBase pc + 4) = some low ∧
      word32At? code (switchBase pc + 8) = some high ∧ low.toInt ≤ high.toInt ∧
      switchBase pc + 12 + 4 * (high.toInt - low.toInt + 1).toNat - pc = length := by
  unfold tableSwitchLength?
  split <;> simp_all

theorem lookupSwitchLength?_eq_some : lookupSwitchLength? code pc = some length ↔
    ∃ pairs, word32At? code (switchBase pc + 4) = some pairs ∧ 0 ≤ pairs.toInt ∧
      switchBase pc + 8 + 8 * pairs.toInt.toNat - pc = length := by
  unfold lookupSwitchLength?
  split <;> simp_all

theorem instructionLength?_pos (known : instructionLength? code pc = some length) : 0 < length := by
  have after := lt_switchBase pc
  unfold instructionLength? at known
  split at known
  · cases known
  split_ifs at known
  · obtain ⟨_, _, _, _, _, rfl⟩ := tableSwitchLength?_eq_some.mp known
    omega
  · obtain ⟨_, _, _, rfl⟩ := lookupSwitchLength?_eq_some.mp known
    omega
  · obtain ⟨_, _, fixed⟩ := Option.bind_eq_some_iff.mp known
    exact Nat.zero_lt_of_lt (Opcode.wideLength?_two_le fixed)
  · exact Opcode.fixedLength?_pos known

theorem instructionLength?_congr (known : instructionLength? code pc = some length)
    (same : Alike pc (pc + length) code other) : instructionLength? other pc = some length := by
  have positive := instructionLength?_pos known
  have after := lt_switchBase pc
  unfold instructionLength? at known ⊢
  rw [same pc (Nat.le_refl pc) (by omega)]
  split at known
  · cases known
  split_ifs at known ⊢
  · obtain ⟨low, high, atLow, atHigh, ordered, total⟩ := tableSwitchLength?_eq_some.mp known
    refine tableSwitchLength?_eq_some.mpr ⟨low, high, ?_, ?_, ordered, total⟩
    · rw [word32At?_congr fun i _ _ => same i (by omega) (by omega), atLow]
    · rw [word32At?_congr fun i _ _ => same i (by omega) (by omega), atHigh]
  · obtain ⟨pairs, atPairs, positive, total⟩ := lookupSwitchLength?_eq_some.mp known
    refine lookupSwitchLength?_eq_some.mpr ⟨pairs, ?_, positive, total⟩
    rw [word32At?_congr fun i _ _ => same i (by omega) (by omega), atPairs]
  · obtain ⟨_, _, fixed⟩ := Option.bind_eq_some_iff.mp known
    have := Opcode.wideLength?_two_le fixed
    rw [same (pc + 1) (by omega) (by omega)]
    exact known
  · exact known

end Bytes

/-- Positions between instructions from `base` on: that position itself, and the end of every
instruction that lies inside the code and starts at such a position. -/
inductive Boundary (code : Bytes) (base : Nat) : Nat → Prop
  | start : base ≤ code.length → Boundary code base base
  | next {pc length : Nat} : Boundary code base pc → code.instructionLength? pc = some length →
      pc + length ≤ code.length → Boundary code base (pc + length)

namespace Boundary

variable {p q : Nat}
variable {code other : Bytes} {base pc : Nat}

section

variable (boundary : Boundary code base pc)

include boundary

theorem base_le : base ≤ pc := by
  induction boundary with
  | start => exact Nat.le_refl _
  | next _ _ _ ih => omega

theorem le_length : pc ≤ code.length := by
  cases boundary with
  | start bound => exact bound
  | next _ _ bound => exact bound

theorem congr (bound : pc ≤ other.length) (same : Bytes.Alike base pc code other) :
    Boundary other base pc := by
  induction boundary with
  | start => exact .start bound
  | @next pc length previous known inside ih =>
    have before := ih (by omega) fun i lower upper => same i lower (by omega)
    have base_le := previous.base_le
    have measured := Bytes.instructionLength?_congr known fun i lower upper =>
      same i (by omega) upper
    exact .next before measured bound

theorem instruction_le {pc' : Nat} (later : Boundary code base pc') (before : pc < pc') :
    ∃ length, code.instructionLength? pc = some length ∧ pc + length ≤ pc' := by
  -- By strong induction on the later boundary: if it ended an instruction that starts before
  -- `pc`, then `pc` would be a boundary inside that instruction.
  induction pc' using Nat.strongRecOn generalizing pc with
  | ind pc' ih =>
    cases later with
    | start => have := boundary.base_le; omega
    | @next last length previous known inside =>
      rcases Nat.lt_trichotomy pc last with earlier | same | inner
      · have positive := Bytes.instructionLength?_pos known
        obtain ⟨size, sized, fits⟩ := ih last (by omega) boundary previous earlier
        exact ⟨size, sized, by omega⟩
      · exact ⟨length, same ▸ known, by omega⟩
      · obtain ⟨size, sized, fits⟩ := ih pc before previous boundary inner
        rw [known] at sized
        cases sized
        omega

theorem append (bytes : Bytes) : Boundary (code ++ bytes) base pc := by
  have bound := boundary.le_length
  refine boundary.congr (by rw [List.length_append]; omega) fun i _ upper => ?_
  exact List.getElem?_append_left (by omega)

end

theorem of_append (boundary : Boundary (code ++ bytes) base pc) (bound : pc ≤ code.length) :
    Boundary code base pc :=
  boundary.congr bound fun i _ upper => (List.getElem?_append_left (by omega)).symm

theorem take (boundary : Boundary code base pc) (bound : pc ≤ count) :
    Boundary (code.take count) base pc := by
  have inside := boundary.le_length
  refine boundary.congr (by rw [List.length_take]; omega) fun i _ upper => ?_
  exact List.getElem?_take_of_lt (by omega)

theorem of_take (boundary : Boundary (code.take count) base pc) : Boundary code base pc := by
  have inside := boundary.le_length
  rw [List.length_take] at inside
  refine boundary.congr (by omega) fun i _ upper => ?_
  exact (List.getElem?_take_of_lt (by omega)).symm

theorem replace {start : Nat} (boundary : Boundary code base pc) (head : Boundary code base start)
    (known : code.instructionLength? start = some length)
    (kept : other.instructionLength? start = some length) (size : other.length = code.length)
    (same : ∀ i, i < start ∨ start + length ≤ i → other[i]? = code[i]?) :
    Boundary other base pc := by
  induction boundary with
  | start bound => exact .start (by omega)
  | @next pc n previous measured inside ih =>
    rcases Nat.lt_trichotomy pc start with before | equal | after
    · obtain ⟨size', sized, fits⟩ := previous.instruction_le head before
      rw [measured] at sized
      cases sized
      have := Bytes.instructionLength?_congr measured fun i lower upper => same i (by omega)
      exact .next ih this (by omega)
    · subst equal
      rw [measured] at known
      cases known
      exact .next ih kept (by omega)
    · obtain ⟨size', sized, fits⟩ := head.instruction_le previous after
      rw [known] at sized
      cases sized
      have := Bytes.instructionLength?_congr measured fun i lower upper => same i (by omega)
      exact .next ih this (by omega)

theorem apart {other : Nat} (left : Boundary code base p) (right : Boundary code base q)
    (known : code.instructionLength? p = some length)
    (found : code.instructionLength? q = some other) (differ : p ≠ q) :
    p + length ≤ q ∨ q + other ≤ p := by
  rcases Nat.lt_or_gt_of_ne differ with before | after
  · obtain ⟨_, measured, fits⟩ := left.instruction_le right before
    rw [known] at measured
    cases measured
    exact .inl fits
  · obtain ⟨_, measured, fits⟩ := right.instruction_le left after
    rw [found] at measured
    cases measured
    exact .inr fits

theorem untouched {len : Nat} (changed : Boundary code base p)
    (known : code.instructionLength? p = some length)
    (same : ∀ i, i < p ∨ p + length ≤ i → other[i]? = code[i]?) (boundary : Boundary code base q)
    (found : code.instructionLength? q = some len) (differ : q ≠ p) :
    Bytes.Alike q (q + len) code other := by
  intro i lower upper
  rcases boundary.apart changed found known differ with before | after
  · exact same i (.inl (by omega))
  · exact same i (.inr (by omega))

end Boundary

namespace Bytes

/-- Length of an instruction at the front that is no switch, whose length is the same wherever it
stands. -/
def plainLength? : Bytes → Option Nat
  | [] => none
  | opcode :: rest =>
    if opcode = Opcode.wide then rest.head?.bind Opcode.wideLength? else Opcode.fixedLength? opcode

def StandAt (code : Bytes) (pc : Nat) (bytes : Bytes) : Prop :=
  ∀ i < bytes.length, code[pc + i]? = bytes[i]?

theorem standAt_append (code bytes : Bytes) : (code ++ bytes).StandAt code.length bytes := by
  intro i _
  rw [List.getElem?_append_right (by omega), Nat.add_sub_cancel_left]

theorem plainLength?_cons {rest : Bytes} (known : plainLength? (opcode :: rest) = some length) :
    opcode ≠ Opcode.tableSwitch ∧ opcode ≠ Opcode.lookupSwitch := by
  constructor <;> (rintro rfl; cases known)

theorem StandAt.instructionLength? (stands : code.StandAt pc bytes)
    (known : plainLength? bytes = some length) : code.instructionLength? pc = some length := by
  cases bytes with
  | nil => cases known
  | cons opcode rest =>
    have here : code[pc]? = some opcode := stands 0 (Nat.zero_lt_succ _)
    obtain ⟨noTable, noLookup⟩ := plainLength?_cons known
    unfold Bytes.instructionLength?
    rw [here]
    simp only [if_neg noTable, if_neg noLookup]
    simp only [plainLength?] at known
    split_ifs at known ⊢
    · cases rest with
      | nil => cases known
      | cons modified rest =>
        have after : code[pc + 1]? = some modified := stands 1 (by simp)
        rw [after]
        exact known
    · exact known

theorem instructionLength?_append_plain (known : plainLength? bytes = some length) :
    (code ++ bytes).instructionLength? code.length = some length :=
  (standAt_append code bytes).instructionLength? known

/-- One complete instruction that neither jumps nor is a switch. -/
structure IsPlain (bytes : Bytes) : Prop where
  complete : plainLength? bytes = some bytes.length
  noJump : ∀ opcode ∈ bytes.head?, Opcode.isJump opcode = false

end Bytes

namespace Bytes.IsPlain

theorem no_switch (plain : bytes.IsPlain) :
    bytes.head? ≠ some Opcode.tableSwitch ∧ bytes.head? ≠ some Opcode.lookupSwitch := by
  have complete := plain.complete
  cases bytes with
  | nil => cases complete
  | cons opcode rest => simpa using plainLength?_cons complete

end Bytes.IsPlain

namespace Opcode

/-- The instruction does not go on to the next one. Switches and the return from a subroutine are
left out. -/
def isExit (opcode : UInt8) : Bool :=
  opcode == goto || opcode == gotoWide || decide (0xAC ≤ opcode ∧ opcode ≤ 0xB1) || opcode == 0xBF

/-- The instruction does not jump. Where it is not `last` it goes on to the next one, and where it is
not `dynamic` it calls no interface method. -/
def isOrdinary (last dynamic : Bool) (opcode : UInt8) : Bool :=
  !isJump opcode && (!isExit opcode || last) && (opcode != 0xB9 || dynamic)

end Opcode

/-- One complete instruction whose opcode is ordinary. -/
structure Bytes.IsOrdinary (last dynamic : Bool) (bytes : Bytes) : Prop where
  complete : plainLength? bytes = some bytes.length
  ordinary : ∀ opcode ∈ bytes.head?, Opcode.isOrdinary last dynamic opcode = true

namespace Bytes.IsOrdinary

variable {last dynamic : Bool} {rest : Bytes}

theorem ofFixed (known : Opcode.fixedLength? opcode = some (rest.length + 1))
    (ordinary : Opcode.isOrdinary last dynamic opcode = true) :
    IsOrdinary last dynamic (opcode :: rest) where
  complete := by
    have noWide : opcode ≠ Opcode.wide := by
      rintro rfl
      exact absurd known (by simp [Opcode.fixedLength?, Opcode.wide])
    simp only [plainLength?, if_neg noWide, known, List.length_cons]
  ordinary := by simpa using ordinary

theorem ofWide {modified : UInt8} (known : Opcode.wideLength? modified = some (rest.length + 2)) :
    IsOrdinary last dynamic (Opcode.wide :: modified :: rest) where
  complete := by simpa [plainLength?] using known
  ordinary := by
    rintro opcode ⟨⟩
    rfl

theorem ofFamily {first : UInt8}
    (short : ∀ i : Fin count, Opcode.fixedLength? (Opcode.family first i) = some 1 ∧
      Opcode.isOrdinary false false (Opcode.family first i) = true) (i : Fin count) :
    IsOrdinary false false [Opcode.family first i] :=
  .ofFixed (short i).1 (short i).2

theorem isPlain (ordinary : IsOrdinary last dynamic bytes) : IsPlain bytes := by
  refine ⟨ordinary.complete, fun opcode member => ?_⟩
  have allowed := ordinary.ordinary opcode member
  unfold Opcode.isOrdinary at allowed
  grind

end Bytes.IsOrdinary

namespace Instruction

open Bytes (IsPlain IsOrdinary)

variable {last dynamic : Bool} {index : PoolM UInt16} {pool pool' : Pool}

/-- The opcode with the first register for a family of loads or stores has the other short forms
after it. -/
theorem ordinary_encodeLocal {short normal : UInt8} {kind : Kind} {register : UInt16}
    (direct : ∀ i < 4, Opcode.fixedLength? (Opcode.family short (4 * kind.index) + UInt8.ofNat i) =
      some 1 ∧ Opcode.isOrdinary false false
        (Opcode.family short (4 * kind.index) + UInt8.ofNat i) = true)
    (narrow : Opcode.fixedLength? (Opcode.family normal kind.index) = some 2)
    (noJump : Opcode.isOrdinary false false (Opcode.family normal kind.index) = true)
    (prefixed : Opcode.wideLength? (Opcode.family normal kind.index) = some 4) :
    IsOrdinary false false (encodeLocal short normal kind register) := by
  unfold encodeLocal
  split
  · rename_i small
    have bound : register.toNat < 4 := by
      have := UInt16.le_iff_toNat_le.mp small
      simp at this
      omega
    have same : register.toUInt8 = UInt8.ofNat register.toNat := rfl
    rw [same]
    exact .ofFixed (direct _ bound).1 (direct _ bound).2
  split
  · exact .ofFixed narrow noJump
  · exact .ofWide prefixed

theorem ordinary_encodeIncrement (register : UInt16) (delta : Int16) :
    IsOrdinary last dynamic (encodeIncrement register delta) := by
  unfold encodeIncrement
  split
  · exact .ofFixed rfl rfl
  · exact .ofWide rfl

theorem ordinary_encodeRet (register : UInt16) : IsOrdinary last dynamic (encodeRet register) := by
  unfold encodeRet
  split
  · exact .ofFixed rfl rfl
  · exact .ofWide rfl

theorem ordinary_encodeConstant (constant : Loadable) (index : UInt16) :
    IsOrdinary last dynamic (encodeConstant constant index) := by
  unfold encodeConstant
  split
  · exact .ofFixed rfl rfl
  split
  · exact .ofFixed rfl rfl
  · exact .ofFixed rfl rfl

theorem withIndex_ok (run : withIndex opcode index pool = .ok bytes pool') :
    ∃ word, bytes = opcode :: Bytes.ofWord16 word := by
  obtain ⟨word, _, _, result⟩ := estate_bind_ok.mp run
  exact ⟨word, (estate_pure_ok.mp result).1.symm⟩

theorem ordinary_withIndex (run : withIndex opcode index pool = .ok bytes pool')
    (known : Opcode.fixedLength? opcode = some 3)
    (ordinary : Opcode.isOrdinary last dynamic opcode = true) : IsOrdinary last dynamic bytes := by
  obtain ⟨word, rfl⟩ := withIndex_ok run
  exact .ofFixed known ordinary

theorem ordinary_pure {result : Bytes} (ordinary : IsOrdinary last dynamic bytes)
    (run : (pure bytes : PoolM Bytes) pool = .ok result pool') : IsOrdinary last dynamic result :=
  (estate_pure_ok.mp run).1 ▸ ordinary

def callsInterface : Instruction → Bool
  | .invoke .interface _ => true
  | _ => false

theorem ordinary_encode (run : instruction.encode pool = .ok bytes pool') :
    IsOrdinary instruction.isTerminal instruction.callsInterface bytes := by
  cases instruction with
  | pushInt operand => exact ordinary_pure (.ofFamily (by decide) operand) run
  | pushLong value | pushFloat value
  | pushDouble value => exact ordinary_pure (.ofFamily (by decide) value) run
  | load kind register | store kind register =>
    refine ordinary_pure (ordinary_encodeLocal ?_ ?_ ?_ ?_) run <;>
      (rcases kind with (_ | _ | _ | _) | _ <;> decide)
  | increment register delta => exact ordinary_pure (ordinary_encodeIncrement register delta) run
  | ret register => exact ordinary_pure (ordinary_encodeRet register) run
  | pushConstant constant =>
    obtain ⟨index, _, _, result⟩ := estate_bind_ok.mp run
    exact ordinary_pure (ordinary_encodeConstant constant index) result
  | arrayLoad element | arrayStore element =>
    refine ordinary_pure (.ofFixed ?_ ?_) run <;>
      (rcases element with (_ | _ | _ | _) | _ | _ | _ | _ <;> decide)
  | stack op => exact ordinary_pure (.ofFixed (by cases op <;> rfl) (by cases op <;> rfl)) run
  | arithmetic op kind =>
    exact ordinary_pure (.ofFixed (by cases op <;> cases kind <;> rfl)
      (by cases op <;> cases kind <;> rfl)) run
  | negate kind => exact ordinary_pure (.ofFixed (by cases kind <;> rfl) (by cases kind <;> rfl)) run
  | shift op width | bitwise op width =>
    exact ordinary_pure (.ofFixed (by cases op <;> cases width <;> rfl)
      (by cases op <;> cases width <;> rfl)) run
  | convert conversion =>
    obtain ⟨source, target, differ⟩ := conversion
    refine ordinary_pure (.ofFixed ?_ ?_) run <;>
      (cases source <;> cases target <;> first | exact absurd rfl differ | rfl)
  | narrow target =>
    exact ordinary_pure (.ofFixed (by cases target <;> rfl) (by cases target <;> rfl)) run
  | compareFloat width nan =>
    exact ordinary_pure (.ofFixed (by cases width <;> cases nan <;> rfl)
      (by cases width <;> cases nan <;> rfl)) run
  | returnValue kind =>
    refine ordinary_pure (.ofFixed ?_ ?_) run <;>
      (rcases kind with (_ | _ | _ | _) | _ <;> decide)
  | invoke mode method =>
    obtain ⟨front, _, indexed, result⟩ := estate_bind_ok.mp run
    obtain ⟨word, rfl⟩ := withIndex_ok indexed
    cases mode with
    | interface | virtual | special | static => exact ordinary_pure (.ofFixed rfl rfl) result
  | newMultiArray array dimensions =>
    obtain ⟨front, _, indexed, result⟩ := estate_bind_ok.mp run
    obtain ⟨word, rfl⟩ := withIndex_ok indexed
    exact ordinary_pure (.ofFixed rfl rfl) result
  | getStatic field | putStatic field | getField field | putField field =>
    exact ordinary_withIndex run rfl rfl
  | allocate name | newRefArray element | checkCast type
  | instanceOf type => exact ordinary_withIndex run rfl rfl
  | nop | pushNull | compareLong | returnVoid | throwValue | arrayLength | monitorEnter
  | monitorExit | pushByte value | pushShort value
  | newArray element => exact ordinary_pure (.ofFixed rfl rfl) run

theorem isPlain_encode (run : instruction.encode pool = .ok bytes pool') : IsPlain bytes :=
  (ordinary_encode run).isPlain

end Instruction

/-- The bytes are one more instruction after the code, and it does not jump. -/
structure Bytes.IsNext (code bytes : Bytes) : Prop where
  complete : (code ++ bytes).instructionLength? code.length = some bytes.length
  noJump : ∀ opcode ∈ bytes.head?, Opcode.isJump opcode = false

theorem Bytes.IsPlain.isNext (plain : bytes.IsPlain) (code : Bytes) : IsNext code bytes :=
  ⟨instructionLength?_append_plain plain.complete, plain.noJump⟩

theorem Boundary.append_cases {base : Nat} (tiled : Boundary code base code.length)
    (complete : (code ++ bytes).instructionLength? code.length = some bytes.length)
    (boundary : Boundary (code ++ bytes) base pc) (found : (code ++ bytes)[pc]? = some opcode) :
    pc < code.length ∧ Boundary code base pc ∧ code[pc]? = some opcode ∨
      pc = code.length ∧ bytes.head? = some opcode := by
  have inside := (List.getElem?_eq_some_iff.mp found).1
  rcases Nat.lt_trichotomy pc code.length with before | rfl | after
  · rw [List.getElem?_append_left before] at found
    exact .inl ⟨before, boundary.of_append (Nat.le_of_lt before), found⟩
  · rw [List.getElem?_append_right (Nat.le_refl _), Nat.sub_self, ← List.head?_eq_getElem?] at found
    exact .inr ⟨rfl, found⟩
  · obtain ⟨length, known, fits⟩ := (tiled.append bytes).instruction_le boundary after
    rw [complete] at known
    cases known
    rw [List.length_append] at inside
    omega

theorem Boundary.append_instruction {base : Nat} (tiled : Boundary code base code.length)
    (complete : (code ++ bytes).instructionLength? code.length = some bytes.length) :
    Boundary (code ++ bytes) base (code ++ bytes).length := by
  rw [List.length_append]
  exact .next (tiled.append bytes) complete (Nat.le_of_eq List.length_append.symm)

end ClassForge
