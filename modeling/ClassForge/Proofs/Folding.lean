import ClassForge.Instruction
import ClassForge.Tree.Fold
import Mathlib

namespace ClassForge

variable {s t u : BaseType} {n : Int} {op : BinaryOp} {e : Expr}

namespace BaseType

def isInteger : BaseType → Bool
  | .byte | .char | .short | .int | .long => true
  | _ => false

/-- The integers of a type; a boolean is 0 or 1. -/
def Holds : BaseType → Int → Prop
  | .boolean, n => n = 0 ∨ n = 1
  | .byte, n => -2 ^ 7 ≤ n ∧ n < 2 ^ 7
  | .char, n => 0 ≤ n ∧ n < 2 ^ 16
  | .short, n => -2 ^ 15 ≤ n ∧ n < 2 ^ 15
  | .int, n => -2 ^ 31 ≤ n ∧ n < 2 ^ 31
  | .long, n => -2 ^ 63 ≤ n ∧ n < 2 ^ 63
  | .float, _ | .double, _ => False

instance (n : Int) : (t : BaseType) → Decidable (t.Holds n)
  | .boolean => inferInstanceAs (Decidable (_ ∨ _))
  | .byte | .char | .short | .int | .long => inferInstanceAs (Decidable (_ ∧ _))
  | .float | .double => inferInstanceAs (Decidable False)

/-- The integer of the type that has the same low bits. -/
def wrap : BaseType → Int → Int
  | .byte, n => n.bmod (2 ^ 8)
  | .char, n => n % 2 ^ 16
  | .short, n => n.bmod (2 ^ 16)
  | .int, n => n.bmod (2 ^ 32)
  | .long, n => n.bmod (2 ^ 64)
  | _, n => n

def promote : BaseType → BaseType → BaseType
  | .long, _ | _, .long => .long
  | _, _ => .int

def bits : BaseType → Nat
  | .long => 64
  | _ => 32

def literal : BaseType → Int → Literal
  | .long, n => .long (.ofInt n)
  | _, n => .int (.ofInt n)

/-- A constant of the type from its bits. -/
def ofBits : (t : BaseType) → BitVec t.bits → Literal
  | .long, x => .long (.ofBitVec x)
  | .boolean, x | .byte, x | .char, x | .short, x | .int, x | .float, x | .double, x =>
    .int (.ofBitVec x)

def Casts (s t : BaseType) : Prop :=
  s = .boolean ∧ t = .boolean ∨ s.isInteger = true ∧ t.isInteger = true

/-- Either something goes wrong and there is no result, or the result is the integer as a constant
of the type. -/
def Gives (t : BaseType) (fails : Prop) (n : Int) (result : Option Literal) : Prop :=
  fails ∧ result = none ∨ ¬fails ∧ t.Holds n ∧ result = some (t.literal n)

namespace Gives

variable {s t : BaseType} {p q : Prop} {n m : Int} {x : Option Literal}
  {f : Literal → Option Literal}

theorem bind (first : s.Gives p n x) (next : s.Holds n → t.Gives q m (f (s.literal n))) :
    t.Gives (p ∨ q) m (x.bind f) := by
  rcases first with ⟨fails, rfl⟩ | ⟨works, held, rfl⟩
  · exact .inl ⟨.inl fails, rfl⟩
  · rcases next held with ⟨fails, same⟩ | ⟨worksToo, held, same⟩
    · exact .inl ⟨.inr fails, same⟩
    · exact .inr ⟨fun fails => fails.elim works worksToo, held, same⟩

theorem bind_some (first : s.Gives p n x)
    (next : s.Holds n → t.Holds m ∧ f (s.literal n) = some (t.literal m)) :
    t.Gives p m (x.bind f) := by
  rcases first with ⟨fails, rfl⟩ | ⟨works, held, rfl⟩
  · exact .inl ⟨fails, rfl⟩
  · exact .inr ⟨works, next held⟩

theorem guarded {a : Literal} [Decidable p] (works : t.Holds n ∧ a = t.literal n) :
    t.Gives p n (if p then none else some a) := by
  split
  · next is => exact .inl ⟨is, rfl⟩
  · next is => exact .inr ⟨is, works.1, congrArg some works.2⟩

end Gives

theorem wrap_of_holds (held : t.Holds n) : t.wrap n = n := by
  cases t <;> simp only [Holds, wrap] at held ⊢ <;> grind [Int.bmod]

theorem holds_wrap (integer : t.isInteger = true) (n : Int) : t.Holds (t.wrap n) := by
  cases t <;> simp only [isInteger, Bool.false_eq_true] at integer <;>
    simp only [Holds, wrap] <;> grind [Int.bmod]

theorem holds_promote (held : s.Holds n) : (s.promote u).Holds n ∧ (u.promote s).Holds n := by
  cases s <;> cases u <;> simp only [Holds, promote] at held ⊢ <;> grind

theorem promote_cases (s u : BaseType) : s.promote u = .int ∨ s.promote u = .long := by
  cases s <;> cases u <;> simp [promote]

section Wide

variable (wide : t = .int ∨ t = .long)
include wide

theorem wrap_eq (n : Int) : t.wrap n = n.bmod (2 ^ t.bits) := by
  rcases wide with rfl | rfl <;> rfl

theorem toInt_bits (held : t.Holds n) : (BitVec.ofInt t.bits n).toInt = n :=
  (BitVec.toInt_ofInt ..).trans ((wrap_eq wide n).symm.trans (wrap_of_holds held))

theorem ofBits_eq {x : BitVec t.bits} (value : x.toInt = n) :
    t.Holds n ∧ t.ofBits x = t.literal n := by
  subst value
  rcases wide with rfl | rfl
  · exact ⟨⟨Int32.le_toInt ⟨⟨x⟩⟩, Int32.toInt_lt ⟨⟨x⟩⟩⟩,
      congrArg Literal.int (Int32.ofInt_toInt ⟨⟨x⟩⟩).symm⟩
  · exact ⟨⟨Int64.le_toInt ⟨⟨x⟩⟩, Int64.toInt_lt ⟨⟨x⟩⟩⟩,
      congrArg Literal.long (Int64.ofInt_toInt ⟨⟨x⟩⟩).symm⟩

end Wide

theorem toInt_ofInt :
    (BaseType.int.Holds n → (Int32.ofInt n).toInt = n) ∧
      (BaseType.long.Holds n → (Int64.ofInt n).toInt = n) :=
  ⟨toInt_bits (.inl rfl), toInt_bits (.inr rfl)⟩

theorem toInt?_literal (s : BaseType) (n : Int) : (s.literal n).toInt? = some (.ofInt n) := by
  cases s with
  | long =>
    refine congrArg some (Int32.toInt_inj.mp ?_)
    simp [Int32.toInt_ofInt]
  | _ => rfl

theorem toLong?_literal (held : s.Holds n) : (s.literal n).toLong? = some (.ofInt n) := by
  have widened (small : BaseType.int.Holds n) : (Int32.ofInt n).toInt64 = Int64.ofInt n := by
    refine Int64.toInt_inj.mp ?_
    rw [Int32.toInt_toInt64, Int32.toInt_ofInt, Int64.toInt_ofInt]
    exact (wrap_of_holds small).trans (wrap_of_holds (holds_promote (u := .long) small).1).symm
  cases s with
  | long => rfl
  | boolean | byte | char | short | int =>
    exact congrArg some (widened (holds_promote (u := .int) held).1)
  | float | double => exact held.elim

theorem ofInt_narrow (n : Int) :
    (Int32.ofInt n).toInt8.toInt32 = .ofInt (n.bmod (2 ^ 8)) ∧
    ((Int32.ofInt n).toUInt32 &&& 0xFFFF).toInt32 = .ofInt (n % 2 ^ 16) ∧
    (Int32.ofInt n).toInt16.toInt32 = .ofInt (n.bmod (2 ^ 16)) := by
  refine ⟨Int32.toInt_inj.mp ?_, Int32.toBitVec_inj.mp (BitVec.eq_of_toNat_eq ?_),
    Int32.toInt_inj.mp ?_⟩
  · rw [Int8.toInt_toInt32, Int32.toInt_toInt8, Int32.toInt_ofInt, Int32.toInt_ofInt]
    grind [Int.bmod]
  · change (BitVec.ofInt 32 n &&& 65535#32).toNat = (BitVec.ofInt 32 (n % 2 ^ 16)).toNat
    rw [BitVec.toNat_and, show (65535#32).toNat = 2 ^ 16 - 1 from rfl,
      Nat.and_two_pow_sub_one_eq_mod, BitVec.toNat_ofInt, BitVec.toNat_ofInt]
    omega
  · rw [Int16.toInt_toInt32, Int32.toInt_toInt16, Int32.toInt_ofInt, Int32.toInt_ofInt]
    grind [Int.bmod]

theorem ofInt_wrap (n : Int) :
    Int32.ofInt (n.bmod (2 ^ 32)) = .ofInt n ∧ Int64.ofInt (n.bmod (2 ^ 64)) = .ofInt n := by
  refine ⟨Int32.toInt_inj.mp ?_, Int64.toInt_inj.mp ?_⟩
  · rw [Int32.toInt_ofInt, Int32.toInt_ofInt]
    exact Int.bmod_bmod
  · rw [Int64.toInt_ofInt, Int64.toInt_ofInt]
    exact Int.bmod_bmod

theorem coerce?_literal (held : s.Holds n) (casts : s.Casts t) :
    t.Holds (t.wrap n) ∧ (s.literal n).coerce? (.ofBase t) = some (t.literal (t.wrap n)) := by
  rcases casts with ⟨rfl, rfl⟩ | ⟨_, integer⟩
  · rcases held with rfl | rfl
    · exact ⟨.inl rfl, rfl⟩
    · exact ⟨.inr rfl, rfl⟩
  refine ⟨holds_wrap integer n, ?_⟩
  cases t <;> simp only [isInteger, Bool.false_eq_true] at integer <;>
    simp only [TypeCode.ofBase, Literal.coerce?, toInt?_literal, toLong?_literal held,
      Option.map_some] <;>
    simp only [literal, wrap, ofInt_narrow, ofInt_wrap]

theorem Gives.retype {p : Prop} {x : Option Literal} (gives : t.Gives p n x) :
    t.Gives p n (x.bind (Fold.retype (some (.base t)))) := by
  refine gives.bind_some fun held => ⟨held, ?_⟩
  have casts : t.Casts t := by
    cases t with
    | boolean => exact .inl ⟨rfl, rfl⟩
    | float | double => exact held.elim
    | _ => exact .inr ⟨rfl, rfl⟩
  have same := (coerce?_literal held casts).2
  rwa [wrap_of_holds held] at same

end BaseType

namespace BinaryOp

/-- What an operator gives on integers, if its result is of the given type. -/
def number (t : BaseType) (l r : Int) : BinaryOp → Int
  | .add => t.wrap (l + r)
  | .sub => t.wrap (l - r)
  | .mul => t.wrap (l * r)
  -- The smallest number divided by -1 wraps around to itself.
  | .div => t.wrap (l.tdiv r)
  | .rem => l.tmod r
  | .shl => t.wrap (l * 2 ^ (r % t.bits).toNat)
  | .shr => l / 2 ^ (r % t.bits).toNat
  | .ushr => t.wrap (l % 2 ^ t.bits / 2 ^ (r % t.bits).toNat)
  | .and => (BitVec.ofInt t.bits l &&& BitVec.ofInt t.bits r).toInt
  | .or => (BitVec.ofInt t.bits l ||| BitVec.ofInt t.bits r).toInt
  | .xor => (BitVec.ofInt t.bits l ^^^ BitVec.ofInt t.bits r).toInt
  | .condAnd => if l = 0 then 0 else r
  | .condOr => if l = 0 then r else 1
  | .eq => if l = r then 1 else 0
  | .ne => if l = r then 0 else 1
  | .lt => if l < r then 1 else 0
  | .le => if l ≤ r then 1 else 0
  | .gt => if r < l then 1 else 0
  | .ge => if r ≤ l then 1 else 0

/-- The operator brings two integers to one type and computes an integer of that type. -/
def isArithmetic : BinaryOp → Bool
  | .add | .sub | .mul | .div | .rem | .and | .or | .xor => true
  | _ => false

def isLogical : BinaryOp → Bool
  | .and | .or | .xor | .condAnd | .condOr | .eq | .ne => true
  | _ => false

def isDivision : BinaryOp → Bool
  | .div | .rem => true
  | _ => false

/-- The bits an arithmetic operator computes at any width. -/
def onBits {w : Nat} (l r : BitVec w) : BinaryOp → BitVec w
  | .add => l + r
  | .sub => l - r
  | .mul => l * r
  | .div => l.sdiv r
  | .rem => l.srem r
  | .and => l &&& r
  | .or => l ||| r
  | .xor => l ^^^ r
  | _ => l

theorem toInt_onBits (wide : t = .int ∨ t = .long) (arithmetic : op.isArithmetic = true)
    (l r : BitVec t.bits) : (op.onBits l r).toInt = op.number t l.toInt r.toInt := by
  have wraps := BaseType.wrap_eq wide
  cases op with
  | add => rw [number, wraps, onBits, BitVec.toInt_add]
  | sub => rw [number, wraps, onBits, BitVec.toInt_sub]
  | mul => rw [number, wraps, onBits, BitVec.toInt_mul]
  | div => rw [number, wraps, onBits, BitVec.toInt_sdiv]
  | rem => exact BitVec.toInt_srem l r
  | and | or | xor => simp only [number, onBits, BitVec.ofInt_toInt]
  | _ => cases arithmetic

theorem ops_eq (arithmetic : op.isArithmetic = true) :
    (∀ l r : Int32, Fold.intOp op l r = if op.isDivision = true ∧ r.toInt = 0 then none
      else some (.ofBitVec (op.onBits l.toBitVec r.toBitVec))) ∧
    ∀ l r : Int64, Fold.longOp op l r = if op.isDivision = true ∧ r.toInt = 0 then none
      else some (.ofBitVec (op.onBits l.toBitVec r.toBitVec)) := by
  constructor <;> intro l r <;> cases op <;>
    simp [isArithmetic, isDivision, Fold.intOp, Fold.longOp, onBits, ← Int32.toInt_inj,
      ← Int64.toInt_inj] at arithmetic ⊢

theorem toInt_and_mask (count : Int32) :
    (count &&& 31).toInt = count.toInt % 32 ∧ (count &&& 63).toInt = count.toInt % 64 := by
  have low (k mask : Nat) (ones : mask = 2 ^ k - 1) (few : k < 31) :
      (count.toBitVec &&& BitVec.ofNat 32 mask).toInt = (count.toBitVec.toNat % 2 ^ k : Nat) := by
    have less := Nat.pow_lt_pow_right (show 1 < 2 by omega) few
    have small := Nat.mod_lt count.toBitVec.toNat (Nat.two_pow_pos k)
    have masked :
        (count.toBitVec &&& BitVec.ofNat 32 mask).toNat = count.toBitVec.toNat % 2 ^ k := by
      rw [BitVec.toNat_and, BitVec.toNat_ofNat, Nat.mod_eq_of_lt (by omega), ones,
        Nat.and_two_pow_sub_one_eq_mod]
    rw [BitVec.toInt_eq_toNat_of_lt (by omega), masked]
  have value : count.toInt = (count.toBitVec.toNat : Int).bmod (2 ^ 32) :=
    BitVec.toInt_eq_toNat_bmod _
  constructor
  · refine (low 5 31 rfl (by decide)).trans ?_
    rw [value]
    grind [Int.bmod]
  · refine (low 6 63 rfl (by decide)).trans ?_
    rw [value]
    grind [Int.bmod]

theorem count_eq {w : Nat} (x size : BitVec w) (nonneg : 0 ≤ x.toInt)
    (less : x.toInt < size.toInt) :
    x.smod size = x ∧ x % size = x ∧ x.toNat = x.toInt.toNat := by
  have unsigned {y : BitVec w} (nonneg : 0 ≤ y.toInt) : y.toNat = y.toInt.toNat := by
    have signed := @BitVec.toInt_eq_toNat_cond w y
    have bound := y.isLt
    grind
  refine ⟨BitVec.eq_of_toInt_eq ?_, BitVec.eq_of_toNat_eq ?_, unsigned nonneg⟩
  · rw [BitVec.toInt_smod, Int.fmod_eq_emod_of_nonneg _ (by omega)]
    exact Int.emod_eq_of_lt nonneg less
  · rw [BitVec.toNat_umod, unsigned nonneg, unsigned (by omega : 0 ≤ size.toInt)]
    exact Nat.mod_eq_of_lt (by omega)

theorem toInt_shifts {w : Nat} (x : BitVec w) {count size : BitVec w} {m : Int} (positive : 0 < m)
    (sized : size.toInt = m) (masked : count.toInt = n % m) :
    (x <<< count.smod size).toInt = (x.toInt * 2 ^ (n % m).toNat).bmod (2 ^ w) ∧
      (x.sshiftRight' (count.smod size)).toInt = x.toInt / 2 ^ (n % m).toNat ∧
      (x >>> (count % size)).toInt = (x.toInt % 2 ^ w / 2 ^ (n % m).toNat).bmod (2 ^ w) := by
  have nonneg := Int.emod_nonneg n positive.ne'
  have less := Int.emod_lt_of_pos n positive
  rw [← masked] at nonneg less ⊢
  obtain ⟨signed, unsigned, distance⟩ := count_eq count size nonneg (sized ▸ less)
  rw [signed, unsigned, BitVec.shiftLeft_eq', BitVec.sshiftRight_eq', BitVec.ushiftRight_eq', distance]
  generalize count.toInt.toNat = k
  refine ⟨?_, ?_, ?_⟩
  · rw [BitVec.toInt_shiftLeft, Nat.shiftLeft_eq, BitVec.toInt_eq_toNat_bmod, Int.bmod_mul_bmod]
    simp
  · rw [BitVec.toInt_sshiftRight, Int.shiftRight_eq_div_pow]
    simp
  · have unsigned : x.toInt % 2 ^ w = x.toNat := by
      have low := @Int.bmod_emod x.toNat (2 ^ w)
      rw [← BitVec.toInt_eq_toNat_bmod] at low
      push_cast at low
      rw [low]
      exact Int.emod_eq_of_lt (by simp) (by exact_mod_cast x.isLt)
    rw [BitVec.toInt_eq_toNat_bmod, BitVec.toNat_ushiftRight, Nat.shiftRight_eq_div_pow, unsigned]
    simp

/-- The bits a shift by a masked count gives at any width. -/
def shiftBits {w : Nat} (x count size : BitVec w) : BinaryOp → BitVec w
  | .shl => x <<< count.smod size
  | .shr => x.sshiftRight' (count.smod size)
  | _ => x >>> (count % size)

theorem toInt_shiftBits (wide : t = .int ∨ t = .long) (shift : op.isShift = true)
    {l : Int} (held : t.Holds l) {count size : BitVec t.bits} (sized : size.toInt = t.bits)
    (masked : count.toInt = n % t.bits) :
    (op.shiftBits (.ofInt t.bits l) count size).toInt = op.number t l n := by
  have positive : 0 < (t.bits : Int) := by rcases wide with rfl | rfl <;> decide
  obtain ⟨left, right, unsigned⟩ := toInt_shifts (.ofInt t.bits l) positive sized masked
  rw [BaseType.toInt_bits wide held] at left right unsigned
  cases op with
  | shl => exact left.trans (BaseType.wrap_eq wide _).symm
  | shr => exact right
  | ushr => exact unsigned.trans (BaseType.wrap_eq wide _).symm
  | _ => cases shift

end BinaryOp

namespace BaseType

theorem coerce?_promote (held : s.Holds n) (is : t = s.promote u ∨ t = u.promote s) :
    t.Holds n ∧ (s.literal n).coerce? (.ofBase t) = some (t.literal n) := by
  have wide : (t = .int ∨ t = .long) ∧ t.Holds n := by
    rcases is with rfl | rfl
    · exact ⟨promote_cases s u, (holds_promote held).1⟩
    · exact ⟨promote_cases u s, (holds_promote held).2⟩
  refine ⟨wide.2, ?_⟩
  rcases wide.1 with rfl | rfl
  · exact congrArg (Option.map Literal.int) (toInt?_literal s n)
  · exact congrArg (Option.map Literal.long) (toLong?_literal held)

theorem ofBase_promote {l r : Int} (left : s.Holds l) (right : u.Holds r) :
    (TypeCode.ofBase s).promote (.ofBase u) = some (.ofBase (s.promote u)) := by
  cases s <;> cases u <;> first | rfl | exact left.elim | exact right.elim

end BaseType

namespace Fold

variable {s u : BaseType} {l r : Int} {op : BinaryOp}

theorem numeric_arithmetic (left : s.Holds l) (right : u.Holds r)
    (arithmetic : op.isArithmetic = true) :
    (s.promote u).Gives (op.isDivision = true ∧ r = 0) (op.number (s.promote u) l r)
      (numeric op (.ofBase s) (.ofBase u) (s.literal l) (u.literal r)) := by
  obtain ⟨leftHeld, leftWide⟩ := BaseType.coerce?_promote left (u := u) (.inl rfl)
  obtain ⟨rightHeld, rightWide⟩ := BaseType.coerce?_promote right (u := s) (.inr rfl)
  have plain : op.isComparison = false := by cases op <;> first | rfl | cases arithmetic
  have wide := BaseType.promote_cases s u
  have value := BinaryOp.toInt_onBits wide arithmetic (.ofInt _ l) (.ofInt _ r)
  rw [BaseType.toInt_bits wide leftHeld, BaseType.toInt_bits wide rightHeld] at value
  have result : numeric op (.ofBase s) (.ofBase u) (s.literal l) (u.literal r) =
      if op.isDivision = true ∧ r = 0 then none
      else some ((s.promote u).ofBits (op.onBits (.ofInt _ l) (.ofInt _ r))) := by
    simp only [numeric, BaseType.ofBase_promote left right, leftWide, rightWide, plain,
      Option.bind_eq_bind, Option.bind_some]
    rcases wide with wide | wide <;> rw [wide] at rightHeld ⊢
    · refine (congrArg (Option.map Literal.int) ((BinaryOp.ops_eq arithmetic).1 _ _)).trans ?_
      simp only [BaseType.toInt_ofInt.1 rightHeld]
      exact apply_ite ..
    · refine (congrArg (Option.map Literal.long) ((BinaryOp.ops_eq arithmetic).2 _ _)).trans ?_
      simp only [BaseType.toInt_ofInt.2 rightHeld]
      exact apply_ite ..
  rw [result]
  exact .guarded (BaseType.ofBits_eq wide value)

theorem numeric_comparison (left : s.Holds l) (right : u.Holds r)
    (comparison : op.isComparison = true) :
    BaseType.boolean.Holds (op.number .boolean l r) ∧
      numeric op (.ofBase s) (.ofBase u) (s.literal l) (u.literal r) =
        some (BaseType.boolean.literal (op.number .boolean l r)) := by
  obtain ⟨leftHeld, leftWide⟩ := BaseType.coerce?_promote left (u := u) (.inl rfl)
  obtain ⟨rightHeld, rightWide⟩ := BaseType.coerce?_promote right (u := s) (.inr rfl)
  have tests : compare op ((s.promote u).literal l) ((s.promote u).literal r) =
      compareOp op (l == r) (l < r) (r < l) := by
    rcases BaseType.promote_cases s u with wide | wide <;> rw [wide] at leftHeld rightHeld ⊢
    · simp only [compare, BaseType.literal, Int32.lt_iff_toInt_lt, BaseType.toInt_ofInt.1 leftHeld,
        BaseType.toInt_ofInt.1 rightHeld]
      congr 1
      rw [Bool.eq_iff_iff]
      simp [← Int32.toInt_inj, BaseType.toInt_ofInt.1 leftHeld, BaseType.toInt_ofInt.1 rightHeld]
    · simp only [compare, BaseType.literal, Int64.lt_iff_toInt_lt, BaseType.toInt_ofInt.2 leftHeld,
        BaseType.toInt_ofInt.2 rightHeld]
      congr 1
      rw [Bool.eq_iff_iff]
      simp [← Int64.toInt_inj, BaseType.toInt_ofInt.2 leftHeld, BaseType.toInt_ofInt.2 rightHeld]
  simp only [numeric, BaseType.ofBase_promote left right, leftWide, rightWide, comparison, tests,
    Option.bind_eq_bind, Option.bind_some, if_true]
  have told (b : Bool) : ofBool b = BaseType.boolean.literal (if b then 1 else 0) := by
    cases b <;> rfl
  simp only [BaseType.Holds]
  cases op <;> simp only [BinaryOp.isComparison, Bool.false_eq_true] at comparison <;>
    simp only [compareOp, told, BinaryOp.number, Option.map_some] <;> grind

theorem numeric_logical (left : BaseType.boolean.Holds l) (right : BaseType.boolean.Holds r)
    (logical : op.isLogical = true) :
    BaseType.boolean.Holds (op.number .boolean l r) ∧
      numeric op .byte .byte (BaseType.boolean.literal l) (BaseType.boolean.literal r) =
        some (BaseType.boolean.literal (op.number .boolean l r)) := by
  rcases left with rfl | rfl <;> rcases right with rfl | rfl <;> cases op <;>
    first | exact ⟨.inl rfl, rfl⟩ | exact ⟨.inr rfl, rfl⟩ | cases logical

theorem shift_literal (left : s.Holds l) (shifting : op.isShift = true) :
    (s.promote .int).Holds (op.number (s.promote .int) l r) ∧
      shift op (.ofBase s) (s.literal l) (u.literal r) =
        some ((s.promote .int).literal (op.number (s.promote .int) l r)) := by
  obtain ⟨leftHeld, leftWide⟩ := BaseType.coerce?_promote left (u := .int) (.inl rfl)
  have code : (TypeCode.ofBase s).truncate = .ofBase (s.promote .int) := by
    cases s <;> first | rfl | exact left.elim
  have masked : op.number (s.promote .int) l (Int32.ofInt r).toInt =
      op.number (s.promote .int) l r := by
    have low : (Int32.ofInt r).toInt % 64 = r % 64 := by
      rw [Int32.toInt_ofInt]
      grind [Int.bmod]
    have count : (Int32.ofInt r).toInt % (s.promote .int).bits = r % (s.promote .int).bits := by
      rcases BaseType.promote_cases s .int with wide | wide <;> rw [wide] <;>
        simp only [BaseType.bits] <;> omega
    cases op <;> simp only [BinaryOp.isShift, Bool.false_eq_true] at shifting <;>
      simp only [BinaryOp.number, count]
  simp only [shift, BaseType.toInt?_literal, code, leftWide, Option.bind_eq_bind, Option.bind_some]
  rw [← masked]
  rcases BaseType.promote_cases s .int with wide | wide <;> rw [wide] at leftHeld ⊢
  · have made := BaseType.ofBits_eq (.inl rfl) (BinaryOp.toInt_shiftBits (.inl rfl) shifting leftHeld
      (show (32 : BitVec 32).toInt = 32 from rfl) (BinaryOp.toInt_and_mask (.ofInt r)).1)
    refine ⟨made.1, made.2 ▸ ?_⟩
    cases op <;> rfl
  · have made := BaseType.ofBits_eq (.inr rfl) (BinaryOp.toInt_shiftBits (.inr rfl) shifting leftHeld
      (show (64 : BitVec 64).toInt = 64 from rfl)
      ((Int32.toInt_toInt64 _).trans (BinaryOp.toInt_and_mask (.ofInt r)).2))
    refine ⟨made.1, made.2 ▸ ?_⟩
    cases op <;> rfl

end Fold

namespace UnaryOp

/-- What an operator gives on integers, if its result is of the given type. -/
def number (t : BaseType) (n : Int) : UnaryOp → Int
  | .neg => t.wrap (-n)
  | .compl => -n - 1
  | .not => if n = 0 then 1 else 0
  | _ => n

def isSign : UnaryOp → Bool
  | .plus | .neg | .compl => true
  | _ => false

def onBits {w : Nat} (x : BitVec w) : UnaryOp → BitVec w
  | .neg => -x
  | .compl => ~~~x
  | _ => x

theorem toInt_onBits {op : UnaryOp} (wide : t = .int ∨ t = .long) (sign : op.isSign = true)
    (held : t.Holds n) : (op.onBits (.ofInt t.bits n)).toInt = op.number t n := by
  have value := BaseType.toInt_bits wide held
  cases op with
  | plus => exact value
  | neg => rw [onBits, BitVec.toInt_neg, value, number, BaseType.wrap_eq wide]
  | compl =>
    have one : (1#t.bits).toInt = 1 := by rcases wide with rfl | rfl <;> rfl
    rw [onBits, BitVec.not_eq_neg_add, BitVec.toInt_sub, BitVec.toInt_neg, value, one,
      Int.bmod_sub_bmod, ← BaseType.wrap_eq wide]
    refine BaseType.wrap_of_holds ?_
    rcases wide with rfl | rfl <;> simp only [BaseType.Holds] at held ⊢ <;> omega
  | _ => cases sign

theorem unary_literal {op : UnaryOp} (held : s.Holds n) (sign : op.isSign = true) :
    (s.promote .int).Holds (op.number (s.promote .int) n) ∧ Fold.unary op (s.literal n) =
      some ((s.promote .int).literal (op.number (s.promote .int) n)) := by
  have same : s.literal n = (s.promote .int).literal n := by cases s <;> rfl
  have held := (BaseType.holds_promote (u := .int) held).1
  have wide := BaseType.promote_cases s .int
  have made := BaseType.ofBits_eq wide (toInt_onBits wide sign held)
  refine ⟨made.1, ?_⟩
  rw [same, ← made.2]
  rcases wide with wide | wide <;> rw [wide] <;> cases op <;> first | rfl | cases sign

end UnaryOp

namespace Expr

/-- The integer that a tree stands for, which the type of each node gives a size. -/
def value : Expr → Int
  | .mk type _ kind =>
    let t := match type with
      | some (.base t) => t
      | _ => .int
    match kind with
    | .literal (.int n) => n.toInt
    | .literal (.long n) => n.toInt
    | .unary op operand => op.number t operand.value
    | .binary op left right => op.number t left.value right.value
    | .cast inner => t.wrap inner.value
    | .conditional cond yes no => t.wrap (if cond.value = 0 then no.value else yes.value)
    | _ => 0

/-- A zero divisor occurs, other than in an arm of a conditional that is not taken. -/
def DividesByZero : Expr → Prop
  | .mk _ _ kind =>
    match kind with
    | .unary _ operand => operand.DividesByZero
    | .binary op left right =>
      left.DividesByZero ∨ right.DividesByZero ∨ op.isDivision = true ∧ right.value = 0
    | .cast inner => inner.DividesByZero
    | .conditional cond yes no =>
      cond.DividesByZero ∨ if cond.value = 0 then no.DividesByZero else yes.DividesByZero
    | _ => False

/-- Well-typed trees of whole numbers and booleans, in which no constants are noted down. The arms
of a conditional are cast to its type. -/
inductive Integral : BaseType → Expr → Prop
  | literal {t : BaseType} {n : Int} (held : t.Holds n) :
    Integral t (.mk (some (.base t)) none (.literal (t.literal n)))
  | sign {s : BaseType} {op : UnaryOp} {e : Expr} (sign : op.isSign = true)
    (integer : s.isInteger = true) (operand : Integral s e) :
    Integral (s.promote .int) (.mk (some (.base (s.promote .int))) none (.unary op e))
  | not {e : Expr} (operand : Integral .boolean e) :
    Integral .boolean (.mk (some (.base .boolean)) none (.unary .not e))
  | arithmetic {s u : BaseType} {op : BinaryOp} {l r : Expr} (arithmetic : op.isArithmetic = true)
    (integers : s.isInteger = true ∧ u.isInteger = true) (left : Integral s l)
    (right : Integral u r) :
    Integral (s.promote u) (.mk (some (.base (s.promote u))) none (.binary op l r))
  | shift {s u : BaseType} {op : BinaryOp} {l r : Expr} (shift : op.isShift = true)
    (integers : s.isInteger = true ∧ u.isInteger = true) (left : Integral s l)
    (right : Integral u r) :
    Integral (s.promote .int) (.mk (some (.base (s.promote .int))) none (.binary op l r))
  | comparison {s u : BaseType} {op : BinaryOp} {l r : Expr}
    (comparison : op.isComparison = true) (integers : s.isInteger = true ∧ u.isInteger = true)
    (left : Integral s l) (right : Integral u r) :
    Integral .boolean (.mk (some (.base .boolean)) none (.binary op l r))
  | logical {op : BinaryOp} {l r : Expr} (logical : op.isLogical = true)
    (left : Integral .boolean l) (right : Integral .boolean r) :
    Integral .boolean (.mk (some (.base .boolean)) none (.binary op l r))
  | cast {s t : BaseType} {e : Expr} (casts : s.Casts t) (operand : Integral s e) :
    Integral t (.mk (some (.base t)) none (.cast e))
  | conditional {s u t : BaseType} {c y n : Expr} (casts : s.Casts t ∧ u.Casts t)
    (cond : Integral .boolean c) (yes : Integral s y) (no : Integral u n) :
    Integral t (.mk (some (.base t)) none (.conditional c y n))

theorem Integral.type_eq (typed : Integral t e) : e.type = some (.base t) := by
  cases typed <;> rfl

theorem Integral.typeCode_eq (typed : Integral t e) : e.typeCode = .ofBase t := by
  rw [typeCode, typed.type_eq]
  rfl

section

variable {t : BaseType} {e l r : Expr}

theorem constantValue_unary (op : UnaryOp) :
    (mk (some (.base t)) none (.unary op e)).constantValue =
      (e.constantValue.bind (Fold.unary op)).bind (Fold.retype (some (.base t))) := by
  simp only [constantValue, Option.bind_eq_bind, Option.bind_assoc]

theorem constantValue_binary (op : BinaryOp) :
    (mk (some (.base t)) none (.binary op l r)).constantValue =
      (l.constantValue.bind fun lhs => r.constantValue.bind fun rhs =>
        if op.isShift then Fold.shift op l.typeCode lhs rhs
        else Fold.numeric op l.typeCode r.typeCode lhs rhs).bind
          (Fold.retype (some (.base t))) := by
  have plain : ¬(op = .add ∧ some (FieldType.base t) = some (.object .string)) := by
    simp [FieldType.object]
  cases shift : op.isShift <;>
    simp only [constantValue, if_neg plain, shift, Option.bind_eq_bind, Option.bind_assoc, if_true,
      Bool.false_eq_true, if_false]

end

/-- A node with two operands divides by zero if one of them does or if it does so itself. -/
theorem Integral.gives_binary {l r : Expr} {p : Prop}
    (leftGives : s.Gives l.DividesByZero l.value l.constantValue)
    (rightGives : u.Gives r.DividesByZero r.value r.constantValue)
    (division : op.isDivision = true ∧ r.value = 0 ↔ p)
    (computes : s.Holds l.value → u.Holds r.value → t.Gives p (op.number t l.value r.value) (if
      op.isShift then Fold.shift op l.typeCode (s.literal l.value) (u.literal r.value) else
      Fold.numeric op l.typeCode r.typeCode (s.literal l.value) (u.literal r.value))) :
    t.Gives (mk (some (.base t)) none (.binary op l r)).DividesByZero
      (mk (some (.base t)) none (.binary op l r)).value
      (mk (some (.base t)) none (.binary op l r)).constantValue := by
  rw [DividesByZero, constantValue_binary, division]
  exact .retype (leftGives.bind fun leftHeld => rightGives.bind fun rightHeld =>
    computes leftHeld rightHeld)

theorem Integral.gives (typed : Integral t e) :
    t.Gives e.DividesByZero e.value e.constantValue := by
  induction typed with
  | @literal t n held =>
    have number : (Expr.mk (some (.base t)) none (.literal (t.literal n))).value = n := by
      cases t with
      | float | double => exact held.elim
      | long => exact BaseType.toInt_ofInt.2 held
      | _ => exact BaseType.toInt_ofInt.1 (BaseType.holds_promote (u := .int) held).1
    rw [number, constantValue]
    exact .retype (.inr ⟨by simp [DividesByZero], held, rfl⟩)
  | @sign s op e sign integer operand ih =>
    rw [DividesByZero, constantValue_unary]
    exact .retype (ih.bind_some fun held => UnaryOp.unary_literal held sign)
  | @not e operand ih =>
    rw [DividesByZero, constantValue_unary]
    refine .retype (ih.bind_some fun held => ?_)
    change BaseType.boolean.Holds (if e.value = 0 then 1 else 0) ∧
      _ = some (BaseType.boolean.literal (if e.value = 0 then 1 else 0))
    rcases held with zero | one
    · rw [zero]
      exact ⟨.inr rfl, rfl⟩
    · rw [one]
      exact ⟨.inl rfl, rfl⟩
  | @arithmetic s u op l r arithmetic integers left right leftIh rightIh =>
    have plain : op.isShift = false := by cases op <;> first | rfl | cases arithmetic
    refine gives_binary leftIh rightIh Iff.rfl fun leftHeld rightHeld => ?_
    rw [left.typeCode_eq, right.typeCode_eq, plain]
    exact Fold.numeric_arithmetic leftHeld rightHeld arithmetic
  | @shift s u op l r shift integers left right leftIh rightIh =>
    have whole : op.isDivision = false := by cases op <;> first | rfl | cases shift
    refine gives_binary leftIh rightIh (p := False) (by simp [whole]) fun leftHeld _ => ?_
    rw [left.typeCode_eq, if_pos shift]
    exact .inr ⟨id, Fold.shift_literal leftHeld shift⟩
  | @comparison s u op l r comparison integers left right leftIh rightIh =>
    have whole : op.isDivision = false := by cases op <;> first | rfl | cases comparison
    have plain : op.isShift = false := by cases op <;> first | rfl | cases comparison
    refine gives_binary leftIh rightIh (p := False) (by simp [whole]) fun leftHeld rightHeld => ?_
    rw [left.typeCode_eq, right.typeCode_eq, plain]
    exact .inr ⟨id, Fold.numeric_comparison leftHeld rightHeld comparison⟩
  | @logical op l r logical left right leftIh rightIh =>
    have whole : op.isDivision = false := by cases op <;> first | rfl | cases logical
    have plain : op.isShift = false := by cases op <;> first | rfl | cases logical
    refine gives_binary leftIh rightIh (p := False) (by simp [whole]) fun leftHeld rightHeld => ?_
    rw [left.typeCode_eq, right.typeCode_eq, plain]
    exact .inr ⟨id, Fold.numeric_logical leftHeld rightHeld logical⟩
  | @cast s t e casts operand ih =>
    rw [DividesByZero, constantValue]
    exact ih.bind_some fun held => BaseType.coerce?_literal held casts
  | @conditional s u t c y n casts cond yes no condIh yesIh noIh =>
    have taken {s : BaseType} {e : Expr} (casts : s.Casts t)
        (gives : s.Gives e.DividesByZero e.value e.constantValue) :
        t.Gives e.DividesByZero (t.wrap e.value)
          (e.constantValue.bind (Fold.retype (some (.base t)))) :=
      gives.bind_some fun held => BaseType.coerce?_literal held casts
    rw [DividesByZero, value, constantValue]
    simp only [Option.bind_eq_bind]
    rcases condIh with ⟨fails, nothing⟩ | ⟨works, zero | one, known⟩
    · exact .inl ⟨.inl fails, by rw [nothing]; rfl⟩
    · rw [known, zero, or_iff_right works]
      exact taken casts.2 noIh
    · rw [known, one, or_iff_right works]
      exact taken casts.1 yesIh

end Expr

namespace Instruction

/-- What a conversion does to a constant: an `int` or `long` keeps its low bits. -/
def convertLiteral : NumKind → NumKind → Literal → Option Literal
  | .int, .long, .int n => some (.long (.ofInt n.toInt))
  | .int, .float, .int n => some (.float n.toFloat32.toBits)
  | .int, .double, .int n => some (.double n.toFloat.toBits)
  | .long, .int, .long n => some (.int (.ofInt n.toInt))
  | .long, .float, .long n => some (.float n.toFloat32.toBits)
  | .long, .double, .long n => some (.double n.toFloat.toBits)
  | _, _, _ => none

/-- Execution of a conversion on a constant on top of the stack. -/
def step : Literal → Instruction → Option Literal
  | value, .convert conversion => convertLiteral conversion.source conversion.target value
  | .int n, .narrow .byte => some (.int (.ofInt (BaseType.byte.wrap n.toInt)))
  | .int n, .narrow .char => some (.int (.ofInt (BaseType.char.wrap n.toInt)))
  | .int n, .narrow .short => some (.int (.ofInt (BaseType.short.wrap n.toInt)))
  | _, _ => none

end Instruction

/-- The constant is an `int` or `long` on the stack for values of the type code. -/
def Literal.IsOf (code : TypeCode) : Literal → Prop
  | .int _ => code.numKind? = some .int
  | .long _ => code.numKind? = some .long
  | _ => False

theorem coerce?_eq_conversions {value : Literal} {source : TypeCode} (is : value.IsOf source)
    (target : TypeCode) : value.coerce? target = target.numKind?.bind fun _ =>
      (Instruction.conversions source target).foldlM Instruction.step value := by
  have low (n : Int32) := by simpa only [Int32.ofInt_toInt] using BaseType.ofInt_narrow n.toInt
  cases value with
  | int n =>
    have kind : Instruction.conversions source target = Instruction.conversions .int target := by
      rw [Instruction.conversions, show source.numKind? = _ from is]
      rfl
    have widened : n.toInt64 = .ofInt n.toInt := Int64.toInt_inj.mp (by simp)
    rw [kind]
    cases target with
    | byte => exact congrArg (some ∘ Literal.int) (low n).1
    | char => exact congrArg (some ∘ Literal.int) (low n).2.1
    | short => exact congrArg (some ∘ Literal.int) (low n).2.2
    | long => exact congrArg (some ∘ Literal.long) widened
    | _ => rfl
  | long n =>
    have kind : Instruction.conversions source target = Instruction.conversions .long target := by
      rw [Instruction.conversions, show source.numKind? = _ from is]
      rfl
    have cut : n.toInt32 = .ofInt n.toInt := Int32.toInt_inj.mp (by simp)
    rw [kind]
    cases target with
    | int => exact congrArg (some ∘ Literal.int) cut
    | byte => exact congrArg (some ∘ Literal.int) ((low n.toInt32).1.trans (by rw [← cut]; rfl))
    | char => exact congrArg (some ∘ Literal.int) ((low n.toInt32).2.1.trans (by rw [← cut]; rfl))
    | short => exact congrArg (some ∘ Literal.int) ((low n.toInt32).2.2.trans (by rw [← cut]; rfl))
    | _ => rfl
  | _ => exact is.elim

/-- A tree of whole numbers and booleans folds to a constant exactly if it divides by zero nowhere
that is reached, and the constant is the value of the tree as one of its type. Casting a constant
does what the instructions for the cast do. -/
theorem integer_folding_exact :
    (∀ (t : BaseType) (e : Expr), Expr.Integral t e →
      ((∃ v, e.constantValue = some v) ↔ ¬e.DividesByZero) ∧
        ∀ v, e.constantValue = some v → t.Holds e.value ∧ v = t.literal e.value) ∧
      ∀ (value : Literal) (source target : TypeCode), value.IsOf source →
        value.coerce? target = target.numKind?.bind fun _ =>
          (Instruction.conversions source target).foldlM Instruction.step value := by
  refine ⟨fun t e typed => ?_, fun value source target is => coerce?_eq_conversions is target⟩
  rcases typed.gives with ⟨fails, nothing⟩ | ⟨works, held, known⟩
  · rw [nothing]
    exact ⟨⟨nofun, fun works => absurd fails works⟩, nofun⟩
  · rw [known]
    refine ⟨⟨fun _ => works, fun _ => ⟨_, rfl⟩⟩, fun v same => ⟨held, ?_⟩⟩
    exact (Option.some.inj same).symm

/-- `-1 << 33L` in a `byte`, cast to `char`, next to a division by zero that is not reached. -/
def Expr.shiftedChar : Expr :=
  let constant (t : BaseType) (n : Int) : Expr := .mk (some (.base t)) none (.literal (t.literal n))
  .mk (some (.base .int)) none (.conditional
    (.mk (some (.base .boolean)) none (.binary .lt (constant .int (-2 ^ 31)) (constant .long 1)))
    (.mk (some (.base .char)) none (.cast
      (.mk (some (.base .int)) none (.binary .shl (constant .byte (-1)) (constant .long 33)))))
    (.mk (some (.base .int)) none (.binary .div (constant .int 1) (constant .short 0))))

theorem integer_folding_exact_shiftedChar :
    Expr.Integral .int .shiftedChar ∧ Expr.shiftedChar.constantValue = some (.int 65534) ∧
      (Literal.long (-2)).coerce? .char = some (.int 65534) := by
  have typed : Expr.Integral .int .shiftedChar :=
    .conditional (s := .char) (u := .int) ⟨.inr ⟨rfl, rfl⟩, .inr ⟨rfl, rfl⟩⟩
      (.comparison (s := .int) (u := .long) rfl ⟨rfl, rfl⟩ (.literal (by decide))
        (.literal (by decide)))
      (.cast (s := .int) (.inr ⟨rfl, rfl⟩)
        (.shift (s := .byte) (u := .long) rfl ⟨rfl, rfl⟩ (.literal (by decide))
          (.literal (by decide))))
      (.arithmetic (s := .int) (u := .short) rfl ⟨rfl, rfl⟩ (.literal (by decide))
        (.literal (by decide)))
  obtain ⟨⟨_, folds⟩, value⟩ := integer_folding_exact.1 _ _ typed
  have works : ¬Expr.shiftedChar.DividesByZero := by
    simp [Expr.shiftedChar, Expr.DividesByZero, Expr.value, BinaryOp.number, BinaryOp.isDivision,
      BaseType.literal]
  obtain ⟨v, known⟩ := folds works
  refine ⟨typed, ?_, ?_⟩
  · rw [known, (value v known).2]
    rfl
  · exact (integer_folding_exact.2 (.long (-2)) .long .char rfl).trans rfl

end ClassForge
