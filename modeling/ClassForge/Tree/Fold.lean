import ClassForge.Numeric.Remainder
import ClassForge.Tree

namespace ClassForge

namespace Literal

def toInt? : Literal → Option Int32
  | .int value => some value
  | .long value => some value.toInt32
  | .float bits => some (Float32.ofBits bits).toInt32
  | .double bits => some (Float.ofBits bits).toInt32
  | .string _ => none

def toLong? : Literal → Option Int64
  | .int value => some value.toInt64
  | .long value => some value
  | .float bits => some (Float32.ofBits bits).toInt64
  | .double bits => some (Float.ofBits bits).toInt64
  | .string _ => none

def toFloatBits? : Literal → Option UInt32
  | .int value => some value.toFloat32.toBits
  | .long value => some value.toFloat32.toBits
  | .float bits => some bits
  | .double bits => some (Float.ofBits bits).toFloat32.toBits
  | .string _ => none

def toDoubleBits? : Literal → Option UInt64
  | .int value => some value.toFloat.toBits
  | .long value => some value.toFloat.toBits
  | .float bits => some (Float32.ofBits bits).toFloat.toBits
  | .double bits => some bits
  | .string _ => none

def coerce? (value : Literal) : TypeCode → Option Literal
  | .int => value.toInt?.map .int
  | .byte => value.toInt?.map fun i => .int i.toInt8.toInt32
  | .char => value.toInt?.map fun i => .int (i.toUInt32 &&& 0xFFFF).toInt32
  | .short => value.toInt?.map fun i => .int i.toInt16.toInt32
  | .long => value.toLong?.map .long
  | .float => value.toFloatBits?.map .float
  | .double => value.toDoubleBits?.map .double
  | .object =>
    match value with
    | .string text => some (.string text)
    | _ => none
  | .void => none

end Literal

def TypeCode.promote (left right : TypeCode) : Option TypeCode := do
  let left ← left.numKind?
  let right ← right.numKind?
  return if left = .double ∨ right = .double then .double
    else if left = .float ∨ right = .float then .float
    else if left = .long ∨ right = .long then .long
    else .int

namespace Fold

def shiftInt (op : BinaryOp) (value shift : Int32) : Int32 :=
  let shift := shift &&& 31
  match op with
  | .shl => value <<< shift
  | .shr => value >>> shift
  | _ => (value.toUInt32 >>> shift.toUInt32).toInt32

def shiftLong (op : BinaryOp) (value : Int64) (shift : Int32) : Int64 :=
  let shift := (shift &&& 63).toInt64
  match op with
  | .shl => value <<< shift
  | .shr => value >>> shift
  | _ => (value.toUInt64 >>> shift.toUInt64).toInt64

def intOp (op : BinaryOp) (l r : Int32) : Option Int32 :=
  match op with
  | .add => some (l + r)
  | .sub => some (l - r)
  | .mul => some (l * r)
  | .div => if r = 0 then none else some (l / r)
  | .rem => if r = 0 then none else some (l % r)
  | .and | .condAnd => some (l &&& r)
  | .or | .condOr => some (l ||| r)
  | .xor => some (l ^^^ r)
  | _ => none

def longOp (op : BinaryOp) (l r : Int64) : Option Int64 :=
  match op with
  | .add => some (l + r)
  | .sub => some (l - r)
  | .mul => some (l * r)
  | .div => if r = 0 then none else some (l / r)
  | .rem => if r = 0 then none else some (l % r)
  | .and => some (l &&& r)
  | .or => some (l ||| r)
  | .xor => some (l ^^^ r)
  | _ => none

def floatOp (op : BinaryOp) (l r : Float) : Option Float :=
  match op with
  | .add => some (l + r)
  | .sub => some (l - r)
  | .mul => some (l * r)
  | .div => some (l / r)
  | .rem => some (Float.ofBits (DoubleBits.remainder l.toBits r.toBits))
  | _ => none

def compareOp (op : BinaryOp) (eq lt gt : Bool) : Option Bool :=
  match op with
  | .eq => some eq
  | .ne => some !eq
  | .lt => some lt
  | .le => some (lt || eq)
  | .gt => some gt
  | .ge => some (gt || eq)
  | _ => none

def compare (op : BinaryOp) : Literal → Literal → Option Bool
  | .int l, .int r => compareOp op (l == r) (l < r) (r < l)
  | .long l, .long r => compareOp op (l == r) (l < r) (r < l)
  | .float l, .float r =>
    let l := Float32.ofBits l
    let r := Float32.ofBits r
    compareOp op (l == r) (l < r) (r < l)
  | .double l, .double r =>
    let l := Float.ofBits l
    let r := Float.ofBits r
    compareOp op (l == r) (l < r) (r < l)
  | _, _ => none

def ofBool (b : Bool) : Literal := .int (if b then 1 else 0)

def unary (op : UnaryOp) (value : Literal) : Option Literal :=
  match op, value with
  | .plus, value => some value
  | .neg, .int i => some (.int (-i))
  | .neg, .long l => some (.long (-l))
  | .neg, .float bits => some (.float (bits ^^^ 0x80000000))
  | .neg, .double bits => some (.double (bits ^^^ DoubleBits.signMask))
  | .compl, .int i => some (.int (~~~i))
  | .compl, .long l => some (.long (~~~l))
  | .not, .int b => some (ofBool (b == 0))
  | _, _ => none

def operandText (type : Option FieldType) (value : Literal) : Option String :=
  match type, value with
  | _, .string text => some text
  | some (.base .boolean), .int b => some (if b = 0 then "false" else "true")
  | some (.base .char), .int c =>
    let unit := (c.toUInt32 &&& 0xFFFF).toNat
    if 0xD800 ≤ unit ∧ unit < 0xE000 then none else some (String.singleton (Char.ofNat unit))
  | _, .int i => some (toString i.toInt)
  | _, .long l => some (toString l.toInt)
  | _, .float _ | _, .double _ => none

def shift (op : BinaryOp) (code : TypeCode) (lhs rhs : Literal) : Option Literal := do
  let count ← rhs.toInt?
  match ← lhs.coerce? code.truncate with
  | .int value => return .int (shiftInt op value count)
  | .long value => return .long (shiftLong op value count)
  | _ => none

def numeric (op : BinaryOp) (leftCode rightCode : TypeCode) (lhs rhs : Literal) :
    Option Literal := do
  let code ← leftCode.promote rightCode
  let lhs ← lhs.coerce? code
  let rhs ← rhs.coerce? code
  if op.isComparison then (compare op lhs rhs).map ofBool
  else
    match lhs, rhs with
    | .int l, .int r => (intOp op l r).map .int
    | .long l, .long r => (longOp op l r).map .long
    | .float l, .float r =>
      (floatOp op (Float32.ofBits l).toFloat (Float32.ofBits r).toFloat).map fun x =>
        .float x.toFloat32.toBits
    | .double l, .double r =>
      (floatOp op (Float.ofBits l) (Float.ofBits r)).map fun x => .double x.toBits
    | _, _ => none

def retype (type : Option FieldType) (value : Literal) : Option Literal :=
  match type with
  | none => some value
  | some type => value.coerce? (.ofType type)

end Fold

namespace Expr

def constantValue : Expr → Option Literal
  | .mk type (some value) _ => Fold.retype type value
  | .mk type none kind => do
    let value ← match kind with
      | .literal value => some value
      | .unary op operand => do Fold.unary op (← operand.constantValue)
      | .binary op left right =>
        if op = .add ∧ type = some (.object .string) then do
          let l ← Fold.operandText left.type (← left.constantValue)
          let r ← Fold.operandText right.type (← right.constantValue)
          return .string (l ++ r)
        else do
          let lhs ← left.constantValue
          let rhs ← right.constantValue
          if op.isShift then Fold.shift op left.typeCode lhs rhs
          else Fold.numeric op left.typeCode right.typeCode lhs rhs
      | .cast inner => inner.constantValue
      | .conditional cond yes no => do
        match ← cond.constantValue with
        | .int 0 => no.constantValue
        | .int _ => yes.constantValue
        | _ => none
      | _ => none
    Fold.retype type value

end Expr

end ClassForge
