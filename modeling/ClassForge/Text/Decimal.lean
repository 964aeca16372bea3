namespace ClassForge

-- Powers are the ones of `Nat`, also where a monoid would give others.
attribute [local instance (2000)] instPowNat

/-- The rational `num / den`, with a positive denominator. -/
structure Ratio where
  num : Nat
  den : Nat

namespace Ratio

def ofBinary (m : Nat) (e : Int) : Ratio :=
  if 0 ≤ e then ⟨m * 2 ^ e.toNat, 1⟩ else ⟨m, 2 ^ (-e).toNat⟩

def ofDecimal (m : Nat) (e : Int) : Ratio :=
  if 0 ≤ e then ⟨m * 10 ^ e.toNat, 1⟩ else ⟨m, 10 ^ (-e).toNat⟩

def le (a b : Ratio) : Bool := a.num * b.den ≤ b.num * a.den

def lt (a b : Ratio) : Bool := a.num * b.den < b.num * a.den

def dist (a b : Ratio) : Ratio :=
  let x := a.num * b.den
  let y := b.num * a.den
  ⟨if x ≤ y then y - x else x - y, a.den * b.den⟩

end Ratio

/-- A positive binary floating point number `m · 2 ^ e` with its neighbours' midpoints. -/
structure BinaryFloat where
  mantissa : Nat
  exponent : Int
  /-- The number below is only half as far away as the number above. -/
  narrowBelow : Bool

namespace BinaryFloat

/-- Fields of a floating point format: bits of the stored mantissa, and the exponent of the last
place of a subnormal number. -/
structure Format where
  mantissaBits : Nat
  leastExponent : Int

def Format.single : Format := ⟨23, -149⟩
def Format.double : Format := ⟨52, -1074⟩

def ofFields (format : Format) (biased fraction : Nat) : BinaryFloat :=
  if biased = 0 then ⟨fraction, format.leastExponent, false⟩
  else ⟨2 ^ format.mantissaBits + fraction, format.leastExponent + biased - 1,
    fraction = 0 && 1 < biased⟩

def value (x : BinaryFloat) : Ratio := .ofBinary x.mantissa x.exponent

def lower (x : BinaryFloat) : Ratio :=
  if x.narrowBelow then .ofBinary (4 * x.mantissa - 1) (x.exponent - 2)
  else .ofBinary (2 * x.mantissa - 1) (x.exponent - 1)

def upper (x : BinaryFloat) : Ratio := .ofBinary (2 * x.mantissa + 1) (x.exponent - 1)

def reads (x : BinaryFloat) (r : Ratio) : Bool :=
  if x.mantissa % 2 = 0 then x.lower.le r && r.le x.upper else x.lower.lt r && r.lt x.upper

end BinaryFloat

/-- A positive decimal `digits · 10 ^ exponent`. -/
structure Decimal where
  digits : Nat
  exponent : Int
  deriving DecidableEq, Repr

namespace Decimal

def digitCount (n : Nat) : Nat := (Nat.toDigits 10 n).length

def magnitude (r : Ratio) : Int :=
  let guess : Int := (digitCount r.num : Int) - digitCount r.den
  if (Ratio.ofDecimal 1 guess).le r then guess + 1 else guess

def floorOn (r : Ratio) (exponent : Int) : Nat :=
  if 0 ≤ exponent then r.num / (r.den * 10 ^ exponent.toNat)
  else r.num * 10 ^ (-exponent).toNat / r.den

/-- Which of two equally near decimals is taken. -/
inductive Tie where
  /-- The larger one. -/
  | away
  /-- The one whose last digit is even. -/
  | even
  deriving DecidableEq, Repr

def Tie.takesUpper (tie : Tie) (below : Nat) : Bool :=
  match tie with
  | .away => true
  | .even => below % 2 = 1

def withDigits? (tie : Tie) (x : BinaryFloat) (places : Nat) : Option Decimal :=
  let exponent := magnitude x.value - places
  let below := floorOn x.value exponent
  let fits (n : Nat) : Bool := 0 < n && x.reads (.ofDecimal n exponent)
  let far (n : Nat) : Ratio := (Ratio.ofDecimal n exponent).dist x.value
  match fits below, fits (below + 1) with
  | true, true =>
    let upper := (far (below + 1)).lt (far below) ||
      (tie.takesUpper below && (far (below + 1)).le (far below))
    some ⟨if upper then below + 1 else below, exponent⟩
  | true, false => some ⟨below, exponent⟩
  | false, true => some ⟨below + 1, exponent⟩
  | false, false => none

def trim (places : Nat) (d : Decimal) : Decimal :=
  match places with
  | 0 => d
  | n + 1 => if d.digits % 10 = 0 then trim n ⟨d.digits / 10, d.exponent + 1⟩ else d

def shortest (tie : Tie) (x : BinaryFloat) : Decimal :=
  match (List.range 17).findSome? fun n => withDigits? tie x (n + 1) with
  | some d => trim 17 d
  | none => ⟨x.mantissa, 0⟩

/-- Where positional writing ends, and which way ties go: a number `0.d1d2… · 10 ^ k` is written
positionally for `least < k ≤ most`. -/
structure Style where
  least : Int
  most : Int
  tie : Tie

def jsonStyle : Style := ⟨-5, 16, .even⟩

def listingStyle : Style := ⟨-4, 16, .away⟩

def zeros (n : Nat) : String := String.ofList (List.replicate n '0')

def render (style : Style) (d : Decimal) : String :=
  let text := toString d.digits
  let count := text.length
  let point := (count : Int) + d.exponent
  if style.least < point && point ≤ style.most then
    if 0 ≤ d.exponent then text ++ zeros d.exponent.toNat ++ ".0"
    else if 0 < point then
      String.ofList (text.toList.take point.toNat) ++ "." ++
        String.ofList (text.toList.drop point.toNat)
    else "0." ++ zeros (-point).toNat ++ text
  else
    let power := toString (point - 1)
    if count = 1 then s!"{text}e{power}"
    else
      String.ofList (text.toList.take 1) ++ "." ++ String.ofList (text.toList.drop 1) ++ "e" ++ power

end Decimal

def renderFields (style : Decimal.Style) (format : BinaryFloat.Format) (negative : Bool)
    (biased fraction : Nat) : String :=
  let sign := if negative then "-" else ""
  if biased = 0 && fraction = 0 then sign ++ "0.0"
  else sign ++ (Decimal.shortest style.tie (.ofFields format biased fraction)).render style

def renderDouble? (style : Decimal.Style) (bits : UInt64) : Option String :=
  let biased := (bits >>> 52).toNat % 2048
  if biased = 2047 then none
  else some (renderFields style .double (bits >>> 63 != 0) biased (bits.toNat % 2 ^ (52 : Nat)))

def renderSingle? (style : Decimal.Style) (bits : UInt32) : Option String :=
  let biased := (bits >>> 23).toNat % 256
  if biased = 255 then none
  else some (renderFields style .single (bits >>> 31 != 0) biased (bits.toNat % 2 ^ (23 : Nat)))

def renderNonFinite (negative nan : Bool) : String :=
  if nan then "NaN" else if negative then "-inf" else "inf"

def listDouble (bits : UInt64) : String :=
  (renderDouble? Decimal.listingStyle bits).getD
    (renderNonFinite (bits >>> 63 != 0) (bits.toNat % 2 ^ (52 : Nat) != 0))

def listSingle (bits : UInt32) : String :=
  (renderSingle? Decimal.listingStyle bits).getD
    (renderNonFinite (bits >>> 31 != 0) (bits.toNat % 2 ^ (23 : Nat) != 0))

end ClassForge
