import ClassForge.Json

namespace ClassForge

-- Powers are the ones of `Nat`, also where a monoid would give others.
attribute [local instance (2000)] instPowNat

/-- The parts of a numeral: digits before and after the point, and the exponent if one is
written. -/
structure Numeral where
  negative : Bool
  whole : List Nat
  fraction : Option (List Nat)
  exponent : Option (Bool × List Nat)

namespace Numeral

def digit? (c : Char) : Option Nat :=
  if '0' ≤ c && c ≤ '9' then some (c.toNat - '0'.toNat) else none

def takeDigits (cs : List Char) : List Nat × List Char :=
  ((cs.takeWhile Char.isDigit).filterMap digit?, cs.dropWhile Char.isDigit)

def parse? (cs : List Char) : Option Numeral := do
  let (negative, cs) := match cs with
    | '-' :: rest => (true, rest)
    | _ => (false, cs)
  let (whole, cs) := takeDigits cs
  guard (whole.length = 1 || (whole ≠ [] && whole.head? ≠ some 0))
  let (fraction, cs) ← match cs with
    | '.' :: rest =>
      match takeDigits rest with
      | ([], _) => none
      | (digits, rest) => some (some digits, rest)
    | _ => some (none, cs)
  match cs with
  | [] => return ⟨negative, whole, fraction, none⟩
  | c :: rest =>
    guard (c = 'e' || c = 'E')
    let (down, rest) := match rest with
      | '-' :: rest => (true, rest)
      | '+' :: rest => (false, rest)
      | _ => (false, rest)
    match takeDigits rest with
    | (digits@(_ :: _), []) => return ⟨negative, whole, fraction, some (down, digits)⟩
    | _ => none

def significandLimit : Nat := 2 ^ (64 : Nat) - 1

def exponentLimit : Nat := 2 ^ (31 : Nat) - 1

def addWhole (significand power : Nat) : List Nat → Nat × Nat
  | [] => (significand, power)
  | d :: rest =>
    if power = 0 && significand * 10 + d ≤ significandLimit then
      addWhole (significand * 10 + d) 0 rest
    else addWhole significand (power + 1) rest

def addFraction (significand places : Nat) : List Nat → Nat × Nat
  | [] => (significand, places)
  | d :: rest =>
    if significand * 10 + d ≤ significandLimit then
      addFraction (significand * 10 + d) (places + 1) rest
    else (significand, places)

def powerOfTen (n : Nat) : Float := Float.ofScientific 1 false n

def scaleDown (value : Float) (power : Nat) : Float :=
  if power ≤ 308 then value / powerOfTen power
  else if value == 0 then value
  else scaleDown (value / powerOfTen 308) (power - 308)
termination_by power

def scale? (value : Float) (power : Int) : Option Float :=
  if power < 0 then some (scaleDown value (-power).toNat)
  else if power ≤ 308 then
    let scaled := value * powerOfTen power.toNat
    if scaled.isInf then none else some scaled
  else if value == 0 then some value
  else none

def toFloat? (n : Numeral) : Option Float := do
  let (significand, raised) := addWhole 0 0 n.whole
  let (significand, places) := addFraction significand 0 (n.fraction.getD [])
  let value := (UInt64.ofNat significand).toFloat
  let power : Int := (raised : Int) - places
  let magnitude ← match n.exponent with
    | none => scale? value power
    | some (down, digits) =>
      let written : Nat := digits.foldl (fun e d => e * 10 + d) 0
      if exponentLimit < written then
        if significand = 0 || down then some 0 else none
      else scale? value (if down then power - (written : Int) else power + (written : Int))
  return if n.negative then -magnitude else magnitude

def number? (n : Numeral) : Option JsonNumber :=
  let value : Nat := n.whole.foldl (fun v d => v * 10 + d) 0
  match n.fraction, n.exponent with
  | none, none =>
    if n.negative then
      if 0 < value && value ≤ 2 ^ (63 : Nat) then some (.integer (-value))
      else n.toFloat?.map .fraction
    else if value ≤ significandLimit then some (.integer value)
    else n.toFloat?.map .fraction
  | _, _ => n.toFloat?.map .fraction

end Numeral

end ClassForge
