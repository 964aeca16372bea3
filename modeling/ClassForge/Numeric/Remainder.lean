import ClassForge.Text.Decimal

namespace ClassForge

-- Powers are the ones of `Nat`, also where a monoid would give others.
attribute [local instance (2000)] instPowNat

namespace DoubleBits

def exponentMask : UInt64 := 0x7FF
def fractionMask : UInt64 := 0xFFFFFFFFFFFFF
def signMask : UInt64 := 0x8000000000000000

def biased (bits : UInt64) : UInt64 := (bits >>> 52) &&& exponentMask

def fraction (bits : UInt64) : UInt64 := bits &&& fractionMask

def sign (bits : UInt64) : UInt64 := bits &&& signMask

def isNan (bits : UInt64) : Bool := biased bits == exponentMask && fraction bits != 0

def isInfinite (bits : UInt64) : Bool := biased bits == exponentMask && fraction bits == 0

def isZero (bits : UInt64) : Bool := biased bits == 0 && fraction bits == 0

def nan : UInt64 := 0x7FF8000000000000

def units (bits : UInt64) : Nat :=
  let fraction := (fraction bits).toNat
  match (biased bits).toNat with
  | 0 => fraction
  | biased + 1 => (2 ^ (52 : Nat) + fraction) <<< biased

def ofUnits (n : Nat) : UInt64 :=
  if n < 2 ^ (53 : Nat) then UInt64.ofNat n
  else
    let shift := n.log2 - 52
    UInt64.ofNat (n >>> shift + shift <<< 52)

def remainder (a b : UInt64) : UInt64 :=
  if isNan a || isNan b || isInfinite a || isZero b then nan
  else if isInfinite b || isZero a then a
  else sign a ||| ofUnits (units a % units b)

end DoubleBits

end ClassForge
