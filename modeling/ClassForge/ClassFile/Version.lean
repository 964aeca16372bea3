import ClassForge.Bytes

namespace ClassForge

structure Version where
  major : UInt16
  minor : UInt16
  deriving DecidableEq, Repr

namespace Version

def atLeast (version other : Version) : Bool :=
  other.major < version.major || other.major == version.major && other.minor ≤ version.minor

def java5 : Version := ⟨49, 0⟩

def java6 : Version := ⟨50, 0⟩

def java7 : Version := ⟨51, 0⟩

def java8 : Version := ⟨52, 0⟩

def java11 : Version := ⟨55, 0⟩

def parseNumber? (chars : List Char) : Option Nat :=
  let digits := match chars with
    | '+' :: rest => rest
    | other => other
  if digits.isEmpty || digits.any (!·.isDigit) then none
  else
    let n := digits.foldl (fun n c => n * 10 + (c.toNat - '0'.toNat)) 0
    if n < 0x10000 then some n else none

def ofRelease? (release : String) : Option Version :=
  let chars := match release.toList with
    | '1' :: '.' :: rest => rest
    | other => other
  match parseNumber? chars with
  | some 1 => some ⟨45, 3⟩
  | some n => if 2 ≤ n ∧ n ≤ 30 then some ⟨UInt16.ofNat (44 + n), 0⟩ else none
  | none => none

def encode (version : Version) : Bytes :=
  Bytes.ofWord16 version.minor ++ Bytes.ofWord16 version.major

def decode : Decoder Version := do
  let minor ← Decoder.word16
  let major ← Decoder.word16
  return ⟨major, minor⟩

end Version

end ClassForge
