import ClassForge.Bytes

namespace ClassForge

namespace ModifiedUtf8

def units (c : Char) : List Nat :=
  if c.toNat < 0x10000 then [c.toNat]
  else
    let above := c.toNat - 0x10000
    [0xD800 + above / 0x400, 0xDC00 + above % 0x400]

def encodeUnit (unit : Nat) : Bytes :=
  if 0 < unit ∧ unit < 0x80 then [UInt8.ofNat unit]
  else if unit < 0x800 then [UInt8.ofNat (0xC0 + unit / 0x40), UInt8.ofNat (0x80 + unit % 0x40)]
  else [UInt8.ofNat (0xE0 + unit / 0x1000), UInt8.ofNat (0x80 + unit / 0x40 % 0x40),
    UInt8.ofNat (0x80 + unit % 0x40)]

def encode (text : String) : Bytes := text.toList.flatMap fun c => (units c).flatMap encodeUnit

def charLength (c : Char) : Nat :=
  if c.toNat = 0 then 2
  else if c.toNat < 0x80 then 1
  else if c.toNat < 0x800 then 2
  else if c.toNat < 0x10000 then 3
  else 6

def length (text : String) : Nat := text.foldl (fun total c => total + charLength c) 0

def decodeUnits (done : List Nat) : Bytes → Option (List Nat)
  | [] => some done.reverse
  | b :: rest =>
    let lead := b.toNat
    if lead = 0 then none
    else if lead < 0x80 then decodeUnits (lead :: done) rest
    else if lead < 0xC0 then none
    else if lead < 0xE0 then
      match rest with
      | b1 :: rest => decodeUnits ((lead % 0x20 * 0x40 + b1.toNat % 0x40) :: done) rest
      | [] => none
    else if lead < 0xF0 then
      match rest with
      | b1 :: b2 :: rest =>
        decodeUnits
          ((lead % 0x10 * 0x1000 + b1.toNat % 0x40 * 0x40 + b2.toNat % 0x40) :: done) rest
      | _ => none
    else none

def isHighSurrogate (unit : Nat) : Bool := 0xD800 ≤ unit && unit < 0xDC00

def isLowSurrogate (unit : Nat) : Bool := 0xDC00 ≤ unit && unit < 0xE000

def joinUnits (done : List Char) : List Nat → Option (List Char)
  | [] => some done.reverse
  | unit :: rest =>
    if isHighSurrogate unit then
      match rest with
      | low :: rest =>
        if isLowSurrogate low then
          joinUnits
            (Char.ofNat (0x10000 + (unit - 0xD800) * 0x400 + (low - 0xDC00)) :: done) rest
        else none
      | [] => none
    else if isLowSurrogate unit then none
    else joinUnits (Char.ofNat unit :: done) rest

def decode? (bytes : Bytes) : Option String := do
  let units ← decodeUnits [] bytes
  let chars ← joinUnits [] units
  return String.ofList chars

end ModifiedUtf8

end ClassForge
