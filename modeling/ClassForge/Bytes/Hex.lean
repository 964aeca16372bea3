import ClassForge.Bytes
import ClassForge.Json

namespace ClassForge

namespace Hex

def digit? (c : Char) : Option Nat :=
  if '0' ≤ c ∧ c ≤ '9' then some (c.toNat - '0'.toNat)
  else if 'a' ≤ c ∧ c ≤ 'f' then some (c.toNat - 'a'.toNat + 10)
  else if 'A' ≤ c ∧ c ≤ 'F' then some (c.toNat - 'A'.toNat + 10)
  else none

def push (out : String) (byte : UInt8) : String :=
  (out.push (Nat.digitChar (byte.toNat / 16))).push (Nat.digitChar (byte.toNat % 16))

def ofBytes (bytes : Bytes) : String := bytes.foldl push ""

def bytesOnto (done : Bytes) : List Char → Option Bytes
  | high :: low :: rest => do
    bytesOnto (UInt8.ofNat ((← digit? high) * 16 + (← digit? low)) :: done) rest
  | [] => some done.reverse
  | [_] => none

def toBytes? (text : String) : Option Bytes := bytesOnto [] text.toList

def toNat? (text : String) : Option Nat := do
  return (← text.toList.mapM digit?).foldl (fun n d => n * 16 + d) 0

end Hex

namespace Bytes

def hash64 (bytes : Bytes) : UInt64 :=
  bytes.foldl (fun hash byte => (hash ^^^ byte.toUInt64) * 0x100000001b3) 0xcbf29ce484222325

def maxShown : Nat := 4096

def toJson (bytes : Bytes) : Json :=
  if bytes.length ≤ maxShown then .string (Hex.ofBytes bytes)
  else .object [
    ("fnv1a64", .string (Hex.ofBytes (ofWord64 bytes.hash64))),
    ("len", .nat bytes.length)]

end Bytes

namespace Json

def ofBits32 (bits : UInt32) : Json := .string (Hex.ofBytes (Bytes.ofWord32 bits))

def ofBits64 (bits : UInt64) : Json := .string (Hex.ofBytes (Bytes.ofWord64 bits))

def asBits32? (j : Json) : Option UInt32 := do return UInt32.ofNat (← Hex.toNat? (← j.asString?))

def asBits64? (j : Json) : Option UInt64 := do return UInt64.ofNat (← Hex.toNat? (← j.asString?))

def ofWord (n : UInt16) : Json := nat n.toNat

def elements : Json → List Json
  | .array items => items
  | _ => []

def at? (j : Json) (i : Nat) : Option Json := j.elements[i]?

end Json

end ClassForge
