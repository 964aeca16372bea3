import ClassForge.Instruction.Encoding

namespace ClassForge

inductive Comparison where
  | eq | ne | lt | ge | gt | le
  deriving DecidableEq, Repr

inductive Equality where
  | eq | ne
  deriving DecidableEq, Repr

/-- Jumps by their condition; `never` is the negation of `goto` and has no instruction. -/
inductive Jump where
  | ifZero (op : Comparison)
  | ifInts (op : Comparison)
  | ifRefs (op : Equality)
  | ifNull (op : Equality)
  | goto
  | never
  deriving DecidableEq, Repr

namespace Comparison

def negate : Comparison → Comparison
  | .eq => .ne
  | .ne => .eq
  | .lt => .ge
  | .ge => .lt
  | .gt => .le
  | .le => .gt

def index : Comparison → Nat
  | .eq => 0
  | .ne => 1
  | .lt => 2
  | .ge => 3
  | .gt => 4
  | .le => 5

def describe : Comparison → String
  | .eq => "EQ"
  | .ne => "NE"
  | .lt => "LT"
  | .ge => "GE"
  | .gt => "GT"
  | .le => "LE"

end Comparison

namespace Equality

def negate : Equality → Equality
  | .eq => .ne
  | .ne => .eq

def index : Equality → Nat
  | .eq => 0
  | .ne => 1

def describe : Equality → String
  | .eq => "EQ"
  | .ne => "NE"

end Equality

namespace Jump

def negate : Jump → Jump
  | .ifZero op => .ifZero op.negate
  | .ifInts op => .ifInts op.negate
  | .ifRefs op => .ifRefs op.negate
  | .ifNull op => .ifNull op.negate
  | .goto => .never
  | .never => .goto

def opcode? : Jump → Option UInt8
  | .ifZero op => some (Opcode.family 0x99 op.index)
  | .ifInts op => some (Opcode.family 0x9F op.index)
  | .ifRefs op => some (Opcode.family 0xA5 op.index)
  | .ifNull op => some (Opcode.family 0xC6 op.index)
  | .goto => some Opcode.goto
  | .never => none

def pops : Jump → Nat
  | .ifZero _ | .ifNull _ => 1
  | .ifInts _ | .ifRefs _ => 2
  | .goto | .never => 0

def describe : Jump → String
  | .ifZero op => s!"If({op.describe})"
  | .ifInts op => s!"IfICmp({op.describe})"
  | .ifRefs op => s!"IfACmp({op.describe})"
  | .ifNull op => s!"IfNull({op.describe})"
  | .goto => "Goto"
  | .never => "Never"

end Jump

namespace Opcode

def isJump (opcode : UInt8) : Bool :=
  0x99 ≤ opcode && opcode ≤ 0xA8 || 0xC6 ≤ opcode && opcode ≤ 0xC9

def negate? (opcode : UInt8) : Option UInt8 :=
  if 0x99 ≤ opcode ∧ opcode ≤ 0xA6 then
    some (if (opcode - 0x99) % 2 = 0 then opcode + 1 else opcode - 1)
  else if opcode = 0xC6 then some 0xC7
  else if opcode = 0xC7 then some 0xC6
  else none

end Opcode

end ClassForge
