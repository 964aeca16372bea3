import ClassForge.Pool
import ClassForge.TypeCode

namespace ClassForge

/-- Rearrangements of the top of the operand stack. -/
inductive StackOp where
  | pop | pop2 | dup | dupX1 | dupX2 | dup2 | dup2X1 | dup2X2 | swap
  deriving DecidableEq, Repr

inductive ArithmeticOp where
  | add | sub | mul | div | rem
  deriving DecidableEq, Repr

inductive ShiftOp where
  | left | arithmeticRight | logicalRight
  deriving DecidableEq, Repr

inductive BitOp where
  | and | or | xor
  deriving DecidableEq, Repr

structure Conversion where
  source : NumKind
  target : NumKind
  differ : source ≠ target := by decide
  deriving DecidableEq, Repr

/-- Integer types that `int` values are cut down to. -/
inductive NarrowKind where
  | byte | char | short
  deriving DecidableEq, Repr

/-- Outcome of a floating point comparison with a value that is no number. -/
inductive NanOrder where
  | less | greater
  deriving DecidableEq, Repr

inductive InvokeMode where
  | virtual | special | static | interface
  deriving DecidableEq, Repr

inductive IntegerWidth where
  | int | long
  deriving DecidableEq, Repr

inductive FloatWidth where
  | float | double
  deriving DecidableEq, Repr

-- Zeros are the literals, also where a ring would give others.
attribute [local instance (2000)] Zero.ofOfNat0

instance neZero_two : NeZero 2 := ⟨nofun⟩

instance neZero_three : NeZero 3 := ⟨nofun⟩

instance neZero_seven : NeZero 7 := ⟨nofun⟩

inductive Instruction where
  | nop
  | pushNull
  /-- Push an `int` from -1 to 5: the value is one less than the operand. -/
  | pushInt (operand : Fin 7)
  | pushLong (value : Fin 2)
  | pushFloat (value : Fin 3)
  | pushDouble (value : Fin 2)
  | pushByte (value : Int8)
  | pushShort (value : Int16)
  | pushConstant (constant : Loadable)
  | load (kind : Kind) (register : UInt16)
  | store (kind : Kind) (register : UInt16)
  | arrayLoad (element : ElementKind)
  | arrayStore (element : ElementKind)
  | stack (op : StackOp)
  | arithmetic (op : ArithmeticOp) (kind : NumKind)
  | negate (kind : NumKind)
  | shift (op : ShiftOp) (width : IntegerWidth)
  | bitwise (op : BitOp) (width : IntegerWidth)
  | increment (register : UInt16) (delta : Int16)
  | convert (conversion : Conversion)
  | narrow (target : NarrowKind)
  | compareLong
  | compareFloat (width : FloatWidth) (nan : NanOrder)
  | returnValue (kind : Kind)
  | returnVoid
  | throwValue
  /-- Return from a subroutine to the address in a register. -/
  | ret (register : UInt16)
  | getStatic (field : FieldRef)
  | putStatic (field : FieldRef)
  | getField (field : FieldRef)
  | putField (field : FieldRef)
  | invoke (mode : InvokeMode) (method : MethodRef)
  | allocate (name : BinaryName)
  | newArray (element : BaseType)
  | newRefArray (element : RefType)
  | newMultiArray (array : RefType) (dimensions : UInt8)
  | arrayLength
  | checkCast (type : RefType)
  | instanceOf (type : RefType)
  | monitorEnter
  | monitorExit
  deriving DecidableEq, Repr

def Conversion.between? (source target : NumKind) : Option Conversion :=
  if differ : source ≠ target then some ⟨source, target, differ⟩ else none

def TypeCode.narrowKind? : TypeCode → Option NarrowKind
  | .byte => some .byte
  | .char => some .char
  | .short => some .short
  | _ => none

namespace Instruction

def isTerminal : Instruction → Bool
  | .returnValue _ | .returnVoid | .throwValue | .ret _ => true
  | _ => false

def loadOf (code : TypeCode) (register : UInt16) : Instruction := .load code.kind register

def storeOf (code : TypeCode) (register : UInt16) : Instruction := .store code.kind register

def arrayLoadOf (code : TypeCode) : Instruction := .arrayLoad code.elementKind

def arrayStoreOf (code : TypeCode) : Instruction := .arrayStore code.elementKind

def returnOf (code : TypeCode) : Instruction :=
  if code = .void then .returnVoid else .returnValue code.kind

def popOf (width : Nat) : Instruction := .stack (if width = 2 then .pop2 else .pop)

def dupOf (width : Nat) : Instruction := .stack (if width = 2 then .dup2 else .dup)

def dupUnder (width under : Nat) : Instruction :=
  .stack (match width, under with
    | 2, 1 => .dup2X1
    | 2, 2 => .dup2X2
    | _, 2 => .dupX2
    | _, _ => .dupX1)

def conversions (source target : TypeCode) : List Instruction :=
  let convert := do
    let conversion ← Conversion.between? (← source.numKind?) (← target.numKind?)
    return Instruction.convert conversion
  convert.toList ++ (target.narrowKind?.map Instruction.narrow).toList

end Instruction

end ClassForge
