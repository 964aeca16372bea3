import ClassForge.Instruction

namespace ClassForge

namespace Opcode

def wide : UInt8 := 0xC4
def goto : UInt8 := 0xA7
def jsr : UInt8 := 0xA8
def gotoWide : UInt8 := 0xC8
def jsrWide : UInt8 := 0xC9
def tableSwitch : UInt8 := 0xAA
def lookupSwitch : UInt8 := 0xAB

def family (first : UInt8) (position : Nat) : UInt8 := first + UInt8.ofNat position

end Opcode

namespace StackOp

def opcode : StackOp → UInt8
  | .pop => 0x57
  | .pop2 => 0x58
  | .dup => 0x59
  | .dupX1 => 0x5A
  | .dupX2 => 0x5B
  | .dup2 => 0x5C
  | .dup2X1 => 0x5D
  | .dup2X2 => 0x5E
  | .swap => 0x5F

end StackOp

def IntegerWidth.index : IntegerWidth → Nat
  | .int => 0
  | .long => 1

def ArithmeticOp.firstOpcode : ArithmeticOp → UInt8
  | .add => 0x60
  | .sub => 0x64
  | .mul => 0x68
  | .div => 0x6C
  | .rem => 0x70

def ShiftOp.firstOpcode : ShiftOp → UInt8
  | .left => 0x78
  | .arithmeticRight => 0x7A
  | .logicalRight => 0x7C

def BitOp.firstOpcode : BitOp → UInt8
  | .and => 0x7E
  | .or => 0x80
  | .xor => 0x82

def Conversion.opcode (conversion : Conversion) : UInt8 :=
  let source := conversion.source.index
  let target := conversion.target.index
  Opcode.family 0x85 (3 * source + (if target < source then target else target - 1))

def NarrowKind.opcode : NarrowKind → UInt8
  | .byte => 0x91
  | .char => 0x92
  | .short => 0x93

def FloatWidth.compareOpcode : FloatWidth → NanOrder → UInt8
  | .float, .less => 0x95
  | .float, .greater => 0x96
  | .double, .less => 0x97
  | .double, .greater => 0x98

def InvokeMode.opcode : InvokeMode → UInt8
  | .virtual => 0xB6
  | .special => 0xB7
  | .static => 0xB8
  | .interface => 0xB9

namespace Instruction

def encodeLocal (short normal : UInt8) (kind : Kind) (register : UInt16) : Bytes :=
  if register ≤ 3 then [Opcode.family short (4 * kind.index) + register.toUInt8]
  else if register ≤ 255 then [Opcode.family normal kind.index, register.toUInt8]
  else Opcode.wide :: Opcode.family normal kind.index :: Bytes.ofWord16 register

def encodeIncrement (register : UInt16) (delta : Int16) : Bytes :=
  if register ≤ 255 ∧ -128 ≤ delta ∧ delta ≤ 127 then
    [0x84, register.toUInt8, delta.toInt8.toUInt8]
  else
    Opcode.wide :: 0x84 :: Bytes.ofWord16 register ++ Bytes.ofWord16 delta.toUInt16

def encodeRet (register : UInt16) : Bytes :=
  if register ≤ 255 then [0xA9, register.toUInt8]
  else Opcode.wide :: 0xA9 :: Bytes.ofWord16 register

def encodeConstant (constant : Loadable) (index : UInt16) : Bytes :=
  if constant.isWide then 0x14 :: Bytes.ofWord16 index
  else if index ≤ 255 then [0x12, index.toUInt8]
  else 0x13 :: Bytes.ofWord16 index

def withIndex (opcode : UInt8) (index : PoolM UInt16) : PoolM Bytes := do
  return opcode :: Bytes.ofWord16 (← index)

def encode : Instruction → PoolM Bytes
  | .nop => pure [0x00]
  | .pushNull => pure [0x01]
  | .pushInt operand => pure [Opcode.family 0x02 operand]
  | .pushLong value => pure [Opcode.family 0x09 value]
  | .pushFloat value => pure [Opcode.family 0x0B value]
  | .pushDouble value => pure [Opcode.family 0x0E value]
  | .pushByte value => pure [0x10, value.toUInt8]
  | .pushShort value => pure (0x11 :: Bytes.ofWord16 value.toUInt16)
  | .pushConstant constant => return encodeConstant constant (← Pool.put constant.value)
  | .load kind register => pure (encodeLocal 0x1A 0x15 kind register)
  | .store kind register => pure (encodeLocal 0x3B 0x36 kind register)
  | .arrayLoad element => pure [Opcode.family 0x2E element.index]
  | .arrayStore element => pure [Opcode.family 0x4F element.index]
  | .stack op => pure [op.opcode]
  | .arithmetic op kind => pure [Opcode.family op.firstOpcode kind.index]
  | .negate kind => pure [Opcode.family 0x74 kind.index]
  | .shift op width => pure [Opcode.family op.firstOpcode width.index]
  | .bitwise op width => pure [Opcode.family op.firstOpcode width.index]
  | .increment register delta => pure (encodeIncrement register delta)
  | .convert conversion => pure [conversion.opcode]
  | .narrow target => pure [target.opcode]
  | .compareLong => pure [0x94]
  | .compareFloat width nan => pure [width.compareOpcode nan]
  | .returnValue kind => pure [Opcode.family 0xAC kind.index]
  | .returnVoid => pure [0xB1]
  | .throwValue => pure [0xBF]
  | .ret register => pure (encodeRet register)
  | .getStatic field => withIndex 0xB2 (Pool.fieldRef field)
  | .putStatic field => withIndex 0xB3 (Pool.fieldRef field)
  | .getField field => withIndex 0xB4 (Pool.fieldRef field)
  | .putField field => withIndex 0xB5 (Pool.fieldRef field)
  | .invoke mode method => do
    let bytes ← withIndex mode.opcode (Pool.methodRef method)
    if mode = .interface then
      return bytes ++ [UInt8.ofNat (method.descriptor.parameterSlots + 1), 0]
    else return bytes
  | .allocate name => withIndex 0xBB (Pool.classRef (.object name))
  | .newArray element => pure [0xBC, element.arrayCode]
  | .newRefArray element => withIndex 0xBD (Pool.classRef element)
  | .newMultiArray array dimensions => do
    return (← withIndex 0xC5 (Pool.classRef array)) ++ [dimensions]
  | .arrayLength => pure [0xBE]
  | .checkCast type => withIndex 0xC0 (Pool.classRef type)
  | .instanceOf type => withIndex 0xC1 (Pool.classRef type)
  | .monitorEnter => pure [0xC2]
  | .monitorExit => pure [0xC3]

end Instruction

end ClassForge
