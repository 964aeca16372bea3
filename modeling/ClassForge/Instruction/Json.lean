import ClassForge.Bytes.Hex
import ClassForge.Instruction
import ClassForge.Tree.Read

namespace ClassForge

namespace TypeCode

def ofJson? (j : Json) : Option TypeCode := do
  let text ← j.asString?
  [int, long, float, double, object, byte, char, short, void].find? (·.describe == text)

end TypeCode

namespace NumKind

def ofLetter? : Char → Option NumKind
  | 'I' => some .int
  | 'L' => some .long
  | 'F' => some .float
  | 'D' => some .double
  | _ => none

end NumKind

namespace Kind

def ofLetter? (c : Char) : Option Kind :=
  if c = 'A' then some .ref else (NumKind.ofLetter? c).map .num

end Kind

namespace ElementKind

def ofLetter? : Char → Option ElementKind
  | 'A' => some .ref
  | 'B' => some .byte
  | 'C' => some .char
  | 'S' => some .short
  | c => (NumKind.ofLetter? c).map .num

end ElementKind

namespace IntegerWidth

def ofLetter? : Char → Option IntegerWidth
  | 'I' => some .int
  | 'L' => some .long
  | _ => none

end IntegerWidth

namespace Loadable

def ofJson? (j : Json) : Option Loadable := do
  let (key, value) ← j.single?
  let value := value.val
  match key with
  | "integer" => value.asInt32?.map .integer
  | "long" => value.asInt64?.map .long
  | "float" => value.asBits32?.map .float
  | "double" => value.asBits64?.map .double
  | "string" => value.asString?.map .string
  | "class" => (RefType.ofJson? value).map .classRef
  | _ => none

end Loadable

namespace ShiftOp

def ofJson? (j : Json) : Option ShiftOp :=
  match j.asString? with
  | some "left" => some .left
  | some "logical" => some .logicalRight
  | some "arithmetic" => some .arithmeticRight
  | _ => none

end ShiftOp

namespace NanOrder

def ofJson? (j : Json) : Option NanOrder :=
  match j.asString? with
  | some "L" => some .less
  | some "G" => some .greater
  | _ => none

end NanOrder

namespace InvokeMode

def ofJson? (j : Json) : Option InvokeMode :=
  match j.asString? with
  | some "virtual" => some .virtual
  | some "special" => some .special
  | some "static" => some .static
  | some "interface" => some .interface
  | _ => none

end InvokeMode

namespace Instruction

def single? : String → Option Instruction
  | "Nop" => some .nop
  | "AConstNull" => some .pushNull
  | "IConstM1" => some (.pushInt 0)
  | "IConst0" => some (.pushInt 1)
  | "IConst1" => some (.pushInt 2)
  | "IConst2" => some (.pushInt 3)
  | "IConst3" => some (.pushInt 4)
  | "IConst4" => some (.pushInt 5)
  | "IConst5" => some (.pushInt 6)
  | "LConst0" => some (.pushLong 0)
  | "LConst1" => some (.pushLong 1)
  | "FConst0" => some (.pushFloat 0)
  | "FConst1" => some (.pushFloat 1)
  | "FConst2" => some (.pushFloat 2)
  | "DConst0" => some (.pushDouble 0)
  | "DConst1" => some (.pushDouble 1)
  | "Pop" => some (.stack .pop)
  | "Pop2" => some (.stack .pop2)
  | "Dup" => some (.stack .dup)
  | "DupX1" => some (.stack .dupX1)
  | "DupX2" => some (.stack .dupX2)
  | "Dup2" => some (.stack .dup2)
  | "Dup2X1" => some (.stack .dup2X1)
  | "Dup2X2" => some (.stack .dup2X2)
  | "Swap" => some (.stack .swap)
  | "I2B" => some (.narrow .byte)
  | "I2C" => some (.narrow .char)
  | "I2S" => some (.narrow .short)
  | "LCmp" => some .compareLong
  | "Return" => some .returnVoid
  | "AThrow" => some .throwValue
  | "ArrayLength" => some .arrayLength
  | "MonitorEnter" => some .monitorEnter
  | "MonitorExit" => some .monitorExit
  | _ => none

def family? (letter : Char) : String → Option Instruction
  | "ALoad" => (ElementKind.ofLetter? letter).map .arrayLoad
  | "AStore" => (ElementKind.ofLetter? letter).map .arrayStore
  | "Add" => (NumKind.ofLetter? letter).map (.arithmetic .add)
  | "Sub" => (NumKind.ofLetter? letter).map (.arithmetic .sub)
  | "Mul" => (NumKind.ofLetter? letter).map (.arithmetic .mul)
  | "Div" => (NumKind.ofLetter? letter).map (.arithmetic .div)
  | "Rem" => (NumKind.ofLetter? letter).map (.arithmetic .rem)
  | "Neg" => (NumKind.ofLetter? letter).map .negate
  | "And" => (IntegerWidth.ofLetter? letter).map (.bitwise .and)
  | "Or" => (IntegerWidth.ofLetter? letter).map (.bitwise .or)
  | "Xor" => (IntegerWidth.ofLetter? letter).map (.bitwise .xor)
  | "Return" => (Kind.ofLetter? letter).map .returnValue
  | "2I" => do return .convert (← Conversion.between? (← NumKind.ofLetter? letter) .int)
  | "2L" => do return .convert (← Conversion.between? (← NumKind.ofLetter? letter) .long)
  | "2F" => do return .convert (← Conversion.between? (← NumKind.ofLetter? letter) .float)
  | "2D" => do return .convert (← Conversion.between? (← NumKind.ofLetter? letter) .double)
  | _ => none

def ofMnemonic? (text : String) : Option Instruction :=
  match single? text with
  | some instruction => some instruction
  | none =>
    match text.toList with
    | letter :: rest => family? letter (String.ofList rest)
    | [] => none

def ofRegister? (text : String) (register : UInt16) : Option Instruction :=
  match text.toList with
  | letter :: rest => do
    let kind ← Kind.ofLetter? letter
    match String.ofList rest with
    | "Load" => some (.load kind register)
    | "Store" => some (.store kind register)
    | _ => none
  | [] => none

def ofOperands? (name : String) (a b : Json) : Option Instruction :=
  match name with
  | "BiPush" => a.asInt?.map fun n => .pushByte (Int8.ofInt n)
  | "SiPush" => a.asInt?.map fun n => .pushShort (Int16.ofInt n)
  | "Ldc" => (Loadable.ofJson? a).map .pushConstant
  | "Ret" => a.asWord16?.map .ret
  | "IInc" => do return .increment (← a.asWord16?) (Int16.ofInt (← b.asInt?))
  | "ISh" => do return .shift (← ShiftOp.ofJson? a) .int
  | "LSh" => do return .shift (← ShiftOp.ofJson? a) .long
  | "FCmp" => (NanOrder.ofJson? a).map (.compareFloat .float)
  | "DCmp" => (NanOrder.ofJson? a).map (.compareFloat .double)
  | "GetStatic" => (FieldRef.ofJson? a).map .getStatic
  | "PutStatic" => (FieldRef.ofJson? a).map .putStatic
  | "GetField" => (FieldRef.ofJson? a).map .getField
  | "PutField" => (FieldRef.ofJson? a).map .putField
  | "Invoke" => do return .invoke (← InvokeMode.ofJson? a) (← MethodRef.ofJson? b)
  | "New" => (BinaryName.ofJson? a).map .allocate
  | "NewArray" => do return .newArray (← BaseType.ofLetter? (← (← a.asString?).toList.head?))
  | "ANewArray" => (RefType.ofJson? a).map .newRefArray
  | "CheckCast" => (RefType.ofJson? a).map .checkCast
  | "InstanceOf" => (RefType.ofJson? a).map .instanceOf
  | "MultiANewArray" => do
    return .newMultiArray (← RefType.ofJson? a) (UInt8.ofNat (← b.asNat? 0xFF))
  | "load" => do return loadOf (← TypeCode.ofJson? a) (← b.asWord16?)
  | "store" => do return storeOf (← TypeCode.ofJson? a) (← b.asWord16?)
  | "array_load" => (TypeCode.ofJson? a).map arrayLoadOf
  | "array_store" => (TypeCode.ofJson? a).map arrayStoreOf
  | "return_value" => (TypeCode.ofJson? a).map returnOf
  | "pop" => (a.asNat? 0xFF).map popOf
  | "dup" => (a.asNat? 0xFF).map dupOf
  | "dup_under" => do return dupUnder (← a.asNat? 0xFF) (← b.asNat? 0xFF)
  | _ => do ofRegister? name (← a.asWord16?)

def ofJson? (j : Json) : Option Instruction :=
  match j with
  | .string text => ofMnemonic? text
  | .array [.string text, a] => ofOperands? text a .null
  | .array [.string text, a, b] => ofOperands? text a b
  | _ => none

end Instruction

end ClassForge
