import ClassForge.Access
import ClassForge.Verification.MapFrame

namespace ClassForge

/-- An attribute: the index of its name and its payload. -/
structure Attribute where
  name : UInt16
  info : Bytes
  deriving DecidableEq, Repr

/-- Row of an exception table. The range is `[start, stop)`; catch type 0 catches everything. -/
structure ExceptionHandler where
  start : UInt16
  stop : UInt16
  handler : UInt16
  catchType : UInt16
  deriving DecidableEq, Repr

structure LineNumber where
  pc : UInt16
  line : UInt16
  deriving DecidableEq, Repr

/-- Live range of a variable; `type` is the index of a descriptor or of a generic signature. -/
structure LocalVariable where
  start : UInt16
  length : UInt16
  name : UInt16
  type : UInt16
  register : UInt16
  deriving DecidableEq, Repr

structure InnerClass where
  inner : UInt16
  outer : UInt16
  name : UInt16
  access : AccessFlags .ofInner
  deriving DecidableEq, Repr

structure Code where
  maxStack : UInt16
  maxLocals : UInt16
  code : Bytes
  handlers : List ExceptionHandler
  attributes : List Attribute
  deriving DecidableEq, Repr

/-- Payloads by the layout that goes with their attribute's name. -/
inductive Payload where
  | constantValue (index : UInt16)
  | sourceFile (index : UInt16)
  | exceptions (classes : List UInt16)
  | lineNumbers (rows : List LineNumber)
  | localVariables (rows : List LocalVariable)
  | localVariableTypes (rows : List LocalVariable)
  | stackMap (frames : List MapFrame)
  | innerClasses (rows : List InnerClass)
  | code (body : Code)
  | other (name : String) (info : Bytes)
  deriving DecidableEq, Repr

namespace AccessFlags

variable {kind : Declared}

def encode (flags : AccessFlags kind) : Bytes := Bytes.ofWord16 flags.bits

def decode (kind : Declared) : Decoder (AccessFlags kind) := do
  return ofKnownBits kind (← Decoder.word16)

end AccessFlags

namespace Attribute

def encode (a : Attribute) : Bytes := Bytes.ofWord16 a.name ++ Bytes.ofBlock a.info

def decode : Decoder Attribute := do
  let name ← Decoder.word16
  let info ← Decoder.block
  return ⟨name, info⟩

end Attribute

namespace ExceptionHandler

def encode (row : ExceptionHandler) : Bytes :=
  Bytes.ofWord16 row.start ++ Bytes.ofWord16 row.stop ++ Bytes.ofWord16 row.handler ++
    Bytes.ofWord16 row.catchType

def decode : Decoder ExceptionHandler := do
  let start ← Decoder.word16
  let stop ← Decoder.word16
  let handler ← Decoder.word16
  let catchType ← Decoder.word16
  return ⟨start, stop, handler, catchType⟩

end ExceptionHandler

namespace LineNumber

def encode (row : LineNumber) : Bytes := Bytes.ofWord16 row.pc ++ Bytes.ofWord16 row.line

def decode : Decoder LineNumber := do
  let pc ← Decoder.word16
  let line ← Decoder.word16
  return ⟨pc, line⟩

end LineNumber

namespace LocalVariable

def encode (row : LocalVariable) : Bytes :=
  Bytes.ofWord16 row.start ++ Bytes.ofWord16 row.length ++ Bytes.ofWord16 row.name ++
    Bytes.ofWord16 row.type ++ Bytes.ofWord16 row.register

def decode : Decoder LocalVariable := do
  let start ← Decoder.word16
  let length ← Decoder.word16
  let name ← Decoder.word16
  let type ← Decoder.word16
  let register ← Decoder.word16
  return ⟨start, length, name, type, register⟩

end LocalVariable

namespace InnerClass

def encode (row : InnerClass) : Bytes :=
  Bytes.ofWord16 row.inner ++ Bytes.ofWord16 row.outer ++ Bytes.ofWord16 row.name ++
    row.access.encode

def decode : Decoder InnerClass := do
  let inner ← Decoder.word16
  let outer ← Decoder.word16
  let name ← Decoder.word16
  let access ← AccessFlags.decode .ofInner
  return ⟨inner, outer, name, access⟩

end InnerClass

namespace Code

def encode (body : Code) : Bytes :=
  Bytes.ofWord16 body.maxStack ++ Bytes.ofWord16 body.maxLocals ++ Bytes.ofBlock body.code ++
    Bytes.ofList ExceptionHandler.encode body.handlers ++
    Bytes.ofList Attribute.encode body.attributes

def decode : Decoder Code := do
  let maxStack ← Decoder.word16
  let maxLocals ← Decoder.word16
  let code ← Decoder.block
  let handlers ← Decoder.list ExceptionHandler.decode
  let attributes ← Decoder.list Attribute.decode
  return ⟨maxStack, maxLocals, code, handlers, attributes⟩

end Code

namespace Payload

def name : Payload → String
  | .constantValue _ => "ConstantValue"
  | .sourceFile _ => "SourceFile"
  | .exceptions _ => "Exceptions"
  | .lineNumbers _ => "LineNumberTable"
  | .localVariables _ => "LocalVariableTable"
  | .localVariableTypes _ => "LocalVariableTypeTable"
  | .stackMap _ => "StackMapTable"
  | .innerClasses _ => "InnerClasses"
  | .code _ => "Code"
  | .other name _ => name

def encode : Payload → Except FormatError Bytes
  | .constantValue index | .sourceFile index => .ok (Bytes.ofWord16 index)
  | .exceptions classes => .ok (Bytes.ofList Bytes.ofWord16 classes)
  | .lineNumbers rows => .ok (Bytes.ofList LineNumber.encode rows)
  | .localVariables rows | .localVariableTypes rows =>
    .ok (Bytes.ofList LocalVariable.encode rows)
  | .stackMap frames => do
    let encoded ← frames.mapM MapFrame.encode
    return Bytes.ofWord16 (UInt16.ofNat frames.length) ++ encoded.flatten
  | .innerClasses rows => .ok (Bytes.ofList InnerClass.encode rows)
  | .code body => .ok body.encode
  | .other _ info => .ok info

def decoder (name : String) : Decoder Payload :=
  match name with
  | "ConstantValue" => return .constantValue (← Decoder.word16)
  | "SourceFile" => return .sourceFile (← Decoder.word16)
  | "Exceptions" => return .exceptions (← Decoder.list Decoder.word16)
  | "LineNumberTable" => return .lineNumbers (← Decoder.list LineNumber.decode)
  | "LocalVariableTable" => return .localVariables (← Decoder.list LocalVariable.decode)
  | "LocalVariableTypeTable" =>
    return .localVariableTypes (← Decoder.list LocalVariable.decode)
  | "StackMapTable" => return .stackMap (← Decoder.list MapFrame.decode)
  | "InnerClasses" => return .innerClasses (← Decoder.list InnerClass.decode)
  | "Code" => return .code (← Code.decode)
  | name => fun info => .ok (.other name info, [])

def decode (name : String) (info : Bytes) : Except FormatError Payload :=
  (decoder name).all (.trailingInAttribute name) info

end Payload

end ClassForge
