import ClassForge.ClassFile.Attribute
import ClassForge.ClassFile.Constant
import ClassForge.ClassFile.Version

namespace ClassForge

/-- A field or method of a class; name and descriptor are indices. -/
structure MemberInfo (kind : Declared) where
  access : AccessFlags kind
  name : UInt16
  descriptor : UInt16
  attributes : List Attribute
  deriving DecidableEq, Repr

structure ClassFile where
  version : Version
  constants : ConstantTable
  access : AccessFlags .ofClass
  thisClass : UInt16
  superclass : Option UInt16
  interfaces : List UInt16
  fields : List (MemberInfo .ofField)
  methods : List (MemberInfo .ofMethod)
  attributes : List Attribute

namespace MemberInfo

def encode {kind : Declared} (member : MemberInfo kind) : Bytes :=
  member.access.encode ++ Bytes.ofWord16 member.name ++ Bytes.ofWord16 member.descriptor ++
    Bytes.ofList Attribute.encode member.attributes

def decode (kind : Declared) : Decoder (MemberInfo kind) := do
  let access ← AccessFlags.decode kind
  let name ← Decoder.word16
  let descriptor ← Decoder.word16
  let attributes ← Decoder.list Attribute.decode
  return ⟨access, name, descriptor, attributes⟩

end MemberInfo

namespace ClassFile

def magic : Bytes := [0xCA, 0xFE, 0xBA, 0xBE]

def encode (file : ClassFile) : Bytes :=
  magic ++ file.version.encode ++ file.constants.encode ++ file.access.encode ++
    Bytes.ofWord16 file.thisClass ++ Bytes.ofWord16 (file.superclass.getD 0) ++
    Bytes.ofList Bytes.ofWord16 file.interfaces ++ Bytes.ofList MemberInfo.encode file.fields ++
    Bytes.ofList MemberInfo.encode file.methods ++ Bytes.ofList Attribute.encode file.attributes

def decoder : Decoder ClassFile := do
  let header ← Decoder.take 4
  if header != magic then Decoder.fail .missingMagic
  let version ← Version.decode
  let constants ← ConstantTable.decode
  let access ← AccessFlags.decode .ofClass
  let thisClass ← Decoder.word16
  let above ← Decoder.word16
  let superclass := if above = 0 then none else some above
  let interfaces ← Decoder.list Decoder.word16
  let fields ← Decoder.list (MemberInfo.decode .ofField)
  let methods ← Decoder.list (MemberInfo.decode .ofMethod)
  let attributes ← Decoder.list Attribute.decode
  return ⟨version, constants, access, thisClass, superclass, interfaces, fields, methods,
    attributes⟩

def decode (bytes : Bytes) : Except FormatError ClassFile :=
  decoder.all .trailingAfterClass bytes

def constant? (file : ClassFile) (index : UInt16) : Option Constant :=
  file.constants.get? index.toNat

def text? (file : ClassFile) (index : UInt16) : Option String :=
  match file.constant? index with
  | some (.utf8 text) => some text
  | _ => none

def className? (file : ClassFile) (index : UInt16) : Option String :=
  match file.constant? index with
  | some (.classRef name) => file.text? name
  | _ => none

def attribute? (file : ClassFile) (attributes : List Attribute) (name : String) :
    Option Attribute :=
  attributes.find? fun a => file.text? a.name == some name

def method? (file : ClassFile) (name : String) (descriptor : Option String) :
    Option (MemberInfo .ofMethod) :=
  file.methods.find? fun method =>
    file.text? method.name == some name &&
      (descriptor.isNone || file.text? method.descriptor == descriptor)

def payload (file : ClassFile) (a : Attribute) : Except FormatError Payload :=
  Payload.decode ((file.text? a.name).getD "") a.info

end ClassFile

end ClassForge
