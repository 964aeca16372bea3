import ClassForge.ClassFile
import ClassForge.Tree.Write
import ClassForge.Verification.Json

namespace ClassForge

-- Zeros are the literals, also where a ring would give others.
attribute [local instance (2000)] Zero.ofOfNat0

namespace Constant

def toJson : Constant → Json
  | .utf8 text => .array [.string "Utf8", .string text]
  | .integer value => .array [.string "Integer", .int value.toInt]
  | .float bits => .array [.string "Float", .ofBits32 bits]
  | .long value => .array [.string "Long", .int value.toInt]
  | .double bits => .array [.string "Double", .ofBits64 bits]
  | .classRef name => .array [.string "Class", .ofWord name]
  | .string text => .array [.string "String", .ofWord text]
  | .fieldRef owner ref => .array [.string "FieldRef", .ofWord owner, .ofWord ref]
  | .methodRef owner ref ownerIsInterface =>
    .array [.string "MethodRef", .ofWord owner, .ofWord ref, .bool ownerIsInterface]
  | .nameAndType name descriptor =>
    .array [.string "NameAndType", .ofWord name, .ofWord descriptor]

end Constant

namespace FormatError

def Kind.describe : Kind → String
  | .invalidData => "InvalidData"
  | .invalidInput => "InvalidInput"
  | .endOfData => "UnexpectedEof"

def toJson (e : FormatError) : Json := .object [
  ("error", .string e.kind.describe),
  ("message", .string e.message)]

end FormatError

namespace ExceptionHandler

def toJson (row : ExceptionHandler) : Json :=
  .array [.ofWord row.start, .ofWord row.stop, .ofWord row.handler, .ofWord row.catchType]

end ExceptionHandler

namespace LocalVariable

def toJson (row : LocalVariable) : Json := .array [.ofWord row.start, .ofWord row.length,
  .ofWord row.name, .ofWord row.type, .ofWord row.register]

end LocalVariable

namespace InnerClass

def toJson (row : InnerClass) : Json :=
  .array [.ofWord row.inner, .ofWord row.outer, .ofWord row.name, .ofFlags row.access]

end InnerClass

namespace Payload

def toJsonWith (attributes : List Attribute → Json) : Payload → Json
  | .constantValue index | .sourceFile index => .ofWord index
  | .exceptions classes => .array (classes.map .ofWord)
  | .lineNumbers rows => .array (rows.map fun row => .array [.ofWord row.pc, .ofWord row.line])
  | .localVariables rows | .localVariableTypes rows => .array (rows.map LocalVariable.toJson)
  | .stackMap frames => .array (frames.map MapFrame.toJson)
  | .innerClasses rows => .array (rows.map InnerClass.toJson)
  | .code body => .object [
      ("max_stack", .ofWord body.maxStack),
      ("max_locals", .ofWord body.maxLocals),
      ("code", body.code.toJson),
      ("handlers", .array (body.handlers.map ExceptionHandler.toJson)),
      ("attributes", attributes body.attributes)]
  | .other _ info => .string (Hex.ofBytes info)

end Payload

namespace ClassFile

def attributesToJson (file : ClassFile) : Nat → List Attribute → Json
  | 0, _ => .array []
  | depth + 1, attributes => .array (attributes.map fun a => .array [
      .ofOption .string (file.text? a.name),
      match file.payload a with
      | .ok payload => payload.toJsonWith (attributesToJson file depth)
      | .error e => e.toJson])

def attributesJson (file : ClassFile) (attributes : List Attribute) : Json :=
  file.attributesToJson ((attributes.map (·.info.length)).sum + 1) attributes

def memberToJson {kind : Declared} (file : ClassFile) (member : MemberInfo kind) : Json := .object [
  ("access", .ofFlags member.access),
  ("name", .ofOption .string (file.text? member.name)),
  ("descriptor", .ofOption .string (file.text? member.descriptor)),
  ("attributes", file.attributesJson member.attributes)]

def toJson (file : ClassFile) : Json :=
  let className := fun index => Json.ofOption .string (file.className? index)
  .object [
    ("version", .array [.ofWord file.version.major, .ofWord file.version.minor]),
    ("constants", .array (file.constants.entries.toList.map fun (index, constant) =>
      .array [.nat index, constant.toJson])),
    ("access", .ofFlags file.access),
    ("this", className file.thisClass),
    ("super", .ofOption .string (file.superclass.bind file.className?)),
    ("interfaces", .array (file.interfaces.map className)),
    ("fields", .array (file.fields.map file.memberToJson)),
    ("methods", .array (file.methods.map file.memberToJson)),
    ("attributes", file.attributesJson file.attributes)]

end ClassFile

end ClassForge
