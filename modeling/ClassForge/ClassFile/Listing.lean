import ClassForge.ClassFile
import ClassForge.ClassFile.Describe

namespace ClassForge

namespace ClassFile

def frameCount (file : ClassFile) (body : Code) : UInt16 :=
  match (file.attribute? body.attributes "StackMapTable").map (·.info) with
  | some (high :: low :: _) => Bytes.toWord16 high low
  | _ => 0

def codeSummary (file : ClassFile) (method : MemberInfo .ofMethod) : String :=
  let payload := (file.attribute? method.attributes "Code").map fun a =>
    Payload.decode "Code" a.info
  match payload with
  | some (.ok (.code body)) =>
    let frames := file.frameCount body
    s!"{body.code.length} bytes, max stack {body.maxStack}, max locals {body.maxLocals}, " ++
      s!"{body.handlers.length} handlers, {frames} frames"
  | _ => "no code"

def listing (file : ClassFile) : List String :=
  let text := fun index => (file.text? index).getD "?"
  let className := fun index => (file.className? index).getD "?"
  let name := className file.thisClass
  let version := file.version
  let count := file.constants.size
  [s!"class {name} (version {version.major}.{version.minor}, {count} constants)"] ++
  (file.superclass.toList.map fun index => "  extends " ++ className index) ++
  (file.constants.entries.toList.map fun (index, constant) =>
    s!"  #{index} = {constant.describe}") ++
  (file.fields.map fun field => "  field " ++ text field.name ++ " " ++ text field.descriptor) ++
  (file.methods.map fun method =>
    "  method " ++ text method.name ++ text method.descriptor ++ ": " ++ file.codeSummary method) ++
  (file.attributes.map fun a => "  attribute " ++ text a.name)

end ClassFile

end ClassForge
