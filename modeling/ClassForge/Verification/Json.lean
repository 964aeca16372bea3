import ClassForge.Bytes.Hex
import ClassForge.Tree.Read
import ClassForge.Verification.Frame

namespace ClassForge

namespace VerificationType

variable {κ υ : Type}

def ofJsonWith? (type : Json → Option κ) (site : Json → Option υ) (j : Json) :
    Option (VerificationType κ υ) :=
  match j.asString? with
  | some "Top" => some .top
  | some "Integer" => some .integer
  | some "Float" => some .float
  | some "Double" => some .double
  | some "Long" => some .long
  | some "Null" => some .null
  | some "UninitializedThis" => some .uninitializedThis
  | some "ReturnAddress" => some .returnAddress
  | some _ => none
  | none =>
    match j.single? with
    | some ("object", value) => (type value).map .object
    | some ("uninit", value) => (site value).map .uninitialized
    | _ => none

def toJsonWith (type : κ → Json) (site : υ → Json) : VerificationType κ υ → Json
  | .top => .string "Top"
  | .integer => .string "Integer"
  | .float => .string "Float"
  | .double => .string "Double"
  | .long => .string "Long"
  | .null => .string "Null"
  | .uninitializedThis => .string "UninitializedThis"
  | .returnAddress => .string "ReturnAddress"
  | .object value => .object [("object", type value)]
  | .uninitialized value => .object [("uninit", site value)]

end VerificationType

namespace Allocation

def ofJson? (j : Json) : Option Allocation := do
  return ⟨← (← j.at? 0).asWord16?, ← BinaryName.ofJson? (← j.at? 1)⟩

def toJson (site : Allocation) : Json := .array [.ofWord site.pc, .string site.name.text]

end Allocation

namespace VType

def ofJson? (j : Json) : Option VType :=
  VerificationType.ofJsonWith? RefType.ofJson? Allocation.ofJson? j

def toJson (type : VType) : Json :=
  type.toJsonWith (fun type => .string type.render) Allocation.toJson

end VType

namespace CType

def ofJson? (j : Json) : Option CType :=
  VerificationType.ofJsonWith? Json.asWord16? Json.asWord16? j

def toJson (type : CType) : Json := type.toJsonWith Json.ofWord Json.ofWord

def listOfJson? (j : Json) : Option (List CType) := j.elements.mapM ofJson?

def listToJson (types : List CType) : Json := .array (types.map toJson)

end CType

namespace VFrame

def toJson (frame : VFrame) : Json := .object [
  ("locals", .array (frame.locals.toList.map VType.toJson)),
  ("stack", .array (frame.stack.toList.map VType.toJson))]

end VFrame

namespace CFrame

def ofJson? (j : Json) : Option CFrame := do
  let locals ← j.withDefault "locals" [] fun v => CType.listOfJson? v
  let stack ← j.withDefault "stack" [] fun v => CType.listOfJson? v
  return ⟨.ofList locals, .ofList stack⟩

def toJson (frame : CFrame) : Json := .object [
  ("locals", CType.listToJson frame.locals.toList),
  ("stack", CType.listToJson frame.stack.toList),
  ("slots", .array [.nat frame.locals.next, .nat frame.stack.next])]

end CFrame

namespace MapFrame

def ofJson? (j : Json) : Option MapFrame := do
  let delta ← (← j.at? 1).asWord16?
  match ← (← j.at? 0).asString? with
  | "same" => return .same delta
  | "same1" => return .sameOne delta (← CType.ofJson? (← j.at? 2))
  | "chop" => return .chop delta (UInt8.ofNat (← (← j.at? 2).asNat? 0xFF))
  | "append" => return .append delta (← CType.listOfJson? (← j.at? 2))
  | "full" =>
    return .full delta (← CType.listOfJson? (← j.at? 2)) (← CType.listOfJson? (← j.at? 3))
  | _ => none

def toJson : MapFrame → Json
  | .same delta => .array [.string "same", .ofWord delta]
  | .sameOne delta type => .array [.string "same1", .ofWord delta, CType.toJson type]
  | .chop delta count => .array [.string "chop", .ofWord delta, .nat count.toNat]
  | .append delta locals => .array [.string "append", .ofWord delta, CType.listToJson locals]
  | .full delta locals stack =>
    .array [.string "full", .ofWord delta, CType.listToJson locals, CType.listToJson stack]

end MapFrame

end ClassForge
