import ClassForge.Json

namespace ClassForge

namespace Json

variable {α : Type}

def required (j : Json) (key : String) (read : j.Below → Option α) : Option α :=
  (j.field? key).bind read

def optional (j : Json) (key : String) (read : j.Below → Option α) : Option (Option α) :=
  match j.given? key with
  | none => some none
  | some value => (read value).map some

def withDefault (j : Json) (key : String) (fallback : α) (read : j.Below → Option α) : Option α :=
  match j.field? key with
  | none => some fallback
  | some value => read value

def listOf (j : Json) (read : j.Below → Option α) : Option (List α) := do
  (← j.items?).mapM read

def word? (j : Json) : Option String :=
  match j with
  | .string s => some s
  | .object [(s, .null)] => some s
  | _ => none

def object? (j : Json) : Option Unit := j.fields?.map fun _ => ()

end Json

end ClassForge
