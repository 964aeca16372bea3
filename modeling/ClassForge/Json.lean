namespace ClassForge

/-- Numbers of a JSON text: whole ones in the 64-bit ranges, and doubles. -/
inductive JsonNumber where
  | integer (value : Int)
  | fraction (value : Float)
  deriving DecidableEq

/-- JSON values; the fields of an object keep their order. -/
inductive Json where
  | null
  | bool (value : Bool)
  | number (value : JsonNumber)
  | string (value : String)
  | array (items : List Json)
  | object (fields : List (String × Json))

namespace Json

instance : Inhabited Json := ⟨.null⟩

def int (n : Int) : Json := .number (.integer n)

def nat (n : Nat) : Json := int n

def asString? : Json → Option String
  | .string s => some s
  | _ => none

def asBool? : Json → Option Bool
  | .bool b => some b
  | _ => none

def asInt? : Json → Option Int
  | .number (.integer n) => some n
  | _ => none

def asNat? (limit : Nat) (j : Json) : Option Nat :=
  match j.asInt? with
  | some (.ofNat n) => if n ≤ limit then some n else none
  | _ => none

def isNull : Json → Bool
  | .null => true
  | _ => false

theorem sizeOf_lookup {key : String} {value : Json} {fields : List (String × Json)}
    (found : fields.lookup key = some value) : sizeOf value < sizeOf (Json.object fields) := by
  have inside : sizeOf value < sizeOf fields := by
    induction fields with
    | nil => simp at found
    | cons field rest ih =>
      obtain ⟨name, item⟩ := field
      simp only [List.lookup_cons] at found
      split at found
      · cases found
        simp only [List.cons.sizeOf_spec, Prod.mk.sizeOf_spec]
        omega
      · have step := ih found
        simp only [List.cons.sizeOf_spec]
        omega
  simp only [Json.object.sizeOf_spec]
  omega

abbrev Below (j : Json) := { value : Json // sizeOf value < sizeOf j }

def field? (j : Json) (key : String) : Option j.Below :=
  match j with
  | .object fields =>
    match found : fields.lookup key with
    | some value => some ⟨value, sizeOf_lookup found⟩
    | none => none
  | _ => none

def given? (j : Json) (key : String) : Option j.Below :=
  match j.field? key with
  | some ⟨.null, _⟩ => none
  | other => other

def items? (j : Json) : Option (List j.Below) :=
  match j with
  | .array items => some (items.attach.map fun ⟨value, member⟩ =>
      ⟨value, by
        have inside := List.sizeOf_lt_of_mem member
        simp only [Json.array.sizeOf_spec]
        omega⟩)
  | _ => none

def single? (j : Json) : Option (String × j.Below) :=
  match j with
  | .object [(key, value)] => some (key, ⟨value, by
      simp only [Json.object.sizeOf_spec, List.cons.sizeOf_spec, Prod.mk.sizeOf_spec,
        List.nil.sizeOf_spec]
      omega⟩)
  | _ => none

def fields? (j : Json) : Option (List (String × Json)) :=
  match j with
  | .object fields => some fields
  | _ => none

end Json

end ClassForge
