namespace ClassForge

/-- Values that occupy a number of consecutive slots. -/
class Width (α : Type) where
  width : α → Nat

/-- Elements with the offset of their first slot; `next` is the offset the next element gets. -/
structure SlotSeq (α : Type) where
  start : Nat
  entries : Array (Nat × α)
  next : Nat

/-- What is found at a slot offset. -/
inductive SlotAccess (β : Type) where
  /-- An element starts there; its index among the elements is given. -/
  | found (index : Nat) (value : β)
  /-- No element starts there, and the element at `index` is the first one past it. -/
  | inside (index : Nat)
  /-- The replacement is not as wide as the element it would replace. -/
  | mismatch (new old : Nat)
  /-- No element starts at the offset or after it. -/
  | beyond
  deriving DecidableEq

namespace SlotSeq

variable {α : Type}

def empty (start : Nat) : SlotSeq α := ⟨start, #[], start⟩

instance : Inhabited (SlotSeq α) := ⟨empty 0⟩

/-- Sequences are compared by their elements and the offsets of these. -/
instance [BEq α] : BEq (SlotSeq α) := ⟨fun s other => s.entries == other.entries⟩

def size (s : SlotSeq α) : Nat := s.entries.size

def isEmpty (s : SlotSeq α) : Bool := s.entries.isEmpty

def toList (s : SlotSeq α) : List α := s.entries.toList.map (·.2)

def last? (s : SlotSeq α) : Option α := s.entries.back?.map (·.2)

def extent (s : SlotSeq α) : Nat := s.next - s.start

def push [Width α] (s : SlotSeq α) (a : α) : SlotSeq α :=
  { s with entries := s.entries.push (s.next, a), next := s.next + Width.width a }

def pushAll [Width α] (s : SlotSeq α) (as : List α) : SlotSeq α := as.foldl push s

def ofList [Width α] (as : List α) : SlotSeq α := (empty 0).pushAll as

def pop? (s : SlotSeq α) : Option (Nat × α × SlotSeq α) :=
  match s.entries.back? with
  | none => none
  | some (offset, a) => some (offset, a, { s with entries := s.entries.pop, next := offset })

def setLast (s : SlotSeq α) (a : α) : SlotSeq α :=
  match s.entries.back? with
  | none => s
  | some (offset, _) => { s with entries := s.entries.pop.push (offset, a) }

def clear (s : SlotSeq α) : SlotSeq α := empty s.start

def truncate (s : SlotSeq α) (index : Nat) : SlotSeq α :=
  match s.entries[index]? with
  | none => s
  | some (offset, _) => { s with entries := s.entries.take index, next := offset }

def map (f : α → α) (s : SlotSeq α) : SlotSeq α :=
  { s with entries := s.entries.map fun (offset, a) => (offset, f a) }

/-- Number of elements that start at the offset or before it, given that it is at least `low` and
at most `high`. -/
def countBetween (s : SlotSeq α) (offset low high : Nat) : Nat :=
  if low < high then
    let middle := (low + high) / 2
    match s.entries[middle]? with
    | some (start, _) =>
      if start ≤ offset then s.countBetween offset (middle + 1) high
      else s.countBetween offset low middle
    | none => low
  else low
termination_by high - low

def countUpTo (s : SlotSeq α) (offset : Nat) : Nat := s.countBetween offset 0 s.size

def at? (s : SlotSeq α) (offset : Nat) : SlotAccess α :=
  let count := s.countUpTo offset
  let missing : SlotAccess α := if count < s.size then .inside count else .beyond
  match count with
  | 0 => missing
  | index + 1 =>
    match s.entries[index]? with
    | some (start, a) => if start = offset then .found index a else missing
    | none => missing

def get? (s : SlotSeq α) (offset : Nat) : Option α :=
  match s.at? offset with
  | .found _ a => some a
  | _ => none

/-- Replace the element at an offset by one of the same width, or append it if the offset is one
past the end. The sequence stays as it is when that is not possible. -/
def set [Width α] (s : SlotSeq α) (offset : Nat) (a : α) : SlotAccess Unit × SlotSeq α :=
  if offset = s.next then (.found s.size (), s.push a)
  else
    match s.at? offset with
    | .found index old =>
      if Width.width old = Width.width a then
        (.found index (), { s with entries := s.entries.setIfInBounds index (offset, a) })
      else (.mismatch (Width.width a) (Width.width old), s)
    | .inside index => (.inside index, s)
    | .mismatch new old => (.mismatch new old, s)
    | .beyond => (.beyond, s)

end SlotSeq

end ClassForge
