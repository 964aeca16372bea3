import ClassForge.Hierarchy
import ClassForge.Machine.Fault
import ClassForge.Verification.Frame

namespace ClassForge

inductive LocalSlot where
  /-- Not assigned on every path. -/
  | undefined
  | defined (type : VType)
  /-- Second half of the wide value in the register before. -/
  | upper
  deriving DecidableEq, Repr

instance : Inhabited LocalSlot := ⟨.undefined⟩

/-- Types on the stack, registers, and the registers of held monitors, innermost first. -/
structure State where
  stack : SlotSeq VType
  locals : Array LocalSlot
  locks : List UInt16

namespace State

def empty : State := ⟨.empty 0, #[], []⟩

instance : Inhabited State := ⟨empty⟩

def depth (state : State) : Nat := state.stack.next

def push (state : State) (type : VType) : State := { state with stack := state.stack.push type }

def pop (state : State) : Except Fault (VType × State) :=
  match state.stack.pop? with
  | some (_, type, rest) => .ok (type, { state with stack := rest })
  | none => .error .emptyStack

def peek (state : State) : Except Fault VType :=
  match state.stack.last? with
  | some type => .ok type
  | none => .error .emptyStack

def force (state : State) (type : VType) : State :=
  match state.stack.last? with
  | some old =>
    if old.isReference && type.isReference then
      { state with stack := state.stack.setLast type }
    else state
  | none => state

def local? (state : State) (register : UInt16) : Option VType :=
  match state.locals[register.toNat]? with
  | some (.defined type) => some type
  | _ => none

def extendLocals (locals : Array LocalSlot) (size : Nat) : Array LocalSlot :=
  locals ++ Array.replicate (size - locals.size) .undefined

def dropUpper (locals : Array LocalSlot) (register half : Nat) : Array LocalSlot :=
  if locals[half]? = some .upper then locals.setIfInBounds register .undefined else locals

/-- Define a register. Overwriting half of a wide value invalidates the other half. -/
def setLocal (state : State) (register : UInt16) (type : VType) : State :=
  let first := register.toNat
  let after := first + type.width
  let locals := extendLocals state.locals after
  let locals := if 0 < first then dropUpper locals (first - 1) first else locals
  let locals := dropUpper locals after after
  let locals := locals.setIfInBounds first (.defined type)
  let locals := if type.width = 2 then locals.setIfInBounds (first + 1) .upper else locals
  { state with locals }

def undefine (state : State) (register : UInt16) : State :=
  { state with locals := state.locals.setIfInBounds register.toNat .undefined }

def undefineFrom (state : State) (register : UInt16) : State :=
  { state with locals := state.locals.take register.toNat }

def lock (state : State) (register : UInt16) : State :=
  { state with locks := register :: state.locks }

def unlock (state : State) (register : UInt16) : Except Fault State :=
  match state.locks with
  | innermost :: rest =>
    if innermost = register then .ok { state with locks := rest }
    else .error (.unbalancedMonitor register)
  | [] => .error (.unbalancedMonitor register)

def replace (state : State) (source target : VType) : State :=
  let swap := fun type => if type = source then target else type
  { state with
    stack := state.stack.map swap
    locals := state.locals.map fun
      | .defined type => .defined (swap type)
      | slot => slot }

def joinTypes (graph : ClassGraph) (a b : VType) : Except Fault VType :=
  if a = b then .ok a
  else
    match a, b with
    | .null, .object type | .object type, .null => .ok (.object type)
    | .object type, .object other => .ok (.object (graph.commonSuperclass type other))
    | _, _ => .error (.unmergeable a b)

def joinStacks (graph : ClassGraph) (joined : SlotSeq VType) :
    List VType → List VType → Except Fault (SlotSeq VType)
  | a :: as, b :: bs => do
    let type ← joinTypes graph a b
    joinStacks graph (joined.push type) as bs
  | _, _ => .ok joined

def join (graph : ClassGraph) (state other : State) : Except Fault State :=
  if state.stack.size ≠ other.stack.size ∨ state.locks ≠ other.locks then
    .error (.statesDiffer state.stack other.stack state.locks other.locks)
  else do
    let stack ← joinStacks graph (.empty 0) state.stack.toList other.stack.toList
    let locals := Array.zipWith (fun a b => if a = b then a else .undefined)
      state.locals other.locals
    return ⟨stack, locals, state.locks⟩

/-- Types of the registers as a frame lists them: a wide value is one entry. -/
def frameLocals : List LocalSlot → List VType
  | [] => []
  | .defined type :: rest =>
    if type.width = 2 then
      match rest with
      | _ :: rest => type :: frameLocals rest
      | [] => [type]
    else type :: frameLocals rest
  | _ :: rest => .top :: frameLocals rest

def trimTop : List VType → List VType
  | [] => []
  | type :: rest =>
    match type, trimTop rest with
    | .top, [] => []
    | type, rest => type :: rest

def frame (state : State) : VFrame :=
  ⟨.ofList (trimTop (frameLocals state.locals.toList)), state.stack⟩

def describeSlot : LocalSlot → String
  | .undefined => "Undefined"
  | .defined type => s!"Defined({type.describe})"
  | .upper => "Upper"

def describe (state : State) : String :=
  let locals := ", ".intercalate (state.locals.toList.map describeSlot)
  s!"State \x7b stack: {state.stack.describe}, locals: [{locals}], locks: {describeLocks state.locks} \x7d"

end State

end ClassForge
