import ClassForge.Instruction
import ClassForge.Machine.State

namespace ClassForge

abbrev Effect (α : Type) := StateT State (Except Fault) α

def VType.ofClass (name : BinaryName) : VType := .object (.object name)

namespace NumKind

def type : NumKind → VType
  | .int => .integer
  | .long => .long
  | .float => .float
  | .double => .double

end NumKind

def Kind.type : Kind → VType
  | .num kind => kind.type
  | .ref => .null

def ElementKind.type : ElementKind → VType
  | .num kind => kind.type
  | .ref => .null
  | .byte | .char | .short => .integer

def IntegerWidth.type : IntegerWidth → VType
  | .int => .integer
  | .long => .long

def FloatWidth.type : FloatWidth → VType
  | .float => .float
  | .double => .double

def Loadable.type : Loadable → VType
  | .integer _ => .integer
  | .float _ => .float
  | .long _ => .long
  | .double _ => .double
  | .string _ => .ofClass .string
  | .classRef _ => .ofClass .classObject

namespace Effect

def push (type : VType) : Effect Unit := modify (·.push type)

def pop : Effect VType := fun state => state.pop

def fail {α : Type} (fault : Fault) : Effect α := fun _ => .error fault

def popExpecting (expected : VType) : Effect VType := do
  let found ← pop
  if (if expected.isReference then found.isReference else found == expected) then return found
  else fail (.invalidType (some expected) found)

def popReference : Effect VType := popExpecting .null

def popInt : Effect Unit := discard (popExpecting .integer)

/-- Take values off the stack until they cover the slots; they are returned bottom first. -/
def popSlotsOnto (slots : Nat) (covered : Nat) (popped : List VType) : Effect (List VType) :=
  if covered < slots then do
    let type ← pop
    popSlotsOnto slots (covered + type.width) (type :: popped)
  else if covered = slots then return popped
  else fail (.invalidWidth covered)
termination_by slots - covered
decreasing_by
  have wide := type.width_pos
  omega

def popSlots (slots : Nat) : Effect (List VType) := popSlotsOnto slots 0 []

def pushAll (types : List VType) : Effect Unit := types.forM push

def unary (argument result : VType) : Effect Unit := do
  discard (popExpecting argument)
  push result

def binary (left right result : VType) : Effect Unit := do
  discard (popExpecting right)
  discard (popExpecting left)
  push result

def duplicate (slots under : Nat) : Effect Unit := do
  let top ← popSlots slots
  let below ← popSlots under
  pushAll top
  pushAll below
  pushAll top

def loadLocal (kind : Kind) (register : UInt16) : Effect Unit := do
  let expected := kind.type
  match (← get).local? register with
  | some found =>
    if found = expected ∨ (expected.isReference ∧ found.isReference) then push found
    else fail (.undefinedLocal register)
  | none => fail (.undefinedLocal register)

def storeLocal (kind : Kind) (register : UInt16) : Effect Unit := do
  let type ← match kind with
    | .ref => do
      let found ← pop
      if found = .returnAddress ∨ found.isReference then pure found
      else fail (.invalidType none found)
    | .num kind => popExpecting kind.type
  modify (·.setLocal register type)

def elementOf : VType → Effect VType
  | .object array =>
    match array.elementType with
    | some (.ref element) => pure (.object element)
    | _ => fail (.notArray array)
  | _ => pure (.ofClass .object)

def constructed (thisClass : BinaryName) : VType → VType
  | .uninitializedThis => .ofClass thisClass
  | .uninitialized site => .ofClass site.name
  | other => other

def call (thisClass : BinaryName) (method : MethodRef) : Effect Unit := do
  method.descriptor.parameters.reverse.forM fun parameter =>
    discard (popExpecting (.ofFieldType parameter))
  if !method.isStatic then
    let receiver ← popReference
    if method.isConstructor then
      modify (·.replace receiver (constructed thisClass receiver))
  match method.descriptor.result with
  | some type => push (.ofFieldType type)
  | none => pure ()

def popInts : Nat → Effect Unit
  | 0 => pure ()
  | count + 1 => do
    popInt
    popInts count

def rearrange : StackOp → Effect Unit
  | .pop => discard (popSlots 1)
  | .pop2 => discard (popSlots 2)
  | .dup => duplicate 1 0
  | .dupX1 => duplicate 1 1
  | .dupX2 => duplicate 1 2
  | .dup2 => duplicate 2 0
  | .dup2X1 => duplicate 2 1
  | .dup2X2 => duplicate 2 2
  | .swap => do
    let top ← popSlots 1
    let below ← popSlots 1
    pushAll top
    pushAll below

end Effect

open Effect in
/-- The effect of an instruction at a position in a method of the given class. -/
def Instruction.effect (thisClass : BinaryName) (pc : Nat) : Instruction → Effect Unit
  | .nop | .returnVoid => pure ()
  | .pushNull => push .null
  | .pushInt _ | .pushByte _ | .pushShort _ => push .integer
  | .pushLong _ => push .long
  | .pushFloat _ => push .float
  | .pushDouble _ => push .double
  | .pushConstant constant => push constant.type
  | .load kind register => loadLocal kind register
  | .store kind register => storeLocal kind register
  | .arrayLoad element => do
    popInt
    let array ← popReference
    match element with
    | .ref => push (← elementOf array)
    | element => push element.type
  | .arrayStore element => do
    discard (popExpecting element.type)
    popInt
    discard popReference
  | .stack op => rearrange op
  | .arithmetic _ kind => binary kind.type kind.type kind.type
  | .negate kind => unary kind.type kind.type
  | .shift _ width => binary width.type .integer width.type
  | .bitwise _ width => binary width.type width.type width.type
  | .increment register _ => do
    if (← get).local? register ≠ some .integer then fail (.undefinedLocal register)
  | .convert conversion => unary conversion.source.type conversion.target.type
  | .narrow _ => unary .integer .integer
  | .compareLong => binary .long .long .integer
  | .compareFloat width _ => binary width.type width.type .integer
  | .returnValue kind => discard (popExpecting kind.type)
  | .throwValue | .monitorEnter | .monitorExit => discard popReference
  | .ret register => do
    if (← get).local? register ≠ some .returnAddress then fail (.undefinedLocal register)
  | .getStatic field => push (.ofFieldType field.descriptor)
  | .putStatic field => discard (popExpecting (.ofFieldType field.descriptor))
  | .getField field => do
    discard popReference
    push (.ofFieldType field.descriptor)
  | .putField field => do
    discard (popExpecting (.ofFieldType field.descriptor))
    discard popReference
  | .invoke _ method => call thisClass method
  | .allocate name => push (.uninitialized ⟨UInt16.ofNat pc, name⟩)
  | .newArray element => do
    popInt
    push (.object (.arrayOf (.base element)))
  | .newRefArray element => do
    popInt
    push (.object (.arrayOf (.ref element)))
  | .newMultiArray array dimensions => do
    popInts dimensions.toNat
    push (.object array)
  | .arrayLength | .instanceOf _ => do
    discard popReference
    push .integer
  | .checkCast type => do
    discard popReference
    push (.object type)

def State.apply (state : State) (thisClass : BinaryName) (pc : Nat) (instruction : Instruction) :
    Except Fault State :=
  match instruction.effect thisClass pc state with
  | .ok ((), after) => .ok after
  | .error fault => .error fault

end ClassForge
