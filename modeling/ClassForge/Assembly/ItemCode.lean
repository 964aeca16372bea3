import ClassForge.Assembly.Scope
import ClassForge.Tree.Fold

namespace ClassForge

namespace Literal

theorem toNat_lt_seven {n : Int} (small : -1 ≤ n ∧ n ≤ 5) : (n + 1).toNat < 7 := by omega

/-- The shortest instruction that pushes the constant. Only positive zero has a short form. -/
def loadInstruction : Literal → Instruction
  | .int value =>
    if small : -1 ≤ value.toInt ∧ value.toInt ≤ 5 then
      .pushInt ⟨(value.toInt + 1).toNat, toNat_lt_seven small⟩
    else if -0x80 ≤ value ∧ value ≤ 0x7F then .pushByte value.toInt8
    else if -0x8000 ≤ value ∧ value ≤ 0x7FFF then .pushShort value.toInt16
    else .pushConstant (.integer value)
  | .long value =>
    if value = 0 then .pushLong 0
    else if value = 1 then .pushLong 1
    else .pushConstant (.long value)
  | .float bits =>
    if bits = 0 then .pushFloat 0
    else if bits = 0x3F800000 then .pushFloat 1
    else if bits = 0x40000000 then .pushFloat 2
    else .pushConstant (.float bits)
  | .double bits =>
    if bits = 0 then .pushDouble 0
    else if bits = 0x3FF0000000000000 then .pushDouble 1
    else .pushConstant (.double bits)
  | .string text => .pushConstant (.string text)

end Literal

namespace Condition

def jumpTrue (condition : Condition) : Asm Chain := do
  Asm.mergeChains condition.trueJumps (← Asm.branch condition.jump)

def jumpFalse (condition : Condition) : Asm Chain := do
  Asm.mergeChains condition.falseJumps (← Asm.branch condition.jump.negate)

/-- Push 1 if the condition holds and 0 if not. -/
def load (condition : Condition) : Asm Item := do
  let falseChain ← condition.jumpFalse
  let trueChain ← if condition.isFalse then pure [] else do
    Asm.resolve condition.trueJumps
    Asm.emit (.pushInt 2)
    Asm.branch .goto
  if !falseChain.isEmpty then
    Asm.resolve falseChain
    Asm.emit (.pushInt 1)
  Asm.resolve trueChain
  return .stack .byte

end Condition

namespace Item

def misuse {α : Type} (use : ItemUse) (item : Item) : Asm α := do
  throw (.tree (.misuse use item (← Asm.length)))

def stash (code : TypeCode) (item : Item) : Asm Unit :=
  match item with
  | .indexed _ => Asm.emit (.dupUnder code.width 2)
  | .member _ _ => Asm.emit (.dupUnder code.width 1)
  | .assign _ | .cond _ | .void => misuse .stash item
  | _ => Asm.emit (.dupOf code.width)

def store (item : Item) : Asm Unit :=
  match item with
  | .localVar code register => Asm.emit (.storeOf code register)
  | .static (.field ref) => Asm.emit (.putStatic ref)
  | .member (.field ref) _ => Asm.emit (.putField ref)
  | .indexed code => Asm.emit (.arrayStoreOf code)
  | other => misuse .store other

def load (item : Item) : Asm Item :=
  let loaded := ofStack item.typeCode
  match item with
  | .stack code => return .stack code
  | .localVar code register => do
    Asm.emit (.loadOf code register)
    return loaded
  | .self | .super => do
    Asm.emit (.load .ref 0)
    return loaded
  | .static (.field ref) => do
    Asm.emit (.getStatic ref)
    return loaded
  | .member (.field ref) _ => do
    Asm.emit (.getField ref)
    return loaded
  | .indexed code => do
    Asm.emit (.arrayLoadOf code)
    return loaded
  | .immediate value _ => do
    Asm.emit value.loadInstruction
    return loaded
  | .assign target => do
    target.stash target.typeCode
    target.store
    return loaded
  | .cond condition => condition.load
  | .void | .static (.method _) | .member (.method _) _ => misuse .load item

/-- Call the method. Receiver and arguments are on the stack. -/
def invoke (item : Item) : Asm Item := do
  match item with
  | .static (.method ref) => Asm.emit (.invoke .static ref)
  | .member (.method ref) nonvirtual =>
    let mode := if nonvirtual then .special
      else if ref.ownerIsInterface then .interface
      else .virtual
    Asm.emit (.invoke mode ref)
  | other => misuse .invoke other
  return ofStack item.typeCode

def duplicateOperands (item : Item) : Asm Unit :=
  match item with
  | .stack code => Asm.emit (.dupOf code.width)
  | .indexed _ => Asm.emit (.stack .dup2)
  | .member _ _ => Asm.emit (.stack .dup)
  | _ => pure ()

def duplicate (item : Item) : Asm Unit := do
  match item with
  | .assign _ | .cond _ => (← item.load).duplicateOperands
  | item => item.duplicateOperands

def dropOperands (item : Item) : Asm Unit :=
  match item with
  | .stack code => if code = .void then pure () else Asm.emit (.popOf code.width)
  | .indexed _ => Asm.emit (.stack .pop2)
  | .member _ _ => Asm.emit (.stack .pop)
  | _ => pure ()

def drop (item : Item) : Asm Unit := do
  match item with
  | .assign target => target.store
  | .cond _ => (← item.load).dropOperands
  | item => item.dropOperands

/-- Convert the item to another kind. Constants are converted right away. -/
def coerce (code : TypeCode) (item : Item) : Asm Item := do
  if item.typeCode = code then return item
  let folded := match item with
    | .immediate value _ => value.coerce? code
    | _ => none
  match folded with
  | some value => return .immediate value code
  | none =>
    discard item.load
    Asm.emitAll (Instruction.conversions item.typeCode code)
    return ofStack code

def toCondition (item : Item) : Asm Condition := do
  match item with
  | .cond condition => return condition
  | .immediate (.int value) _ => return .ofJump (if value = 0 then .never else .goto)
  | other =>
    discard other.load
    return .ofJump (.ifZero .ne)

def increment (delta : Int32) (item : Item) : Asm Unit := do
  match item with
  | .localVar code register =>
    if code = .int ∧ -0x8000 ≤ delta ∧ delta ≤ 0x7FFF then
      Asm.emit (.increment register delta.toInt16)
    else
      discard item.load
      if 0 ≤ delta then
        Asm.emit (Literal.int delta).loadInstruction
        Asm.emit (.arithmetic .add .int)
      else
        Asm.emit (Literal.int (-delta)).loadInstruction
        Asm.emit (.arithmetic .sub .int)
      discard ((Item.stack .int).coerce code)
      item.store
  | other => misuse .increment other

end Item

end ClassForge
