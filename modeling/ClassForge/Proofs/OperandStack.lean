import ClassForge.Lowering.Expr
import ClassForge.Proofs.Holding
import Mathlib.Logic.Function.Basic

namespace ClassForge

inductive Place (V : Type) where
  | register (register : UInt16)
  | static (ref : FieldRef)
  | field (object : V) (ref : FieldRef)
  | element (array index : V)
  deriving DecidableEq

/-- A slot of the operand stack holds a value or one half of a wide value. -/
inductive Slot (V : Type) where
  | whole (value : V)
  | lower (value : V)
  | upper (value : V)

structure Memory (V : Type) where
  content : Place V → V
  /-- All that has been stored, the latest first. -/
  stores : List (Place V × V)

/-- The operand stack, top first, and the memory. -/
structure Machine (V : Type) where
  stack : List (Slot V)
  memory : Memory V

variable {V : Type} [DecidableEq V]

def Memory.store (memory : Memory V) (place : Place V) (value : V) : Memory V :=
  ⟨Function.update memory.content place value, (place, value) :: memory.stores⟩

@[simp] theorem Memory.content_store (memory : Memory V) (place : Place V) (value : V) :
    (memory.store place value).content place = value := by
  simp [store]

namespace Slot

def of (width : Nat) (value : V) : List (Slot V) :=
  if width = 2 then [.upper value, .lower value] else [.whole value]

def pop (width : Nat) : List (Slot V) → Option (V × List (Slot V))
  | .whole value :: rest => if width = 2 then none else some (value, rest)
  | .upper value :: .lower other :: rest =>
    if width = 2 ∧ value = other then some (value, rest) else none
  | _ => none

def popAll : List Nat → List (Slot V) → Option (List V × List (Slot V))
  | [], stack => some ([], stack)
  | width :: widths, stack => do
    let (value, stack) ← pop width stack
    let (values, stack) ← popAll widths stack
    return (value :: values, stack)

/-- The slots do not end inside a wide value. -/
def areWhole : List (Slot V) → Bool
  | [] => true
  | [.upper _] => false
  | _ :: rest => areWhole rest

def duplicate (count under : Nat) (stack : List (Slot V)) : Option (List (Slot V)) :=
  let top := stack.take count
  let below := (stack.drop count).take under
  if count + under ≤ stack.length ∧ areWhole top ∧ areWhole below then
    some (top ++ below ++ top ++ stack.drop (count + under))
  else none

@[simp] theorem pop_of (width : Nat) (value : V) (rest : List (Slot V)) :
    pop width (of width value ++ rest) = some (value, rest) := by
  by_cases wide : width = 2 <;> simp [of, pop, wide]

@[simp] theorem popAll_of (width : Nat) (widths : List Nat) (value : V) (rest : List (Slot V)) :
    popAll (width :: widths) (of width value ++ rest) =
      (popAll widths rest).map fun (values, stack) => (value :: values, stack) := by
  simp [popAll, Option.map_eq_bind]

@[simp] theorem popAll_nil (stack : List (Slot V)) : popAll [] stack = some ([], stack) := rfl

@[simp] theorem popAll_whole (widths : List Nat) (value : V) (rest : List (Slot V)) :
    popAll (1 :: widths) (.whole value :: rest) =
      (popAll widths rest).map fun (values, stack) => (value :: values, stack) :=
  popAll_of 1 widths value rest

omit [DecidableEq V] in
theorem of_kind (code : TypeCode) (value : V) :
    of code.kind.type.width value = of code.width value ∧
      of code.elementKind.type.width value = of code.width value := by
  cases code <;> exact ⟨rfl, rfl⟩

end Slot

/-- Copied slots and slots that the copy is put below. -/
def StackOp.copy? : StackOp → Option (Nat × Nat)
  | .dup => some (1, 0)
  | .dupX1 => some (1, 1)
  | .dupX2 => some (1, 2)
  | .dup2 => some (2, 0)
  | .dup2X1 => some (2, 1)
  | .dup2X2 => some (2, 2)
  | _ => none

namespace Instruction

/-- Widths of the arguments, the last one first, and of the result of an instruction that only
computes. -/
def signature? : Instruction → Option (List Nat × Nat)
  | .pushInt _ | .pushFloat _ | .pushByte _ | .pushShort _ | .allocate _ => some ([], 1)
  | .pushLong _ | .pushDouble _ => some ([], 2)
  | .pushConstant constant => some ([], constant.type.width)
  | .arithmetic _ kind => some ([kind.type.width, kind.type.width], kind.type.width)
  | .shift _ width => some ([1, width.type.width], width.type.width)
  | .bitwise _ width => some ([width.type.width, width.type.width], width.type.width)
  | .convert conversion => some ([conversion.source.type.width], conversion.target.type.width)
  | .narrow _ => some ([1], 1)
  | _ => none

/-- Width of the value that is read from a place, and the number of operands that name the place. -/
def reads? : Instruction → Option (Nat × Nat)
  | .load kind _ => some (kind.type.width, 0)
  | .getStatic ref => some ((TypeCode.ofType ref.descriptor).width, 0)
  | .getField ref => some ((TypeCode.ofType ref.descriptor).width, 1)
  | .arrayLoad kind => some (kind.type.width, 2)
  | _ => none

/-- The same for the value that is written to a place. -/
def writes? : Instruction → Option (Nat × Nat)
  | .store kind _ => some (kind.type.width, 0)
  | .putStatic ref => some ((TypeCode.ofType ref.descriptor).width, 0)
  | .putField ref => some ((TypeCode.ofType ref.descriptor).width, 1)
  | .arrayStore kind => some (kind.type.width, 2)
  | _ => none

def place? : Instruction → List V → Option (Place V)
  | .load _ register, [] | .store _ register, [] => some (.register register)
  | .getStatic ref, [] | .putStatic ref, [] => some (.static ref)
  | .getField ref, [object] | .putField ref, [object] => some (.field object ref)
  | .arrayLoad _, [index, array] | .arrayStore _, [index, array] => some (.element array index)
  | _, _ => none

end Instruction

namespace Lowering

/-- A part of an expression, whose code is built on its own. -/
inductive Part where
  /-- The object that a member belongs to. -/
  | receiver (receiver : Receiver)
  /-- What stands before a static member. -/
  | unused (receiver : Receiver)
  /-- A value of the given kind. -/
  | value (code : TypeCode) (e : Expr)
  /-- What is appended to the string builder on the stack, which stays there. -/
  | appended (e : Expr)

inductive Piece where
  | emit (instruction : Instruction)
  | part (part : Part)
  /-- From here on the value on top of the stack counts as one of the type. -/
  | retype (type : VType)

def Part.lower : Part → Lowering Unit
  | .receiver object => genReceiver object
  | .unused object => genUnused object
  | .value code e => discard (loadAs code (genItem e))
  | .appended e => genAppended e

def Piece.lower : Piece → Lowering Unit
  | .emit instruction => Asm.emit instruction
  | .part inner => inner.lower
  | .retype type => force type

def lowered (pieces : List Piece) : Lowering Unit := pieces.forM Piece.lower

end Lowering

/-- What code does that is not looked into. -/
structure Meaning (V : Type) where
  /-- The result of an instruction that only computes; the last argument comes first. -/
  compute : Instruction → List V → V
  call : MethodRef → List V → Memory V → V × Memory V
  part : Lowering.Part → List V → Memory V → V × Memory V

namespace Machine

def take (m : Machine V) (widths : List Nat) : Option (List V × Machine V) :=
  (Slot.popAll widths m.stack).map fun (values, stack) => (values, { m with stack })

def push (m : Machine V) (width : Nat) (value : V) : Machine V :=
  { m with stack := Slot.of width value ++ m.stack }

variable (meaning : Meaning V)

def step (m : Machine V) (instruction : Instruction) : Option (Machine V) :=
  match instruction with
  | .stack op => do
    let (count, under) ← op.copy?
    return { m with stack := ← Slot.duplicate count under m.stack }
  | .increment register delta =>
    let old := m.memory.content (.register register)
    let amount := meaning.compute (Literal.int delta.toInt32).loadInstruction []
    let new := meaning.compute (.arithmetic .add .int) [amount, old]
    some { m with memory := m.memory.store (.register register) new }
  | .invoke _ ref => do
    let widths := ref.descriptor.parameters.reverse.map fun type => (TypeCode.ofType type).width
    let (values, m) ← m.take (if ref.isStatic then widths else widths ++ [1])
    let (result, memory) := meaning.call ref values m.memory
    match ref.descriptor.result with
    | some type => return (⟨m.stack, memory⟩ : Machine V).push (TypeCode.ofType type).width result
    | none => return ⟨m.stack, memory⟩
  | instruction =>
    match instruction.signature?, instruction.reads?, instruction.writes? with
    | some (widths, width), _, _ => do
      let (values, m) ← m.take widths
      return m.push width (meaning.compute instruction values)
    | _, some (width, operands), _ => do
      let (values, m) ← m.take (List.replicate operands 1)
      return m.push width (m.memory.content (← instruction.place? values))
    | _, _, some (width, operands) => do
      let (values, m) ← m.take (width :: List.replicate operands 1)
      return { m with memory := m.memory.store (← instruction.place? values.tail) (← values.head?) }
    | _, _, _ => none

open Lowering (Part Piece)

def stepPart (m : Machine V) (part : Part) : Option (Machine V) := do
  let takes := match part with
    | .appended _ => [1]
    | _ => []
  let (values, m) ← m.take takes
  let (value, memory) := meaning.part part values m.memory
  let after : Machine V := ⟨m.stack, memory⟩
  match part with
  | .unused _ => return after
  | .value code _ => return after.push code.width value
  | .receiver _ | .appended _ => return after.push 1 value

def run (m : Machine V) (pieces : List Piece) : Option (Machine V) :=
  pieces.foldlM (fun m piece => match piece with
    | .emit instruction => m.step meaning instruction
    | .part inner => m.stepPart meaning inner
    | .retype _ => some m) m

section Steps

variable {meaning} {below : List (Slot V)} {memory : Memory V} {value other : V}
  {instruction : Instruction} {left right width : Nat}

/-- Pieces of code run one after another. -/
theorem run_append (m : Machine V) (first second : List Piece) :
    m.run meaning (first ++ second) = m.run meaning first >>= fun m => m.run meaning second :=
  List.foldlM_append

theorem run_cons (m : Machine V) (instruction : Instruction) (rest : List Piece) :
    m.run meaning (.emit instruction :: rest) =
      m.step meaning instruction >>= fun m => m.run meaning rest :=
  List.foldlM_cons

theorem run_emit (m : Machine V) (instruction : Instruction) :
    m.run meaning [.emit instruction] = m.step meaning instruction := by
  simp [run]

theorem step_computing {widths : List Nat} (m : Machine V)
    (computes : instruction.signature? = some (widths, width)) :
    m.step meaning instruction = (m.take widths).map fun (values, m) =>
      m.push width (meaning.compute instruction values) := by
  cases instruction <;>
    first | (cases computes; done) | simp [step, computes, Option.map_eq_bind]

theorem step_constant (computes : instruction.signature? = some ([], width)) :
    step meaning ⟨below, memory⟩ instruction =
      some ⟨Slot.of width (meaning.compute instruction []) ++ below, memory⟩ := by
  simp [step_computing _ computes, take, push]

theorem step_unary (computes : instruction.signature? = some ([left], width)) :
    step meaning ⟨Slot.of left value ++ below, memory⟩ instruction =
      some ⟨Slot.of width (meaning.compute instruction [value]) ++ below, memory⟩ := by
  simp [step_computing _ computes, take, push]

theorem step_binary (computes : instruction.signature? = some ([right, left], width)) :
    step meaning ⟨Slot.of right other ++ (Slot.of left value ++ below), memory⟩ instruction =
      some ⟨Slot.of width (meaning.compute instruction [other, value]) ++ below, memory⟩ := by
  simp [step_computing _ computes, take, push]

end Steps

end Machine

end ClassForge
