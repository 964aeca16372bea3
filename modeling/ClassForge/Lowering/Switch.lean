import ClassForge.Lowering.Expr
import ClassForge.Lowering.Scope

namespace ClassForge

/-- A group of a switch with the code of its body. -/
structure SwitchCase where
  labels : List Int32
  isDefault : Bool
  code : Lowering Unit

/-- Where the parts of a switch instruction are. -/
structure SwitchLayout where
  table : Bool
  low : Int
  high : Int
  /-- Position of the opcode, which offsets count from. -/
  start : Nat
  /-- Position of the default offset. -/
  base : Nat

namespace SwitchLayout

def prefersTable (labels : Nat) (low high : Int) : Bool :=
  let tableSpace := 4 + (high - low + 1)
  let tableTime := 3
  let listSpace := 3 + 2 * labels
  let listTime := labels
  0 < labels && tableSpace + 3 * tableTime ≤ listSpace + 3 * listTime

def lowest (labels : List Int32) : Int := ((labels.map (·.toInt)).min?).getD 0

def highest (labels : List Int32) : Int := ((labels.map (·.toInt)).max?).getD (-1)

def span (layout : SwitchLayout) : Nat := (layout.high - layout.low + 1).toNat

def slot (layout : SwitchLayout) (place : Nat) : Nat := layout.base + 4 * (place + 3)

def pair (layout : SwitchLayout) (place : Nat) : Nat := layout.base + 8 * (place + 1)

end SwitchLayout

namespace Lowering

def emitWords (value : Int32) : Nat → Lowering Unit
  | 0 => pure ()
  | count + 1 => do
    Asm.emitWord value
    emitWords value count

/-- Emit the instruction with all offsets still open. There is none in dead code. -/
def openSwitch (labels : List Int32) : Lowering (Option SwitchLayout) := do
  let low := SwitchLayout.lowest labels
  let high := SwitchLayout.highest labels
  let table := SwitchLayout.prefersTable labels.length low high
  match ← Asm.emitSwitch table with
  | none => return none
  | some start =>
    Asm.align 4
    let layout := ⟨table, low, high, start, (← buffer).code.size⟩
    Asm.emitWord (-1)
    if table then
      Asm.emitWord (Int32.ofInt low)
      Asm.emitWord (Int32.ofInt high)
      emitWords (-1) layout.span
    else
      Asm.emitWord (Int32.ofNat labels.length)
      emitWords (-1) (2 * labels.length)
    return some layout

def switchOffset (layout : SwitchLayout) (pc : Nat) : Lowering Int32 := do
  if pc - layout.start < 0x80000000 then return Int32.ofNat (pc - layout.start)
  else throw (.codeTooLarge pc)

def fillTable (layout : SwitchLayout) (offset : Int32) : List Int32 → Lowering Unit
  | [] => pure ()
  | label :: rest => do
    Asm.putWord (layout.slot (label.toInt - layout.low).toNat) offset
    fillTable layout offset rest

/-- The cases one after another, each of them entered in the state of the switch. The result has
the labels with their offsets, in reverse. -/
def genCases (layout : SwitchLayout) (state : State) (found : List (Int32 × Int32)) :
    List SwitchCase → Lowering (List (Int32 × Int32))
  | [] => return found
  | case :: rest => do
    let pc ← Asm.entryPointWith state none
    let offset ← switchOffset layout pc
    if layout.table then fillTable layout offset case.labels
    if case.isDefault then Asm.putWord layout.base offset
    case.code
    genCases layout state ((case.labels.map (·, offset)).reverse ++ found) rest

def completeTable (layout : SwitchLayout) (offset : Int32) (place : Nat) : Nat → Lowering Unit
  | 0 => pure ()
  | count + 1 => do
    if (← buffer).word32 (layout.slot place) == -1 then Asm.putWord (layout.slot place) offset
    completeTable layout offset (place + 1) count

def fillList (layout : SwitchLayout) (place : Nat) : List (Int32 × Int32) → Lowering Unit
  | [] => pure ()
  | (label, offset) :: rest => do
    Asm.putWord (layout.pair place) label
    Asm.putWord (layout.pair place + 4) offset
    fillList layout (place + 1) rest

/-- A switch over an `int`. Without a default case other values go to its end. -/
def genSwitch (selector : Lowering Item) (cases : List SwitchCase) : Lowering Unit := do
  let limit ← nextRegister
  let selected ← loadAs .int selector
  if cases.isEmpty then
    selected.drop
    Asm.endScopes limit
  else
    match ← openSwitch (cases.flatMap (·.labels)) with
    | none => pure ()
    | some layout =>
      let state := (← buffer).state
      Asm.markDead
      let (found, record) ← enclosed (genCases layout state [] cases)
      Asm.resolve (record.exit.undefineFrom limit)
      if (← buffer).word32 layout.base == -1 then
        let pc ← Asm.entryPointWith state none
        Asm.putWord layout.base (← switchOffset layout pc)
      if layout.table then
        completeTable layout ((← buffer).word32 layout.base) 0 layout.span
      else
        fillList layout 0 (found.reverse.mergeSort fun a b => a.1 ≤ b.1)
      Asm.endScopes limit

end Lowering

end ClassForge
