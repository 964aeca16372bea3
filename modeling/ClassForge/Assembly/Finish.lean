import ClassForge.Assembly.Build
import ClassForge.Assembly.Scope

namespace ClassForge

namespace Asm

def attributeOf (payload : Payload) : Asm Attribute := build (Build.attributeOf payload)

def addCatch (entry : CatchEntry) : Asm Unit :=
  modify fun buffer => { buffer with catches := buffer.catches.push entry }

def compressCatches : Asm Unit := modify fun buffer =>
  let handlers := buffer.catches.map (·.handler)
  { buffer with catches := buffer.catches.filter fun entry =>
      !(entry.start == entry.stop ||
        entry.start + 1 == entry.stop && handlers.contains entry.start) }

def checkLimits : Asm Unit := do
  let buffer ← get
  if buffer.code.size > maxCodeLength then throw (.codeTooLarge buffer.code.size)
  if buffer.maxLocals > maxLocalCount then throw (.tooManyLocals buffer.maxLocals)
  if buffer.maxStack > maxStackDepth then throw (.stackTooDeep buffer.maxStack)

def handlerOf (entry : CatchEntry) : Asm ExceptionHandler := do
  let catchType ← match entry.catchType with
    | none => pure 0
    | some name => pool (Pool.classRef (.object name))
  return ⟨entry.start, entry.stop, entry.handler, catchType⟩

/-- Rows of the variable table for a live range, and of the table of generic types. -/
def variablesOf (range : LocalRange) : Asm (LocalVariable × Option LocalVariable) := do
  let name ← pool (Pool.utf8 range.debug.name.text)
  let type ← pool (Pool.utf8 range.debug.descriptor.render)
  let row : LocalVariable :=
    ⟨UInt16.ofNat range.start, UInt16.ofNat range.length, name, type, range.register⟩
  match range.debug.signature with
  | none => return (row, none)
  | some signature =>
    let type ← pool (Pool.utf8 signature)
    return (row, some { row with type })

def classFrame (frame : VFrame) : Asm CFrame :=
  frame.mapM (fun type => pool (Pool.classRef type)) fun site => pure site.pc

def compressFrames (previous : CFrame) (offset : Nat) (table : Array MapFrame) :
    List (Nat × VFrame) → Asm (Array MapFrame)
  | [] => return table
  | (pc, frame) :: rest => do
    let frame ← classFrame frame
    let change := frame.compress (UInt16.ofNat (pc - offset)) previous
    compressFrames frame (pc + 1) (table.push change) rest

def lineTable : Asm (List Attribute) := do
  let rows := (← get).lines
  if (← read).settings.lineNumbers && !rows.isEmpty then
    let rows := rows.toList.map fun (pc, line) => ⟨UInt16.ofNat pc, line⟩
    return [← attributeOf (.lineNumbers rows)]
  else return []

def variableTables : Asm (List Attribute) := do
  let ranges := (← get).ranges
  if (← read).settings.localVariables && !ranges.isEmpty then
    let rows ← ranges.toList.mapM variablesOf
    let table ← attributeOf (.localVariables (rows.map (·.1)))
    match rows.filterMap (·.2) with
    | [] => return [table]
    | typed => return [table, ← attributeOf (.localVariableTypes typed)]
  else return []

def stackMapTable : Asm (List Attribute) := do
  let buffer ← get
  if (← read).settings.stackMaps && !buffer.frames.isEmpty then
    let initial ← classFrame buffer.initialFrame
    let table ← compressFrames initial 0 #[] buffer.frames.toList
    return [← attributeOf (.stackMap table.toList)]
  else return []

/-- The finished body. Every jump has to be resolved by now. -/
def finish : Asm Code := do
  checkLimits
  let buffer ← get
  if buffer.unresolved > 0 then fault buffer.code.size (.unresolvedJumps buffer.unresolved)
  let handlers ← buffer.catches.toList.mapM handlerOf
  let lines ← lineTable
  let tables ← variableTables
  let stackMap ← stackMapTable
  return {
    maxStack := UInt16.ofNat buffer.maxStack
    maxLocals := UInt16.ofNat buffer.maxLocals
    code := buffer.code.toList
    handlers
    attributes := lines ++ tables ++ stackMap }

end Asm

end ClassForge
