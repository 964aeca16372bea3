import ClassForge.Assembly.Resolve

namespace ClassForge

namespace Asm

/-- Mark a register as assigned with its declared type, which starts its live range. -/
def setDefined (register : UInt16) : Asm Unit := modify fun buffer =>
  match buffer.locals.getD register.toNat none with
  | some var =>
    let pc := buffer.code.size
    let start := match var.start with
      | none => if pc < maxCodeLength then some pc else none
      | start => start
    { buffer with
      state := buffer.state.setLocal register var.type
      locals := buffer.locals.setIfInBounds register.toNat (some { var with start }) }
  | none => buffer

/-- What comes before the first byte of an instruction. The code is dead if this is false. -/
def beginInstruction : Asm Bool := do
  resolvePending
  if (← get).alive then
    markLine
    if (← get).frameDue then
      modify ({ · with frameDue := false })
      recordFrame
    return true
  else return false

def emit (instruction : Instruction) : Asm Unit := do
  if ← beginInstruction then
    let pc ← length
    let bytes ← pool instruction.encode
    modify (·.append bytes)
    let thisClass := (← read).thisClass
    changeState pc fun state => state.apply thisClass pc instruction
    noteDepth
    match instruction with
    | .store _ register => setDefined register
    | _ => if instruction.isTerminal then markDead

def emitAll (instructions : List Instruction) : Asm Unit := instructions.forM emit

def popValues : Nat → State → Except Fault State
  | 0, state => .ok state
  | count + 1, state => do
    let (_, rest) ← state.pop
    popValues count rest

def jumpBytes (wide : Bool) (opcode : UInt8) : Option (Bytes × Nat) :=
  if !wide then some ([opcode, 0, 0], 3)
  else if opcode = Opcode.goto then some ([Opcode.gotoWide, 0, 0, 0, 0], 5)
  else if opcode = Opcode.jsr then some ([Opcode.jsrWide, 0, 0, 0, 0], 5)
  else (Opcode.negate? opcode).map fun negated =>
    ([negated, 0, 8, Opcode.gotoWide, 0, 0, 0, 0], 5)

/-- Emit a jump that is still to be patched, and give its position. -/
def emitJump (opcode : UInt8) (pops : Nat) : Asm Nat := do
  if ← beginInstruction then
    modify fun buffer => { buffer with unresolved := buffer.unresolved + 1 }
    changeState (← length) (popValues pops)
    let context ← read
    match jumpBytes context.wide opcode with
    | none => fault (← length) (.notABranch (← length))
    | some (bytes, back) =>
      modify (·.append bytes)
      if opcode = Opcode.goto then markDead
      else if context.wide && opcode != Opcode.jsr then
        modify ({ · with frameDue := context.settings.stackMaps })
      return (← length) - back
  else length

/-- Emit a jump. An unconditional one takes the pending jumps along, since they would only jump
to it. Dead code does not jump, and neither does `never`. -/
def branch (jump : Jump) : Asm Chain := do
  let absorbed ← if jump = .goto then takePending else pure []
  match jump.opcode? with
  | some opcode =>
    if ← isAlive then
      let pc ← emitJump opcode jump.pops
      let chain ← mergeChains [⟨pc, (← get).state⟩] absorbed
      let wide := (← read).wide
      modify ({ · with fixed := wide })
      return chain
    else return absorbed
  | none => return absorbed

def jsr : Asm Chain := do
  if ← isAlive then
    let pc ← emitJump Opcode.jsr 0
    return [⟨pc, (← get).state.push .returnAddress⟩]
  else return []

def emitSwitch (table : Bool) : Asm (Option Nat) := do
  if ← beginInstruction then
    let pc ← length
    modify (·.append [if table then Opcode.tableSwitch else Opcode.lookupSwitch])
    changeState pc (popValues 1)
    return some pc
  else return none

def align (alignment : Nat) : Asm Unit := modify fun buffer =>
  if buffer.alive then
    let beyond := buffer.code.size % alignment
    buffer.append (List.replicate (if beyond = 0 then 0 else alignment - beyond) 0)
  else buffer

def emitWord (value : Int32) : Asm Unit := modify fun buffer =>
  if buffer.alive then buffer.append (Bytes.ofWord32 value.toUInt32) else buffer

def putWord (pc : Nat) (value : Int32) : Asm Unit :=
  modify (·.overwrite pc (Bytes.ofWord32 value.toUInt32))

end Asm

end ClassForge
