import ClassForge.Error
import ClassForge.Machine.Effect

namespace ClassForge

def maxCodeLength : Nat := 0xFFFF
def maxLocalCount : Nat := 0xFFFF
def maxStackDepth : Nat := 0xFFFF

/-- Which tables go with the code. -/
structure CodeSettings where
  stackMaps : Bool
  lineNumbers : Bool
  localVariables : Bool
  deriving DecidableEq, Repr

/-- Name and type of a source variable; the generic signature is there if it says more. -/
structure LocalDebug where
  name : UnqualifiedName
  descriptor : FieldType
  signature : Option String
  deriving DecidableEq, Repr

/-- A register in scope: its declared type, the variable it holds unless it is a temporary, and
the position from which it is assigned. -/
structure LocalVar where
  type : VType
  debug : Option LocalDebug
  start : Option Nat

/-- A finished live range of a variable. -/
structure LocalRange where
  start : Nat
  length : Nat
  register : UInt16
  debug : LocalDebug

/-- Row of the exception table; without a class everything is caught. -/
structure CatchEntry where
  start : UInt16
  stop : UInt16
  handler : UInt16
  catchType : Option BinaryName
  deriving DecidableEq, Repr

/-- What stays the same while a method is assembled. In wide mode every jump has a 32-bit
offset. -/
structure Context where
  hierarchy : ClassGraph
  thisClass : BinaryName
  settings : CodeSettings
  wide : Bool

structure Buffer where
  pool : Pool
  code : Array UInt8
  /-- State of the machine at the current position. -/
  state : State
  /-- The current position can be reached from the instruction before it. -/
  alive : Bool
  /-- A 16-bit jump offset did not fit, so the method has to be assembled in wide mode. -/
  needsWide : Bool
  /-- The current position has been observed; no code before it may be removed. -/
  fixed : Bool
  /-- Jumps to the current position that have not been patched. -/
  pending : Chain
  /-- Number of jumps emitted and not patched. -/
  unresolved : Nat
  /-- A frame is due before the next instruction. -/
  frameDue : Bool
  /-- Line of the statement that the next instruction starts. -/
  pendingLine : Option UInt16
  lines : Array (Nat × UInt16)
  maxStack : Nat
  maxLocals : Nat
  /-- First register that is not in use. -/
  nextRegister : Nat
  locals : Array (Option LocalVar)
  ranges : Array LocalRange
  initialFrame : VFrame
  frames : Array (Nat × VFrame)
  catches : Array CatchEntry

abbrev Asm := ReaderT Context (EStateM Error Buffer)

namespace Buffer

/-- No code yet; the start of a method can be reached. -/
def empty (pool : Pool) : Buffer where
  pool := pool
  code := #[]
  state := .empty
  alive := true
  needsWide := false
  fixed := false
  pending := []
  unresolved := 0
  frameDue := false
  pendingLine := none
  lines := #[]
  maxStack := 0
  maxLocals := 0
  nextRegister := 0
  locals := #[]
  ranges := #[]
  initialFrame := ⟨.empty 0, .empty 0⟩
  frames := #[]
  catches := #[]

def isAlive (buffer : Buffer) : Bool := buffer.alive || !buffer.pending.isEmpty

def append (buffer : Buffer) (bytes : Bytes) : Buffer :=
  { buffer with code := bytes.foldl Array.push buffer.code }

def withState (buffer : Buffer) (state : State) : Buffer :=
  { buffer with state, maxStack := max buffer.maxStack state.depth }

def offset16 (buffer : Buffer) (at_ : Nat) : Int :=
  (Bytes.toWord16 (buffer.code.getD at_ 0) (buffer.code.getD (at_ + 1) 0)).toInt16.toInt

def word32 (buffer : Buffer) (at_ : Nat) : Int32 :=
  let byte := fun i => buffer.code.getD (at_ + i) 0
  (Bytes.toWord32 (Bytes.toWord16 (byte 0) (byte 1)) (Bytes.toWord16 (byte 2) (byte 3))).toInt32

def overwrite (buffer : Buffer) (at_ : Nat) (bytes : Bytes) : Buffer :=
  let step := fun ((code, i) : Array UInt8 × Nat) byte => (code.setIfInBounds i byte, i + 1)
  { buffer with code := (bytes.foldl step (buffer.code, at_)).1 }

/-- Drop the last bytes of the code, and what was recorded about positions that are gone. -/
def retract (buffer : Buffer) (count : Nat) : Buffer :=
  let length := buffer.code.size - count
  let dropLate {α : Type} (rows : Array (Nat × α)) : Array (Nat × α) :=
    match rows.back? with
    | some (pc, _) => if length < pc then rows.pop else rows
    | none => rows
  { buffer with
    code := buffer.code.shrink length
    locals := buffer.locals.map (Option.map fun var =>
      { var with start := var.start.map (min · length) })
    frames := dropLate buffer.frames
    lines := dropLate buffer.lines }

end Buffer

namespace Asm

def pool {α : Type} (action : PoolM α) : Asm α := fun _ buffer =>
  match action buffer.pool with
  | .ok a pool => .ok a { buffer with pool }
  | .error e pool => .error (.pool e) { buffer with pool }

def fault {α : Type} (pc : Nat) (fault : Fault) : Asm α := throw (.machine pc fault)

def changeState (pc : Nat) (change : State → Except Fault State) : Asm Unit := fun _ buffer =>
  match change buffer.state with
  | .ok state => .ok () { buffer with state }
  | .error fault => .error (.machine pc fault) { buffer with state := .empty }

def length : Asm Nat := return (← get).code.size

def isAlive : Asm Bool := return (← get).isAlive

def markDead : Asm Unit := modify ({ · with alive := false })

def noteDepth : Asm Unit :=
  modify fun buffer => { buffer with maxStack := max buffer.maxStack buffer.state.depth }

def beginBody : Asm Unit := modify fun buffer =>
  { buffer with alive := true, initialFrame := buffer.state.frame, frameDue := false }

def recordFrame : Asm Unit := do
  if (← read).settings.stackMaps then
    modify fun buffer =>
      let pc := buffer.code.size
      let earlier := match buffer.frames.back? with
        | some (last, _) => if last = pc then buffer.frames.pop else buffer.frames
        | none => buffer.frames
      { buffer with frames := earlier.push (pc, buffer.state.frame) }

def beginStatement (line : Option UInt16) : Asm Unit := do
  if line.isSome then modify ({ · with pendingLine := line })

def clearLine : Asm Unit := modify ({ · with pendingLine := none })

def addLine (rows : Array (Nat × UInt16)) (pc : Nat) (line : UInt16) : Array (Nat × UInt16) :=
  let earlier := match rows.back? with
    | some (last, _) => if last = pc then rows.pop else rows
    | none => rows
  match earlier.back? with
  | some (_, last) => if last = line then earlier else earlier.push (pc, line)
  | none => earlier.push (pc, line)

/-- Record the pending line, if there is one, for the current position. -/
def markLine : Asm Unit := do
  let recorded := (← read).settings.lineNumbers
  modify fun buffer =>
    match buffer.pendingLine with
    | some line =>
      if buffer.alive && recorded then
        { buffer with
          pendingLine := none
          lines := addLine buffer.lines buffer.code.size line }
      else { buffer with pendingLine := none }
    | none => buffer

end Asm

end ClassForge
