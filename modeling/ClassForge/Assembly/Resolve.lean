import ClassForge.Assembly.Buffer

namespace ClassForge

namespace Asm

def landing (buffer : Buffer) (wide : Bool) (target : Nat) : Nat :=
  if buffer.code.size ≤ target then buffer.code.size
  else if !wide && buffer.code.getD target 0 == Opcode.goto then
    (target + buffer.offset16 (target + 1)).toNat
  else target

def patch (pc target : Nat) : Asm Unit := do
  let offset : Int := target - pc
  if (← read).wide then
    modify (·.overwrite (pc + 1) (Bytes.ofWord32 (Int32.ofInt offset).toUInt32))
  else if -0x8000 ≤ offset ∧ offset ≤ 0x7FFF then
    modify (·.overwrite (pc + 1) (Bytes.ofWord16 (Int16.ofInt offset).toUInt16))
  else modify ({ · with needsWide := true })

/-- A jump has arrived at the target. If that is the current position, it becomes reachable and
the state is merged with those that have arrived before. -/
def arrive (site : JumpSite) (target : Nat) (merged : Option State) : Asm (Option State) := do
  modify ({ · with fixed := true })
  let buffer ← get
  if buffer.code.size = target then
    if buffer.alive then
      match site.state.join (← read).hierarchy (merged.getD buffer.state) with
      | .ok state => return some state
      | .error cause => fault target cause
    else
      modify ({ · with alive := true })
      return some site.state
  else return merged

/-- Patch the jumps of a chain, merging the states of those that land at the current position. -/
def resolveSites (target : Nat) (merged : Option State) : Chain → Asm (Option State)
  | [] => return merged
  | site :: rest => do
    let buffer ← get
    let landing := landing buffer (← read).wide target
    let opcode := buffer.code.getD site.pc 0
    let length := buffer.code.size
    if opcode = Opcode.goto ∧ site.pc + 3 = landing ∧ landing = length ∧ !buffer.fixed then
      modify (·.retract 3)
      if rest.isEmpty then
        modify ({ · with alive := true })
        return merged
      else
        resolveSites target (← arrive site (landing - 3) merged) rest
    else
      if !Opcode.isJump opcode then fault length (.notABranch site.pc)
      patch site.pc landing
      let current := merged.getD buffer.state
      if buffer.alive && (site.state.depth != current.depth || site.state.locks != current.locks)
      then fault length (.jumpDiffers site.pc landing site.state.stack current.stack)
      resolveSites target (← arrive site landing merged) rest

def resolveTo (chain : Chain) (target : Nat) : Asm Unit := do
  if !chain.isEmpty then
    modify fun buffer => { buffer with unresolved := buffer.unresolved - chain.length }
    match ← resolveSites target none chain with
    | some state =>
      let due := (← read).settings.stackMaps
      modify fun buffer => { buffer.withState state with frameDue := due }
    | none => pure ()

def takePending : Asm Chain :=
  modifyGet fun buffer => (buffer.pending, { buffer with pending := [] })

def resolvePending : Asm Unit := do
  let pending ← takePending
  resolveTo pending (← length)

def mergeChains (chain other : Chain) : Asm Chain := do
  match chain.merge other with
  | .ok merged => return merged
  | .error cause => fault (← length) cause

def resolve (chain : Chain) : Asm Unit := do
  let pending ← takePending
  let merged ← mergeChains chain pending
  modify ({ · with pending := merged })

def position : Asm Nat := do
  resolvePending
  markLine
  modify ({ · with fixed := true })
  length

def entryPoint : Asm Nat := do
  let pc ← position
  let due := (← read).settings.stackMaps
  modify ({ · with alive := true, frameDue := due })
  return pc

def entryPointWith (state : State) (pushed : Option VType) : Asm Nat := do
  let pc ← position
  let due := (← read).settings.stackMaps
  let state := match pushed with
    | some type => state.push type
    | none => state
  modify fun buffer => { buffer.withState state with alive := true, frameDue := due }
  return pc

end Asm

end ClassForge
