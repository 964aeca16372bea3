import ClassForge.Assembly.Emit

namespace ClassForge

namespace Asm

/-- Give a variable or temporary the next free register. -/
def newLocal (type : VType) (debug : Option LocalDebug) : Asm UInt16 := do
  let first := (← get).nextRegister
  let next := first + type.width
  modify ({ · with nextRegister := next })
  if next > maxLocalCount then throw (.tooManyLocals next)
  modify fun buffer =>
    let room := buffer.locals ++ Array.replicate (next - buffer.locals.size) none
    { buffer with
      maxLocals := max buffer.maxLocals next
      locals := room.setIfInBounds first (some ⟨type, debug, none⟩)
      state := buffer.state.undefine (UInt16.ofNat first) }
  return UInt16.ofNat first

def newSegment : Asm Unit := modify fun buffer =>
  { buffer with nextRegister := buffer.maxLocals }

/-- End the scope of one register. The live range of a variable that has been assigned ends at
the current position. -/
def endScope (register : UInt16) : Asm Unit := do
  let var := (← get).locals.getD register.toNat none
  modify fun buffer =>
    { buffer with locals := buffer.locals.setIfInBounds register.toNat none }
  match var with
  | some ⟨_, some debug, some start⟩ =>
    let length := (← position) - start
    if length < maxCodeLength then
      modify fun buffer =>
        { buffer with ranges := buffer.ranges.push ⟨start, length, register, debug⟩ }
  | _ => pure ()
  modify fun buffer => { buffer with state := buffer.state.undefine register }

def endScopesFrom (register : Nat) : Nat → Asm Unit
  | 0 => pure ()
  | count + 1 => do
    endScope (UInt16.ofNat register)
    endScopesFrom (register + 1) count

def endScopes (first : UInt16) : Asm Unit := do
  let previous := (← get).nextRegister
  modify ({ · with nextRegister := first.toNat })
  endScopesFrom first.toNat (previous - first.toNat)

end Asm

end ClassForge
