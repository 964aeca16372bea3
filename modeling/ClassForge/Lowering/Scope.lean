import ClassForge.Lowering.Context

namespace ClassForge

/-- The code of a `finally` block, as it is lowered outside of its statement. -/
structure Finalizer where
  line : Option UInt16
  code : Lowering Unit

inductive Scope where
  | loop
  | switch
  | labelled (label : String)
  /-- A `try` statement, and if its finalizer is a subroutine. -/
  | guarded (finalizer : Option Finalizer) (subroutine : Bool)
  | synchronized (lock : UInt16)

namespace Scope

def isLoop : Scope → Bool
  | .loop => true
  | _ => false

def hasLabel (label : String) : Scope → Bool
  | .labelled name => name == label
  | _ => false

def hasFinalizer : Scope → Bool
  | .guarded (some _) _ | .synchronized _ => true
  | _ => false

def finalizer? : Scope → Option Finalizer
  | .guarded finalizer _ => finalizer
  | _ => none

def breakTarget? (scopes : List Scope) : Option String → Option Nat
  | none => scopes.findIdx? fun
    | .loop | .switch => true
    | _ => false
  | some label => scopes.findIdx? (hasLabel label)

def continueTarget? (scopes : List Scope) : Option String → Option Nat
  | none => scopes.findIdx? isLoop
  | some label => do
    let inner := scopes.take (← scopes.findIdx? (hasLabel label))
    let above ← inner.reverse.findIdx? isLoop
    return inner.length - 1 - above

end Scope

namespace Lowering

def breakTarget (scopes : List Scope) (label : Option String) : Lowering Nat := do
  match Scope.breakTarget? scopes label, label with
  | some depth, _ => return depth
  | none, some label => fail (.unknownBreakLabel label)
  | none, none => fail .breakOutside

def continueTarget (scopes : List Scope) (label : Option String) : Lowering Nat := do
  match Scope.continueTarget? scopes label, label with
  | some depth, _ => return depth
  | none, some label => fail (.badContinueLabel label)
  | none, none => fail .continueOutside

def restoreLine (line : Option UInt16) : Lowering Unit :=
  match line with
  | some _ => Asm.beginStatement line
  | none => Asm.clearLine

def markGap (depth : Nat) : Lowering Unit := do
  let pc ← Asm.position
  changeRecord depth fun record => { record with gaps := record.gaps.push pc }

def releaseMonitor (lock : UInt16) : Lowering Unit := do
  if ← isAlive then
    Asm.emit (.load .ref lock)
    Asm.emit .monitorExit
    Asm.changeState (← buffer).code.size (·.unlock lock)

/-- What it takes to leave the statement at a depth. Its handlers do not cover this code. -/
def finalize (depth : Nat) (scope : Scope) : Lowering Unit := do
  if ← isAlive then
    match scope with
    | .guarded finalizer true =>
      if finalizer.isSome then
        let call ← Asm.jsr
        let calls ← Asm.mergeChains (← record depth).calls call
        changeRecord depth ({ · with calls })
      markGap depth
    | .guarded finalizer false =>
      markGap depth
      match finalizer with
      | some finalizer => outside (depth + 1) finalizer.code
      | none => pure ()
    | .synchronized lock =>
      releaseMonitor lock
      markGap depth
    | .loop | .switch | .labelled _ => pure ()

def endGap (depth : Nat) : Lowering Unit := do
  if (← record depth).inGap then markGap depth

def unwindFrom (depth : Nat) : List Scope → Lowering Unit
  | [] => pure ()
  | scope :: rest => do
    finalize depth scope
    unwindFrom (depth + 1) rest

def unwind (scopes : List Scope) : Lowering Unit := unwindFrom 0 scopes

def endGapsFrom (depth : Nat) : Nat → Lowering Unit
  | 0 => pure ()
  | count + 1 => do
    endGap depth
    endGapsFrom (depth + 1) count

def endGaps (scopes : List Scope) : Lowering Unit := endGapsFrom 0 scopes.length

def leave (scopes : List Scope) (depth : Nat) : Lowering Chain := do
  let line ← pendingLine
  unwind (scopes.take (depth + 1))
  restoreLine line
  Asm.branch .goto

def genBreak (scopes : List Scope) (label : Option String) : Lowering Unit := do
  let depth ← breakTarget scopes label
  let jump ← leave scopes depth
  let exit ← Asm.mergeChains (← record depth).exit jump
  changeRecord depth ({ · with exit })
  endGaps (scopes.take (depth + 1))

def genContinue (scopes : List Scope) (label : Option String) : Lowering Unit := do
  let depth ← continueTarget scopes label
  let jump ← leave scopes depth
  let next ← Asm.mergeChains (← record depth).next jump
  changeRecord depth ({ · with next })
  endGaps (scopes.take (depth + 1))

end Lowering

end ClassForge
