import ClassForge.Assembly.Finish
import ClassForge.Assembly.ItemCode
import ClassForge.Lowering.Settings
import Std.Data.HashMap

namespace ClassForge

def maxParameterSlots : Nat := 255
def maxDimensions : Nat := 255

structure MethodContext where
  settings : Settings
  /-- Kind of value that the method returns. -/
  result : TypeCode

/-- What has been recorded about a statement while its parts are lowered. -/
structure ScopeRecord where
  /-- Jumps to the end of the statement. -/
  exit : Chain := []
  /-- Jumps to the next iteration. -/
  next : Chain := []
  /-- Positions where copies of the finalizer start and end, in turn. The code between them is
  not covered by the handlers of the statement. -/
  gaps : Array Nat := #[]
  /-- Calls of the finalizer as a subroutine. -/
  calls : Chain := []

def ScopeRecord.inGap (record : ScopeRecord) : Bool := record.gaps.size % 2 == 1

structure MethodState where
  locals : Std.HashMap VarId (TypeCode × UInt16) := ∅
  /-- Records of the enclosing statements, innermost first. -/
  records : List ScopeRecord := []
  /-- From now on finalizers become subroutines. -/
  subroutines : Bool := false

abbrev Lowering := ReaderT MethodContext (StateT MethodState Asm)

namespace Lowering

def buffer : Lowering Buffer := getThe Buffer

def isAlive : Lowering Bool := return (← buffer).isAlive

def nextRegister : Lowering UInt16 := return UInt16.ofNat (← buffer).nextRegister

def pendingLine : Lowering (Option UInt16) := return (← buffer).pendingLine

def force (type : VType) : Lowering Unit :=
  modifyThe Buffer fun buffer => { buffer with state := buffer.state.force type }

def fail {α : Type} (fault : TreeFault) : Lowering α := throw (.tree fault)

def checkDimensions (type : FieldType) : Lowering Unit := do
  match type with
  | .ref type =>
    if type.dimensions > maxDimensions then throw (.tooManyDimensions type.dimensions)
  | .base _ => pure ()

def declare (var : VarDecl) : Lowering UInt16 := do
  checkDimensions var.type
  let register ← Asm.newLocal (.ofFieldType var.type) (some ⟨var.name, var.type, var.signature⟩)
  modify fun state => { state with
    locals := state.locals.insert var.id (.ofType var.type, register) }
  return register

def temporary (type : VType) : Lowering UInt16 := Asm.newLocal type none

def localItem (id : VarId) : Lowering Item := do
  match (← get).locals[id]? with
  | some (code, register) => return .localVar code register
  | none => fail (.unknownLocal id)

def record (depth : Nat) : Lowering ScopeRecord := return (← get).records.getD depth {}

def changeRecord (depth : Nat) (change : ScopeRecord → ScopeRecord) : Lowering Unit :=
  modify fun state => { state with records := state.records.modify depth change }

def enclosed {α : Type} (action : Lowering α) : Lowering (α × ScopeRecord) := do
  modify fun state => { state with records := {} :: state.records }
  let result ← action
  let record ← record 0
  modify fun state => { state with records := state.records.drop 1 }
  return (result, record)

def outside (depth : Nat) (action : Lowering Unit) : Lowering Unit := do
  let inner := (← get).records.take depth
  modify fun state => { state with records := state.records.drop depth }
  action
  modify fun state => { state with records := inner ++ state.records }

end Lowering

end ClassForge
