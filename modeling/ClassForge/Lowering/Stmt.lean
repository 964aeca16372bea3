import ClassForge.Lowering.Guard
import ClassForge.Lowering.Switch
import ClassForge.Lowering.Weight

namespace ClassForge

namespace Lowering

def checkStack : Lowering Unit := do
  let buffer ← buffer
  if buffer.isAlive && buffer.state.depth != 0 then
    throw (.machine buffer.code.size (.stackNotEmpty buffer.state.depth))

/-- Declare a variable and set it to its initial value. The value of a constant is put wherever
the variable is used, so storing it only serves a debugger. -/
def genDeclaration (var : VarDecl) (init : Option Expr) : Lowering Unit := do
  let register ← declare var
  match init with
  | none => pure ()
  | some init =>
    match var.constant with
    | some (.string text) =>
      let length := ModifiedUtf8.length text
      if length > maxTextLength then throw (.pool (.textTooLong length))
    | _ => pure ()
    if var.constant.isNone || (← read).settings.localVariables then
      let code := TypeCode.ofType var.type
      discard (loadAs code (genItem init))
      (Item.localVar code register).store

def genBranch (cond : Lowering Condition) (yes no : Lowering Unit) : Lowering Unit := do
  let limit ← nextRegister
  let cond ← cond
  let failed ← cond.jumpFalse
  let done ← if cond.isFalse then pure [] else do
    Asm.resolve cond.trueJumps
    yes
    Asm.branch .goto
  if !failed.isEmpty then
    Asm.resolve failed
    no
  Asm.resolve done
  Asm.endScopes limit

def resolveExit (record : ScopeRecord) : Lowering Unit := do
  Asm.resolve (record.exit.undefineFrom (← nextRegister))

def resolveNext : Lowering Unit := do
  let next := (← record 0).next
  changeRecord 0 ({ · with next := [] })
  Asm.resolve next

def genUpdates : List Expr → Lowering Unit
  | [] => pure ()
  | update :: rest => do
    if ← isAlive then genEffect update
    genUpdates rest

def genTestFirst (cond : Lowering Condition) (updates : List Expr) (body : Lowering Unit) :
    Lowering Unit := do
  let (_, record) ← enclosed do
    let start ← Asm.entryPoint
    let cond ← cond
    let done ← cond.jumpFalse
    Asm.resolve cond.trueJumps
    body
    resolveNext
    genUpdates updates
    let back ← Asm.branch .goto
    Asm.resolveTo back start
    Asm.resolve done
  resolveExit record

def genTestLast (body : Lowering Unit) (cond : Lowering Condition) : Lowering Unit := do
  let (_, record) ← enclosed do
    let start ← Asm.entryPoint
    body
    resolveNext
    if ← isAlive then
      let cond ← cond
      let back ← cond.jumpTrue
      Asm.resolveTo back start
      Asm.resolve cond.falseJumps
  resolveExit record

def loopCondition : Option Expr → Lowering Condition
  | some cond => genCond cond
  | none => return .ofJump .goto

def returnType (code : TypeCode) (value : Expr) : VType :=
  match code, value.type with
  | .object, some type => .ofFieldType type
  | .object, none => .ofClass .object
  | .long, _ => .long
  | .float, _ => .float
  | .double, _ => .double
  | _, _ => .integer

/-- The value to be returned, if there is one. It waits in a temporary while finalizers run. -/
def heldResult (scopes : List Scope) : Option Expr → Lowering (Option Item)
  | none => return none
  | some value => do
    let code := (← read).result
    let loaded ← loadAs code (genItem value)
    if scopes.any Scope.hasFinalizer then
      let register ← temporary (returnType code value)
      let held := Item.localVar code register
      held.store
      return some held
    else return some loaded

def returnWith : Option Item → Lowering Unit
  | none => Asm.emit .returnVoid
  | some result => do
    discard result.load
    Asm.emit (.returnOf (← read).result)

/-- Return from the method, on the line of the return itself. -/
def genReturn (scopes : List Scope) (value : Option Expr) : Lowering Unit := do
  let limit ← nextRegister
  let line ← pendingLine
  let result ← heldResult scopes value
  unwind scopes
  restoreLine line
  returnWith result
  endGaps scopes
  Asm.endScopes limit

/-- A `try` statement. Once a finalizer has become a subroutine, so do all later ones. -/
def genTry (finalizer : Option Finalizer) (weight : Option Nat)
    (body : Scope → Lowering Unit) (handlers : Scope → List Handler) : Lowering Unit := do
  let settings := (← read).settings
  match weight with
  | some weight =>
    modify fun state =>
      { state with subroutines := state.subroutines || settings.usesSubroutine weight }
  | none => pure ()
  let scope := .guarded finalizer (← get).subroutines
  discard (enclosed (genGuarded scope (body scope) (handlers scope) true))

def genSynchronized (lock : Lowering Item) (body : Scope → Lowering Unit) : Lowering Unit := do
  let limit ← nextRegister
  let register ← temporary (.ofClass .object)
  discard (loadAs .object lock)
  Asm.emit (.stack .dup)
  Asm.emit (.store .ref register)
  Asm.emit .monitorEnter
  modifyThe Buffer fun buffer => { buffer with state := buffer.state.lock register }
  let scope := .synchronized register
  discard (enclosed (genGuarded scope (body scope) [] false))
  Asm.endScopes limit

mutual

/-- A statement inside the given ones. A variable that is declared in an unreachable part of a
switch still has a register, since a later case may use it. -/
def genStmt (scopes : List Scope) (inSwitch : Bool) : Stmt → Lowering Unit
  | .mk line kind => do
    if ← isAlive then
      Asm.beginStatement line
      genStmtKind scopes kind
    else if inSwitch then
      match kind with
      | .declare var _ => discard (declare var)
      | _ => pure ()
    checkStack

def genStmtKind (scopes : List Scope) : StmtKind → Lowering Unit
  | .empty => pure ()
  | .block stmts => do
    let limit ← nextRegister
    genStmts scopes false stmts
    Asm.endScopes limit
  | .declare var init => genDeclaration var init
  | .expr value => genEffect value
  | .branch cond yes none => genBranch (genCond cond) (genStmt scopes false yes) (pure ())
  | .branch cond yes (some no) =>
    genBranch (genCond cond) (genStmt scopes false yes) (genStmt scopes false no)
  | .whileLoop cond body => genTestFirst (genCond cond) [] (genStmt (.loop :: scopes) false body)
  | .doLoop body cond => genTestLast (genStmt (.loop :: scopes) false body) (genCond cond)
  | .forLoop init cond update body => do
    let limit ← nextRegister
    genStmts scopes false init
    genTestFirst (loopCondition cond) update (genStmt (.loop :: scopes) false body)
    Asm.endScopes limit
  | .labelled label body => do
    let (_, record) ← enclosed (genStmt (.labelled label :: scopes) false body)
    resolveExit record
  | .switch selector cases => genSwitch (genItem selector) (switchCases (.switch :: scopes) cases)
  | .breakTo label => genBreak scopes label
  | .continueTo label => genContinue scopes label
  | .ret value => genReturn scopes value
  | .raise value => do
    discard (← genItem value).load
    Asm.emit .throwValue
  | .guarded body catches none =>
    genTry none none (fun scope => genStmt (scope :: scopes) false body)
      fun scope => catchHandlers (scope :: scopes) catches
  | .guarded body catches (some finalizer) => do
    let limit := (← read).settings.finalizerInlineLimit
    genTry (some ⟨finalizer.line, genStmt scopes false finalizer⟩) (some (finalizer.weight limit))
      (fun scope => genStmt (scope :: scopes) false body)
      fun scope => catchHandlers (scope :: scopes) catches
  | .synchronized lock body =>
    genSynchronized (genItem lock) fun scope => genStmt (scope :: scopes) false body

def genStmts (scopes : List Scope) (inSwitch : Bool) : List Stmt → Lowering Unit
  | [] => pure ()
  | stmt :: rest => do
    genStmt scopes inSwitch stmt
    genStmts scopes inSwitch rest

def switchCases (scopes : List Scope) : List Case → List SwitchCase
  | [] => []
  | .mk labels isDefault body :: rest =>
    ⟨labels, isDefault, genStmts scopes true body⟩ :: switchCases scopes rest

def catchHandlers (scopes : List Scope) : List Catch → List Handler
  | [] => []
  | .mk types param body :: rest =>
    ⟨types, param, body.line, genStmt scopes false body⟩ :: catchHandlers scopes rest

end

end Lowering

end ClassForge
