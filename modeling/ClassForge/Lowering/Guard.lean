import ClassForge.Lowering.Expr
import ClassForge.Lowering.Scope

namespace ClassForge

/-- A handler of a `try` statement with the code of its body. -/
structure Handler where
  types : List BinaryName
  param : VarDecl
  line : Option UInt16
  code : Lowering Unit

def gapPairs : List Nat → List (Nat × Option Nat)
  | start :: stop :: rest => (start, some stop) :: gapPairs rest
  | [start] => [(start, none)]
  | [] => []

namespace Lowering

def cover (start stop handler : Nat) (type : Option BinaryName) : Lowering Unit := do
  if start != stop then
    if start > 0xFFFF || stop > 0xFFFF || handler > 0xFFFF then
      throw (.rangeTooLarge start stop)
    Asm.addCatch ⟨UInt16.ofNat start, UInt16.ofNat stop, UInt16.ofNat handler, type⟩

def coverFor (types : List BinaryName) (start stop handler : Nat) : Lowering Unit :=
  types.forM fun type => cover start stop handler (some type)

def coverBody (types : List BinaryName) (handler start stop : Nat) :
    List (Nat × Option Nat) → Lowering Unit
  | [] => do if start < stop then coverFor types start stop handler
  | (gapStart, gapStop) :: rest => do
    coverFor types start gapStart handler
    coverBody types handler (gapStop.getD stop) stop rest

def coverBetween (handler start : Nat) : List (Nat × Option Nat) → Lowering Nat
  | [] => return start
  | (gapStart, gapStop) :: rest => do
    cover start gapStart handler none
    coverBetween handler (gapStop.getD gapStart) rest

def markStatement (line : Option UInt16) : Lowering Unit := do
  Asm.beginStatement line
  Asm.markLine

/-- One handler, entered with the exception on the stack. -/
def genHandler (handler : Handler) (start stop : Nat) (gaps : List (Nat × Option Nat)) :
    Lowering Unit := do
  coverBody handler.types (← Asm.position) start stop gaps
  markStatement handler.line
  let limit ← nextRegister
  discard (declare handler.param)
  (← localItem handler.param.id).store
  handler.code
  Asm.endScopes limit

def leaveHandler (scope : Scope) (exit : Chain) (isLast : Bool) : Lowering Chain := do
  finalize 0 scope
  let exit ← if scope.hasFinalizer || !isLast then do
      let jump ← Asm.branch .goto
      Asm.mergeChains exit jump
    else pure exit
  endGap 0
  return exit

def genHandlers (scope : Scope) (state : State) (start stop : Nat)
    (gaps : List (Nat × Option Nat)) (exit : Chain) : List Handler → Lowering Chain
  | [] => return exit
  | handler :: rest => do
    discard (Asm.entryPointWith state (some (.ofFieldType handler.param.type)))
    genHandler handler start stop gaps
    let exit ← leaveHandler scope exit rest.isEmpty
    genHandlers scope state start stop gaps exit rest

def genClauses (scope : Scope) (state : State) (start stop : Nat)
    (gaps : List (Nat × Option Nat)) (exit : Chain) (handlers : List Handler) : Lowering Chain :=
  if start != stop then genHandlers scope state start stop gaps exit handlers else pure exit

def genSubroutine (calls : Chain) (finalizer : Finalizer) : Lowering Unit := do
  Asm.resolve calls
  markStatement finalizer.line
  let address ← temporary .returnAddress
  Asm.emit (.store .ref address)
  outside 1 finalizer.code
  Asm.emit (.ret address)

def beginFinalizer (scope : Scope) : Lowering Unit :=
  match scope.finalizer? with
  | some finalizer => Asm.beginStatement finalizer.line
  | none => pure ()

def firstGap : Lowering Nat := do
  match (← record 0).gaps[0]? with
  | some pc => return pc
  | none => Asm.position

def rethrow (exception : UInt16) (last handler : Nat) : Lowering Unit := do
  Asm.resolvePending
  let stop ← firstGap
  Asm.emit (.load .ref exception)
  cover last stop handler none
  Asm.emit .throwValue

def placeSubroutine (scope : Scope) : Lowering Unit := do
  let calls := (← record 0).calls
  changeRecord 0 ({ · with calls := [] })
  match calls.isEmpty, scope.finalizer? with
  | false, some finalizer => genSubroutine calls finalizer
  | _, _ => pure ()

/-- The start of the handler for any exception. The result has the register of the exception, where
the last part starts that the handler covers, and the handler itself. -/
def enterCatchAll (scope : Scope) (state : State) (start : Nat) : Lowering (UInt16 × Nat × Nat) := do
  Asm.newSegment
  let throwable := VType.ofClass .throwable
  let handler ← Asm.entryPointWith state (some throwable)
  let gaps := (← record 0).gaps
  changeRecord 0 ({ · with gaps := #[] })
  let last ← coverBetween handler start (gapPairs gaps.toList)
  beginFinalizer scope
  Asm.markLine
  let exception ← temporary throwable
  Asm.emit (.store .ref exception)
  return (exception, last, handler)

def genCatchAll (scope : Scope) (state : State) (start : Nat) : Lowering Unit := do
  let (exception, last, handler) ← enterCatchAll scope state start
  finalize 0 scope
  rethrow exception last handler
  placeSubroutine scope

def finalizeBody (scope : Scope) (isEmptyTry : Bool) : Lowering Unit := do
  match scope with
  | .guarded (some finalizer) true =>
    if isEmptyTry then
      if ← isAlive then outside 1 finalizer.code
    else finalize 0 scope
  | _ => finalize 0 scope

def leaveBody (scope : Scope) (isEmptyTry : Bool) : Lowering Chain := do
  finalizeBody scope isEmptyTry
  let exit ← Asm.branch (if isEmptyTry then .never else .goto)
  endGap 0
  return exit

/-- A body with what protects it. A `try` whose body has no code needs no handlers. -/
def genGuarded (scope : Scope) (body : Lowering Unit) (handlers : List Handler) (isTry : Bool) :
    Lowering Unit := do
  let limit ← nextRegister
  let start ← Asm.position
  let state := (← buffer).state
  body
  let stop ← Asm.position
  let bodyGaps := gapPairs (← record 0).gaps.toList
  let isEmptyTry := start == stop && isTry
  let exit ← leaveBody scope isEmptyTry
  let exit ← genClauses scope state start stop bodyGaps exit handlers
  if scope.hasFinalizer && !isEmptyTry then genCatchAll scope state start
  Asm.resolve exit
  Asm.endScopes limit

end Lowering

end ClassForge
