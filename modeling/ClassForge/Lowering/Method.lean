import ClassForge.Lowering.Stmt

namespace ClassForge

namespace MethodDecl

def parameterSlots (method : MethodDecl) : Nat :=
  (if method.isStatic then 0 else 1) + method.descriptor.parameterSlots

def label (method : MethodDecl) : String := method.name.text ++ method.descriptor.render

end MethodDecl

namespace Lowering

/-- Registers of `this` and of the parameters, which are set from the start. -/
def genParameters (method : MethodDecl) : Lowering Unit := do
  if !method.isStatic then
    let name := (← readThe Context).thisClass
    let type := if method.isConstructor && name != .object then .uninitializedThis
      else VType.ofClass name
    let register ← Asm.newLocal type (some ⟨.thisName, .object name, none⟩)
    Asm.setDefined register
  method.params.forM fun param => do
    let register ← declare param
    Asm.setDefined register

def genEnd (method : MethodDecl) : Lowering Unit := do
  if ← isAlive then
    Asm.beginStatement method.endLine
    if (← read).result == .void then Asm.emit .returnVoid
    else
      let start ← Asm.entryPoint
      let jump ← Asm.branch .goto
      Asm.resolveTo jump start

def genBody (body : Stmt) : Lowering Unit :=
  match body.kind with
  | .block stmts => genStmts [] false stmts
  | _ => genStmt [] false body

def genMethod (method : MethodDecl) (body : Stmt) : Lowering Unit := do
  genParameters method
  Asm.beginBody
  genBody body
  genEnd method
  Asm.endScopes 0
  Asm.checkLimits

def attempt (settings : Settings) (method : MethodDecl) (body : Stmt) : Asm (Option Code) := do
  discard (((genMethod method body).run ⟨settings, .ofResult method.result⟩).run {})
  if (← get).needsWide then return none
  else
    Asm.compressCatches
    return some (← Asm.finish)

end Lowering

namespace Build

/-- A method has room for so many parameters, and array types for so many dimensions. -/
def checkParameters (method : MethodDecl) : Build Unit := do
  if method.parameterSlots > maxParameterSlots then
    throw (.tooManyParameters method.parameterSlots)
  method.params.forM fun param =>
    match param.type with
    | .ref type =>
      if type.dimensions > maxDimensions then throw (.tooManyDimensions type.dimensions)
      else pure ()
    | .base _ => pure ()

def codeOf (hierarchy : ClassGraph) (settings : Settings) (thisClass : BinaryName)
    (method : MethodDecl) (body : Stmt) : Build Code := do
  checkParameters method
  let attempt := fun wide =>
    assemble ⟨hierarchy, thisClass, settings.code, wide⟩ (Lowering.attempt settings method body)
  match ← attempt false with
  | some code => return code
  | none =>
    match ← attempt true with
    | some code => return code
    | none => throw (.tree .jumpsTooFar)

end Build

end ClassForge
