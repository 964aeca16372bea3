import ClassForge.Lowering.Context

namespace ClassForge

namespace BinaryOp

def comparison : BinaryOp → Comparison
  | .eq => .eq
  | .ne => .ne
  | .lt => .lt
  | .le => .le
  | .gt => .gt
  | _ => .ge

def nanOrder : BinaryOp → NanOrder
  | .lt | .le => .greater
  | _ => .less

def arithmeticOp? : BinaryOp → Option ArithmeticOp
  | .add => some .add
  | .sub => some .sub
  | .mul => some .mul
  | .div => some .div
  | .rem => some .rem
  | _ => none

def shiftOp? : BinaryOp → Option ShiftOp
  | .shl => some .left
  | .shr => some .arithmeticRight
  | .ushr => some .logicalRight
  | _ => none

def bitOp? : BinaryOp → Option BitOp
  | .and => some .and
  | .or => some .or
  | .xor => some .xor
  | _ => none

end BinaryOp

namespace TypeCode

def integerWidth? : TypeCode → Option IntegerWidth
  | .int => some .int
  | .long => some .long
  | _ => none

def arithmeticKind? : TypeCode → Option NumKind
  | .int => some .int
  | .long => some .long
  | .float => some .float
  | .double => some .double
  | _ => none

end TypeCode

def BinaryOp.instruction? (op : BinaryOp) (code : TypeCode) : Option Instruction :=
  match op.arithmeticOp? with
  | some arithmetic => code.arithmeticKind?.map (.arithmetic arithmetic)
  | none =>
    match op.shiftOp? with
    | some shift => code.integerWidth?.map (.shift shift)
    | none => do return .bitwise (← op.bitOp?) (← code.integerWidth?)

namespace Lowering

def loadAs (code : TypeCode) (value : Lowering Item) : Lowering Item := do
  (← (← value).coerce code).load

def operandCode? (op : BinaryOp) (left right : Expr) : Option TypeCode :=
  if left.isBoolean && right.isBoolean then some .byte
  else if op.isShift then left.typeCode.promote left.typeCode
  else if left.isNull || right.isNull || left.typeCode == .object || right.typeCode == .object
  then some .object
  else left.typeCode.promote right.typeCode

def operandCode (op : BinaryOp) (left right : Expr) : Lowering TypeCode := do
  match operandCode? op left right with
  | some code => return code
  | none => fail (.badOperand .combine left.typeCode)

/-- The jump that a comparison takes, with the left operand on the stack. -/
def comparisonJump (op : BinaryOp) (code : TypeCode) (right : Expr) (value : Lowering Item) :
    Lowering Jump := do
  match code.truncate with
  | .int =>
    if right.constantValue == some (.int 0) then return .ifZero op.comparison
    else
      discard (loadAs .int value)
      return .ifInts op.comparison
  | .long =>
    discard (loadAs .long value)
    Asm.emit .compareLong
    return .ifZero op.comparison
  | .float =>
    discard (loadAs .float value)
    Asm.emit (.compareFloat .float op.nanOrder)
    return .ifZero op.comparison
  | .double =>
    discard (loadAs .double value)
    Asm.emit (.compareFloat .double op.nanOrder)
    return .ifZero op.comparison
  | .object =>
    let equality ← match op with
      | .eq => pure Equality.eq
      | .ne => pure Equality.ne
      | _ => fail (.badOperand .order .object)
    if right.isNull then return .ifNull equality
    else
      discard (loadAs .object value)
      return .ifRefs equality
  | other => fail (.badOperand .compare other)

/-- Apply an operator to the left operand on the stack and the right one given by its code. -/
def applyBinary (op : BinaryOp) (code : TypeCode) (right : Expr) (value : Lowering Item) :
    Lowering Item := do
  if op.isComparison then
    return .cond (.ofJump (← comparisonJump op code right value))
  else
    discard (loadAs (if op.isShift then .int else code) value)
    match op.instruction? code.truncate with
    | some instruction => Asm.emit instruction
    | none => fail (.noInstruction op code.truncate)
    return .ofStack code

def bothOf (left right : Lowering Condition) : Lowering Item := do
  let first ← left
  if first.isFalse then return .cond first
  else
    let failed ← first.jumpFalse
    Asm.resolve first.trueJumps
    let second ← right
    return .cond { second with falseJumps := ← Asm.mergeChains failed second.falseJumps }

def eitherOf (left right : Lowering Condition) : Lowering Item := do
  let first ← left
  if first.isTrue then return .cond first
  else
    let holds ← first.jumpTrue
    Asm.resolve first.falseJumps
    let second ← right
    return .cond { second with trueJumps := ← Asm.mergeChains holds second.trueJumps }

/-- `cond ? yes : no`, where only the truth of the result matters. -/
def chosenCondition (cond yes no : Lowering Condition) : Lowering Condition := do
  let cond ← cond
  if cond.isTrue then
    Asm.resolve cond.trueJumps
    yes
  else if cond.isFalse then
    Asm.resolve cond.falseJumps
    no
  else
    let toSecond ← cond.jumpFalse
    Asm.resolve cond.trueJumps
    let first ← yes
    let failed ← first.jumpFalse
    Asm.resolve first.trueJumps
    let holds ← Asm.branch .goto
    Asm.resolve toSecond
    let second ← no
    let trueJumps ← Asm.mergeChains holds second.trueJumps
    let falseJumps ← Asm.mergeChains failed second.falseJumps
    return ⟨second.jump, trueJumps, falseJumps⟩

def forceReference (type : Option FieldType) : Lowering Unit := do
  match type with
  | some (.ref type) => force (.object type)
  | _ => pure ()

/-- `cond ? yes : no` as a value of the given type. -/
def chosenValue (type : Option FieldType) (cond : Lowering Condition) (yes no : Lowering Item) :
    Lowering Item := do
  let code := TypeCode.ofResult type
  let cond ← cond
  let failed ← cond.jumpFalse
  let done ← if cond.isFalse then pure [] else do
    Asm.resolve cond.trueJumps
    discard (loadAs code yes)
    forceReference type
    Asm.branch .goto
  if !failed.isEmpty then
    Asm.resolve failed
    discard (loadAs code no)
    forceReference type
  Asm.resolve done
  return .ofStack code

/-- Add one to the number on the stack or subtract one, and narrow the result to its kind. -/
def step (code : TypeCode) (up : Bool) : Lowering Unit := do
  let (one, kind) ← match code.truncate with
    | .int => pure (Instruction.pushInt 2, NumKind.int)
    | .long => pure (.pushLong 1, .long)
    | .float => pure (.pushFloat 1, .float)
    | .double => pure (.pushDouble 1, .double)
    | other => fail (.badOperand .increment other)
  Asm.emit one
  Asm.emit (.arithmetic (if up then .add else .sub) kind)
  if code != .int && code.truncate == .int then Asm.emitAll (Instruction.conversions .int code)

def isIntVariable : Item → Bool
  | .localVar code _ => code.truncate == .int
  | _ => false

def stepBefore (up : Bool) (operand : Lowering Item) : Lowering Item := do
  let target ← operand
  if isIntVariable target then
    target.increment (if up then 1 else -1)
    return target
  else
    target.duplicate
    discard target.load
    step target.typeCode up
    return .assign target

/-- `x++` or `x--`. The old value stays below the operands of the item. -/
def stepAfter (up : Bool) (operand : Lowering Item) : Lowering Item := do
  let target ← operand
  target.duplicate
  let old ← target.load
  if isIntVariable target then
    target.increment (if up then 1 else -1)
  else
    target.stash target.typeCode
    step target.typeCode up
    target.store
  return old

/-- Apply a unary operator. The operand is given as a value and as a condition. -/
def applyUnary (type : Option FieldType) (op : UnaryOp) (value : Lowering Item)
    (cond : Lowering Condition) : Lowering Item := do
  let code := TypeCode.ofResult type
  match op with
  | .not => return .cond (← cond).negate
  | .plus => loadAs code value
  | .neg =>
    discard (loadAs code value)
    match code.truncate.arithmeticKind? with
    | some kind => Asm.emit (.negate kind)
    | none => fail (.badOperand .negate code.truncate)
    return .ofStack code
  | .compl =>
    discard (loadAs code value)
    match code.truncate with
    | .int => Asm.emitAll [.pushInt 0, .bitwise .xor .int]
    | .long => Asm.emitAll [.pushConstant (.long (-1)), .bitwise .xor .long]
    | other => fail (.badOperand .complement other)
    return .ofStack code
  | .preInc => stepBefore true value
  | .preDec => stepBefore false value
  | .postInc => stepAfter true value
  | .postDec => stepAfter false value

end Lowering

end ClassForge
