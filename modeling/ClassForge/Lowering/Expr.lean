import ClassForge.Lowering.Operator

namespace ClassForge

namespace Lowering

def newStringBuilder : Lowering Unit := do
  Asm.emit (.allocate .stringBuilder)
  Asm.emit (.stack .dup)
  Asm.emit (.invoke .special (.constructor .stringBuilder []))

def appendParameter : Option FieldType → FieldType
  | some (.base type) =>
    match type with
    | .byte | .short => .base .int
    | other => .base other
  | some type => if type.isString then type else .object .object
  | none => .object .object

def append (parameter : FieldType) : Lowering Unit :=
  Asm.emit (.invoke .virtual (.instanceMethod .stringBuilder .append
    ⟨[parameter], some (.object .stringBuilder)⟩))

def appendValue (type : Option FieldType) (value : Lowering Item) : Lowering Unit := do
  let parameter := appendParameter type
  discard (loadAs (.ofType parameter) value)
  append parameter

def builtString : Lowering Item := do
  Asm.emit (.invoke .virtual (.instanceMethod .stringBuilder .toStringName
    ⟨[], some (.object .string)⟩))
  return .stack .object

/-- `target += value` for strings. The operands of the target stay below the builder. -/
def concatAssign (type : Option FieldType) (target : Lowering Item) (appended : Lowering Unit) :
    Lowering Item := do
  newStringBuilder
  let target ← target
  if target.width > 0 then Asm.emit (.dupUnder target.width 1)
  discard target.load
  append (appendParameter type)
  appended
  discard builtString
  return .assign target

def constantStep (op : BinaryOp) (value : Expr) : Option Int32 :=
  let isInt := match value.typeCode with
    | .int | .short | .char | .byte => true
    | _ => false
  match op, value.constantValue with
  | .add, some (.int delta) => if isInt then some delta else none
  | .sub, some (.int delta) => if isInt then some (-delta) else none
  | _, _ => none

def throughStack (op : BinaryOp) (target value : Expr) (item : Item) (genValue : Lowering Item) :
    Lowering Item := do
  let code ← operandCode op target value
  item.duplicate
  discard (← item.coerce code).load
  discard (← (← applyBinary op code value genValue).coerce target.typeCode).load
  return .assign item

def compoundAssign (op : BinaryOp) (target value : Expr) (genTarget genValue : Lowering Item) :
    Lowering Item := do
  let item ← genTarget
  match isIntVariable item, constantStep op value with
  | true, some delta =>
    item.increment delta
    return item
  | _, _ => throughStack op target value item genValue

def assign (target value : Expr) (genTarget genValue : Lowering Item) : Lowering Item := do
  let item ← genTarget
  discard (loadAs item.typeCode genValue)
  match value.isNull, target.type with
  | true, some type => force (.ofFieldType type)
  | _, _ => pure ()
  return .assign item

/-- Convert a value to a type. The check is left out where it cannot fail. -/
def cast (type : Option FieldType) (inner : Expr) (value : Lowering Item) : Lowering Item := do
  let result ← loadAs (.ofResult type) value
  let hierarchy := (← readThe Context).hierarchy
  match type with
  | some (.ref target) =>
    let assignable := match inner.type with
      | some (.ref source) => hierarchy.isAssignable source target
      | _ => false
    if !inner.isNull && !assignable then Asm.emit (.checkCast target)
  | _ => pure ()
  return result

def runtimeName (type : RefType) : String :=
  let text := match type with
    | .object name => name.text
    | array => array.render
  text.map fun c => if c = '/' then '.' else c

def classLiteral (type : Option FieldType) : Lowering Unit := do
  let classType := FieldType.object .classObject
  match type with
  | none => Asm.emit (.getStatic ⟨.void, .typeField, classType, true⟩)
  | some (.base type) => Asm.emit (.getStatic ⟨type.boxClass, .typeField, classType, true⟩)
  | some (.ref type) =>
    if (← read).settings.classConstants then Asm.emit (.pushConstant (.classRef type))
    else
      Asm.emit (.pushConstant (.string (runtimeName type)))
      Asm.emit (.invoke .static
        ⟨.classObject, .forName, ⟨[.object .string], some classType⟩, true, false, false⟩)

/-- Create an array; the lengths of `dims` dimensions are on the stack. -/
def createArray (type : RefType) (dims : Nat) : Lowering Unit := do
  checkDimensions (.ref type)
  match type.elementType with
  | some (.base element) => Asm.emit (.newArray element)
  | some (.ref element) =>
    if dims = 1 then Asm.emit (.newRefArray element)
    else if dims > maxDimensions then throw (.tooManyDimensions dims)
    else Asm.emit (.newMultiArray type (UInt8.ofNat dims))
  | none => fail .noElementType

def pushLength (n : Nat) : Lowering Unit := do
  if n < 0x80000000 then Asm.emit (Literal.int (Int32.ofNat n)).loadInstruction
  else fail .initializerTooLong

/-- A new array with the given lengths or elements. Each element is stored by its own code. -/
def newArray (type : Option FieldType) (dims : Nat) (lengths : Lowering Unit)
    (elems : Option Nat) (store : TypeCode → Lowering Unit) : Lowering Item := do
  match type with
  | some (.ref array) =>
    if array.dimensions = 0 then fail (.notArrayType type)
    match elems with
    | some count =>
      pushLength count
      createArray array 1
      store (match array.elementType with
        | some element => .ofType element
        | none => .object)
    | none =>
      if dims = 0 then fail .noDimensions
      lengths
      createArray array dims
    return .stack .object
  | other => fail (.notArrayType other)

def storeElement (code : TypeCode) (index : Nat) (value : Lowering Item) : Lowering Unit := do
  Asm.emit (.stack .dup)
  pushLength index
  discard (loadAs code value)
  Asm.emit (.arrayStoreOf code)

def foldedOr (e : Expr) (item : Lowering Item) : Lowering Item :=
  match e.constantValue with
  | some value =>
    let code := match e.type with
      | some type => .ofType type
      | none => value.typeCode
    return .immediate value code
  | none => item

def isNonvirtual (settings : Settings) (receiver : Receiver) (ref : MethodRef) : Bool :=
  (match receiver with
    | .super => true
    | _ => false) ||
  ref.isConstructor || ref.isPrivate && !settings.virtualPrivateCalls

def checkArguments (descriptor : MethodDescriptor) (args : List Expr) : Lowering Unit := do
  if descriptor.parameters.length != args.length then
    fail (.argumentCount args.length descriptor.parameters.length)

def isConcat (op : BinaryOp) (type : Option FieldType) : Bool :=
  op == .add && type == some (.object .string)

mutual

def genItem : Expr → Lowering Item
  | .mk type constant kind => foldedOr (.mk type constant kind) (genKind type kind)

/-- An expression that is not constant, by its kind. -/
def genKind (type : Option FieldType) : ExprKind → Lowering Item
  | .literal value => return .immediate value (.ofResult type)
  | .null => do
    Asm.emit .pushNull
    return .stack .object
  | .localVar id => localItem id
  | .self => return .self
  | .field receiver ref => do
    if ref.isStatic then
      genUnused receiver
      return .static (.field ref)
    else
      genReceiver receiver
      return .member (.field ref) false
  | .invoke receiver ref args => do
    let item ← if ref.isStatic then do
        genUnused receiver
        pure (Item.static (.method ref))
      else do
        genReceiver receiver
        pure (Item.member (.method ref) (isNonvirtual (← read).settings receiver ref))
    checkArguments ref.descriptor args
    genArgs ref.descriptor.parameters args
    item.invoke
  | .construct constructor args => do
    Asm.emit (.allocate constructor.owner)
    Asm.emit (.stack .dup)
    checkArguments constructor.descriptor args
    genArgs constructor.descriptor.parameters args
    discard (Item.member (.method constructor) true).invoke
    return .stack .object
  | .newArray dims none => newArray type dims.length (genLengths dims) none fun _ => pure ()
  | .newArray dims (some elems) =>
    newArray type dims.length (genLengths dims) (some elems.length) fun code =>
      genElements code 0 elems
  | .arrayLength array => do
    discard (loadAs .object (genItem array))
    Asm.emit .arrayLength
    return .stack .int
  | .index array index => do
    discard (loadAs .object (genItem array))
    discard (loadAs .int (genItem index))
    return .indexed (.ofResult type)
  | .assign target value => assign target value (genItem target) (genItem value)
  | .compoundAssign op target value =>
    if op == .add && target.typeCode == .object then
      concatAssign target.type (genItem target) (genAppended value)
    else compoundAssign op target value (genItem target) (genItem value)
  | .unary op operand => applyUnary type op (genItem operand) (genCond operand)
  | .binary .condAnd left right => bothOf (genCond left) (genCond right)
  | .binary .condOr left right => eitherOf (genCond left) (genCond right)
  | .binary op left right => do
    if isConcat op type then
      newStringBuilder
      genAppended left
      genAppended right
      builtString
    else
      let code ← operandCode op left right
      discard (loadAs code (genItem left))
      applyBinary op code right (genItem right)
  | .conditional cond yes no => chosenValue type (genCond cond) (genItem yes) (genItem no)
  | .cast inner => cast type inner (genItem inner)
  | .instanceOf inner target => do
    discard (loadAs .object (genItem inner))
    Asm.emit (.instanceOf target)
    return .stack .byte
  | .classLiteral target => do
    classLiteral target
    return .stack .object

/-- An expression of which only the truth matters. -/
def genCond : Expr → Lowering Condition
  | .mk type constant kind =>
    let e := Expr.mk type constant kind
    let tested : Lowering Condition := do
      (← (← foldedOr e (genKind type kind)).coerce .byte).toCondition
    match e.constantValue with
    | some _ => tested
    | none =>
      match kind with
      | .conditional cond yes no => chosenCondition (genCond cond) (genCond yes) (genCond no)
      | _ => tested

/-- Append an expression to the string builder on the stack. The parts of a concatenation are
appended one by one. -/
def genAppended : Expr → Lowering Unit
  | .mk type constant kind =>
    let e := Expr.mk type constant kind
    let whole := appendValue type (foldedOr e (genKind type kind))
    match kind with
    | .binary op left right =>
      if isConcat op type && e.constantValue.isNone then do
        genAppended left
        genAppended right
      else whole
    | _ => whole

def genReceiver : Receiver → Lowering Unit
  | .implicit | .self => discard Item.self.load
  | .super => discard Item.super.load
  | .expr value => discard (loadAs .object (genItem value))

def genUnused : Receiver → Lowering Unit
  | .expr value => do
    let item ← (← genItem value).load
    item.drop
  | _ => pure ()

def genArgs : List FieldType → List Expr → Lowering Unit
  | type :: types, arg :: args => do
    discard (loadAs (.ofType type) (genItem arg))
    genArgs types args
  | _, _ => pure ()

def genLengths : List Expr → Lowering Unit
  | [] => pure ()
  | dim :: dims => do
    discard (loadAs .int (genItem dim))
    genLengths dims

def genElements (code : TypeCode) (index : Nat) : List Expr → Lowering Unit
  | [] => pure ()
  | elem :: elems => do
    storeElement code index (genItem elem)
    genElements code (index + 1) elems

end

def genEffect (e : Expr) : Lowering Unit := do
  let item ← match e.constantValue, e.kind with
    | none, .unary .postInc operand =>
      applyUnary e.type .preInc (genItem operand) (genCond operand)
    | none, .unary .postDec operand =>
      applyUnary e.type .preDec (genItem operand) (genCond operand)
    | _, _ => genItem e
  item.drop

end Lowering

end ClassForge
