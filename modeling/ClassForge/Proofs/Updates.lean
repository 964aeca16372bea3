import ClassForge.Proofs.OperandStack

namespace ClassForge

open Lowering (Piece lowered isIntVariable constantStep operandCode? appendParameter)

def TypeCode.converting (source target : TypeCode) : List Piece :=
  if source = target then [] else (Instruction.conversions source target).map .emit

def NumKind.one : NumKind → Instruction
  | .int => .pushInt 2
  | .long => .pushLong 1
  | .float => .pushFloat 1
  | .double => .pushDouble 1

/-- Code that adds one to a value on the stack or subtracts one. -/
def TypeCode.stepping? (up : Bool) (code : TypeCode) : Option (List Piece) := do
  let kind ← code.truncate.arithmeticKind?
  return [.emit kind.one, .emit (.arithmetic (if up then .add else .sub) kind)] ++
    code.truncate.converting code

namespace Item

def loading : Item → List Piece
  | .localVar code register => [.emit (.loadOf code register)]
  | .static (.field ref) => [.emit (.getStatic ref)]
  | .member (.field ref) _ => [.emit (.getField ref)]
  | .indexed code => [.emit (.arrayLoadOf code)]
  | _ => []

def storing : Item → List Piece
  | .localVar code register => [.emit (.storeOf code register)]
  | .static (.field ref) => [.emit (.putStatic ref)]
  | .member (.field ref) _ => [.emit (.putField ref)]
  | .indexed code => [.emit (.arrayStoreOf code)]
  | _ => []

def copying : Item → List Piece
  | .indexed _ => [.emit (.stack .dup2)]
  | .member _ _ => [.emit (.stack .dup)]
  | _ => []

/-- Code that copies a value to below the operands of its place. -/
def stashing : Item → List Piece
  | .indexed code => [.emit (.dupUnder code.width 2)]
  | .member ref _ => [.emit (.dupUnder ref.typeCode.width 1)]
  | item => [.emit (.dupOf item.typeCode.width)]

def finishing (needed : Bool) (item : Item) : List Piece :=
  (if needed then item.stashing else []) ++ item.storing

def incrementing (delta : Int32) : Item → List Piece
  | .localVar code register =>
    if code = .int ∧ -0x8000 ≤ delta ∧ delta ≤ 0x7FFF then
      [.emit (.increment register delta.toInt16)]
    else
      loading (.localVar code register) ++
      (if 0 ≤ delta then
        [.emit (Literal.int delta).loadInstruction, .emit (.arithmetic .add .int)]
      else [.emit (Literal.int (-delta)).loadInstruction, .emit (.arithmetic .sub .int)]) ++
      TypeCode.converting .int code ++ storing (.localVar code register)
  | _ => []

inductive IsPlace : Item → Prop
  | localVar (code : TypeCode) (register : UInt16) : IsPlace (.localVar code register)
  | static (ref : FieldRef) : IsPlace (.static (.field ref))
  | member (ref : FieldRef) : IsPlace (.member (.field ref) false)
  | element (code : TypeCode) : IsPlace (.indexed code)

end Item

inductive Target where
  | localVar (id : VarId)
  | field (receiver : Receiver) (ref : FieldRef)
  | element (array index : Expr)

namespace Target

def kind : Target → ExprKind
  | .localVar id => .localVar id
  | .field receiver ref => .field receiver ref
  | .element array index => .index array index

def expr (target : Target) (type : FieldType) : Expr := .mk (some type) none target.kind

def item? (σ : MethodState) (type : FieldType) : Target → Option Item
  | .localVar id => σ.locals[id]?.map fun (code, register) => .localVar code register
  | .field _ ref =>
    some (if ref.isStatic then .static (.field ref) else .member (.field ref) false)
  | .element _ _ => some (.indexed (.ofType type))

def finding : Target → List Piece
  | .localVar _ => []
  | .field receiver ref => [.part (if ref.isStatic then .unused receiver else .receiver receiver)]
  | .element array index => [.part (.value .object array), .part (.value .int index)]

end Target

/-- Ways to change what is at a place. -/
inductive Update where
  | assign (value : Expr)
  | compound (op : BinaryOp) (value : Expr) (computes : op.isComparison = false)
  /-- `++x` or `--x`. -/
  | before (up : Bool)
  /-- `x++` or `x--`. -/
  | after (up : Bool)

namespace Update

def kind (target : Expr) : Update → ExprKind
  | .assign value => .assign target value
  | .compound op value _ => .compoundAssign op target value
  | .before up => .unary (if up then .preInc else .preDec) target
  | .after up => .unary (if up then .postInc else .postDec) target

def inPlace? (op : BinaryOp) (value : Expr) (item : Item) : Option Int32 :=
  if isIntVariable item then constantStep op value else none

variable (needed : Bool) (target : Target) (type : FieldType) (item : Item)

def building : List Instruction :=
  [.allocate .stringBuilder, .stack .dup, .invoke .special (.constructor .stringBuilder [])]

/-- The old string and the value are appended to the builder. -/
def appending (value : Expr) : List Piece :=
  [.emit (.invoke .virtual (.instanceMethod .stringBuilder .append
      ⟨[appendParameter (some type)], some (.object .stringBuilder)⟩)),
    .part (.appended value),
    .emit (.invoke .virtual (.instanceMethod .stringBuilder .toStringName
      ⟨[], some (.object .string)⟩))]

/-- Code for strings: the builder is below the operands, which are copied to below it. -/
def concatenating (value : Expr) : List Piece :=
  building.map .emit ++ target.finding ++
  (if item.width > 0 then [.emit (.dupUnder item.width 1)] else []) ++ item.loading ++
  appending type value ++ item.finishing needed

/-- Code that computes the new value by way of the stack, where `right` puts the other operand. -/
def computing (right : List Piece) (code : TypeCode) (instruction : Instruction) : List Piece :=
  target.finding ++ item.copying ++ item.loading ++ item.typeCode.converting code ++ right ++
  [.emit instruction] ++ code.converting (.ofType type) ++ item.finishing needed

def stepping? (up : Bool) : Option (List Piece) :=
  if isIntVariable item then
    some (target.finding ++ item.incrementing (if up then 1 else -1) ++
      (if needed then item.loading else []))
  else do
    let step ← item.typeCode.stepping? up
    return target.finding ++ item.copying ++ item.loading ++ step ++ item.finishing needed

def pieces? : Update → Option (List Piece)
  | .assign value =>
    some (target.finding ++ [.part (.value item.typeCode value)] ++
      (if value.isNull then [.retype (.ofFieldType type)] else []) ++ item.finishing needed)
  | .compound op value _ =>
    if op == .add && TypeCode.ofType type == .object then
      some (concatenating needed target type item value)
    else
      match inPlace? op value item with
      | some delta =>
        some (target.finding ++ item.incrementing delta ++ (if needed then item.loading else []))
      | none => do
        let code ← operandCode? op (target.expr type) value
        let instruction ← op.instruction? code.truncate
        return computing needed target type item
          [.part (.value (if op.isShift then .int else code) value)] code instruction
  | .before up => stepping? needed target item up
  | .after up =>
    if needed then
      if isIntVariable item then
        some (target.finding ++ item.copying ++ item.loading ++
          item.incrementing (if up then 1 else -1))
      else do
        let step ← item.typeCode.stepping? up
        return target.finding ++ item.copying ++ item.loading ++ item.stashing ++ step ++
          item.storing
    else stepping? false target item up

end Update

theorem TypeCode.ofType_ne_void (type : FieldType) : TypeCode.ofType type ≠ .void := by
  rcases type with ⟨⟨⟩⟩ | type <;> nofun

theorem TypeCode.promote_num {left right code : TypeCode} (known : left.promote right = some code) :
    left.numKind?.isSome ∧ code.numKind?.isSome := by
  cases left <;> cases right <;> cases known <;> decide

theorem Lowering.operandCode?_num {op : BinaryOp} {left right : Expr} {code : TypeCode}
    (known : operandCode? op left right = some code) :
    code = .object ∨ left.typeCode.numKind?.isSome ∧ code.numKind?.isSome := by
  rw [operandCode?] at known
  split at known
  · rename_i both
    cases known
    have boolean : left.type = some (.base .boolean) := by
      simp_all [Expr.isBoolean]
    exact .inr ⟨by rw [Expr.typeCode, boolean]; rfl, rfl⟩
  · split at known
    · exact .inr (TypeCode.promote_num known)
    · split at known
      · cases known
        exact .inl rfl
      · exact .inr (TypeCode.promote_num known)

theorem Lowering.operandCode?_ne_void {op : BinaryOp} {left right : Expr} {code : TypeCode}
    (known : operandCode? op left right = some code) : code ≠ .void := by
  rintro rfl
  simpa [TypeCode.numKind?] using operandCode?_num known

namespace Lowering

def use (needed : Bool) (item : Item) : Lowering Unit := do
  if needed then discard item.load else item.drop

def generate (needed : Bool) (e : Expr) : Lowering Unit := do
  if needed then discard (← genItem e).load else genEffect e

section Pieces

variable {α β : Type}

theorem discard_eq {m : Type → Type} [Monad m] [LawfulMonad m] (x : m α) :
    discard x = x >>= fun _ => pure () := by
  rw [bind_pure_comp]
  exact congrFun (congrFun (LawfulFunctor.map_const (f := m)) ()) x

theorem lowered_bind (first second : List Piece) (f : Unit → Lowering α) :
    (lowered first >>= fun _ => lowered second >>= f) = lowered (first ++ second) >>= f := by
  have whole : lowered (first ++ second) = lowered first >>= fun _ => lowered second :=
    List.forM_append
  rw [whole, bind_assoc]

theorem lowered_lowered (first second : List Piece) :
    (lowered first >>= fun _ => lowered second) = lowered (first ++ second) :=
  List.forM_append.symm

theorem lift_emit (instruction : Instruction) :
    (Asm.emit instruction : Lowering Unit) = lowered [.emit instruction] := by
  simp [lowered, Piece.lower]

theorem lift_emitAll (instructions : List Instruction) :
    (Asm.emitAll instructions : Lowering Unit) = lowered (instructions.map .emit) := by
  induction instructions with
  | nil => rfl
  | cons instruction rest ih =>
    have split : Asm.emitAll (instruction :: rest) =
      Asm.emit instruction >>= fun _ => Asm.emitAll rest := rfl
    rw [split, liftM_bind, ih]
    rfl

theorem lowered_nil : lowered [] = pure () := rfl

@[simp] theorem fail_bind (fault : TreeFault) (f : α → Lowering β) : fail fault >>= f = fail fault :=
  rfl

theorem not_ok_of_fail {x : Lowering α} {fault : TreeFault} {mc : MethodContext} {ctx : Context}
    {σ σ' : MethodState} {b b' : Buffer} {y : β} :
    (x >>= fun _ => fail fault) mc σ ctx b ≠ .ok (y, σ') b' := by
  intro run
  obtain ⟨_, _, _, -, later⟩ := bind_ok.mp run
  exact throw_ok.mp later

theorem lowered_part (part : Part) : part.lower = lowered [.part part] := by
  simp [lowered, Piece.lower]

theorem lift_bind_apply (x : Asm α) (f : α → Lowering β) (mc : MethodContext) (σ : MethodState) :
    (liftM x >>= f : Lowering β) mc σ = x >>= fun a => f a mc σ := by
  change ((x >>= fun a => pure (a, σ)) >>= fun (a, σ) => f a mc σ : Asm (β × MethodState)) = _
  rw [bind_assoc]
  simp

theorem step_eq (code : TypeCode) (up : Bool) :
    Lowering.step code up = match code.stepping? up with
      | some pieces => lowered pieces
      | none => fail (.badOperand .increment code.truncate) := by
  cases code <;> simp [Lowering.step, TypeCode.stepping?, TypeCode.truncate,
    TypeCode.arithmeticKind?, NumKind.one, TypeCode.converting, lift_emit, lift_emitAll,
    lowered_lowered]

theorem applyBinary_eq {op : BinaryOp} (computes : op.isComparison = false) (code : TypeCode)
    (value : Expr) :
    applyBinary op code value (genItem value) = do
      lowered [.part (.value (if op.isShift then .int else code) value)]
      match op.instruction? code.truncate with
      | some instruction => lowered [.emit instruction]
      | none => fail (.noInstruction op code.truncate)
      return .ofStack code := by
  have inner : discard (loadAs (if op.isShift then .int else code) (genItem value)) = _ :=
    lowered_part (.value (if op.isShift then .int else code) value)
  rw [applyBinary, computes, if_neg nofun, inner]
  cases op.instruction? code.truncate <;> simp [lift_emit]

theorem genItem_unfolded {type : Option FieldType} {kind : ExprKind}
    (free : (Expr.mk type none kind).constantValue = none) :
    genItem (.mk type none kind) = genKind type kind := by
  rw [genItem, foldedOr, free]

end Pieces

end Lowering

namespace Item

open Lowering (lift_emitAll lift_emit discard_eq lowered_lowered)

@[simp] theorem load_stack (code : TypeCode) : (Item.stack code).load = pure (.stack code) := rfl

theorem coerce_stack_eq (source target : TypeCode) :
    ((Item.stack source).coerce target : Lowering Item) = do
      lowered (source.converting target)
      return if source = target then .stack source else .ofStack target := by
  by_cases same : source = target
  · simp [coerce, typeCode, TypeCode.converting, same, lowered]
  · simp [coerce, typeCode, TypeCode.converting, same, discard_eq, lift_emitAll]

theorem coerce_stack_bind (source : TypeCode) {target : TypeCode} (value : target ≠ .void) {α : Type}
    (rest : Lowering α) :
    (do discard (← (Item.stack source).coerce target).load; rest : Lowering α) =
      lowered (source.converting target) >>= fun _ => rest := by
  by_cases same : source = target <;> simp [coerce_stack_eq, same, discard_eq, ofStack, value]

namespace IsPlace

variable {item : Item} (place : item.IsPlace)

include place

theorem load_eq : (item.load : Lowering Item) = do
    lowered item.loading
    return .ofStack item.typeCode := by
  cases place <;> simp [load, loading, lowered, Piece.lower]

theorem store_eq : (item.store : Lowering Unit) = lowered item.storing := by
  cases place <;> exact lift_emit _

theorem stash_eq : (item.stash item.typeCode : Lowering Unit) = lowered item.stashing := by
  cases place <;> exact lift_emit _

theorem duplicate_eq : (item.duplicate : Lowering Unit) = lowered item.copying := by
  cases place with
  | localVar | static => rfl
  | member | element => exact lift_emit _

theorem coerce_bind {code : TypeCode} (value : code ≠ .void) {α : Type} (rest : Lowering α) :
    (do discard (← item.coerce code).load; rest : Lowering α) =
      lowered (item.loading ++ item.typeCode.converting code) >>= fun _ => rest := by
  have loaded := place.load_eq
  rw [← lowered_lowered, TypeCode.converting]
  by_cases same : item.typeCode = code
  · simp [coerce, same, loaded, discard_eq]
    rfl
  · cases place <;>
      simp [coerce, same, loaded, ← lift_emitAll, discard_eq, ofStack, value]

theorem use_assign_eq (needed : Bool) :
    Lowering.use needed (.assign item) = lowered (item.finishing needed) := by
  cases needed with
  | false => simpa [Lowering.use, drop, finishing] using place.store_eq
  | true => simp [Lowering.use, finishing, load, place.stash_eq, place.store_eq, lowered_lowered,
      discard_eq]

end IsPlace

theorem increment_eq (code : TypeCode) (register : UInt16) (delta : Int32) :
    (Item.increment delta (.localVar code register) : Lowering Unit) =
      lowered (Item.incrementing delta (.localVar code register)) := by
  have place := IsPlace.localVar code register
  rw [Item.increment, incrementing]
  split
  · exact lift_emit _
  · split <;> simp [place.load_eq, place.store_eq, discard_eq, lift_emit, coerce_stack_eq,
      loading, storing, lowered_lowered]

end Item

namespace Target

open Lowering

variable {target : Target} {type : FieldType} {item : Item} {mc : MethodContext} {σ : MethodState}
  {α : Type}

theorem constantValue_expr (target : Target) (type : FieldType) :
    (target.expr type).constantValue = none := by
  cases target <;> simp [expr, kind, Expr.constantValue]

section

variable (found : target.item? σ type = some item)

include found

theorem isPlace : item.IsPlace := by
  cases target with
  | localVar id =>
    obtain ⟨⟨code, register⟩, -, rfl⟩ := Option.map_eq_some_iff.mp found
    exact .localVar code register
  | field receiver ref =>
    cases found
    split
    · exact .static ref
    · exact .member ref
  | element array index =>
    cases found
    exact .element _

theorem genItem_bind_after (first : List Instruction) (f : Item → Lowering α) :
    (lowered (first.map .emit) >>= fun _ => genItem (target.expr type) >>= f) mc σ =
      (lowered (first.map .emit ++ target.finding) >>= fun _ => f item) mc σ := by
  rw [← lowered_lowered, bind_assoc, ← lift_emitAll]
  simp only [lift_bind_apply]
  congr
  funext _
  cases target with
  | localVar id =>
    obtain ⟨⟨code, register⟩, known, rfl⟩ := Option.map_eq_some_iff.mp found
    funext ctx b
    rw [expr, genItem_unfolded (constantValue_expr _ type), kind, genKind, localItem, bind_assoc,
      get_bind, known]
    rfl
  | field receiver ref =>
    cases found
    rw [expr, genItem_unfolded (constantValue_expr _ type), kind, genKind, finding]
    split <;> simp [lowered, Piece.lower, Part.lower]
  | element array index =>
    cases found
    rw [expr, genItem_unfolded (constantValue_expr _ type), kind, genKind]
    simp [finding, lowered, Piece.lower, Part.lower, TypeCode.ofResult]

theorem genItem_bind (f : Item → Lowering α) :
    (genItem (target.expr type) >>= f) mc σ = (lowered target.finding >>= fun _ => f item) mc σ := by
  simpa [lowered_nil] using genItem_bind_after found [] f

end

end Target

namespace Update

open Lowering

/-- The item of an update, before it is used. -/
def result (needed : Bool) (target : Expr) : Update → Lowering Item
  | .assign value => Lowering.assign target value (genItem target) (genItem value)
  | .compound op value _ =>
    if op == .add && target.typeCode == .object then
      concatAssign target.type (genItem target) (genAppended value)
    else compoundAssign op target value (genItem target) (genItem value)
  | .before up => stepBefore up (genItem target)
  | .after up => if needed then stepAfter up (genItem target) else stepBefore up (genItem target)

theorem generate_eq (needed : Bool) (update : Update) (target : Target) (type : FieldType)
    (whole : Option FieldType) :
    generate needed (.mk whole none (update.kind (target.expr type))) =
      update.result needed (target.expr type) >>= use needed := by
  have free : (Expr.mk whole none (update.kind (target.expr type))).constantValue = none := by
    cases update <;> simp [kind, Expr.constantValue, target.constantValue_expr]
  have item := genItem_unfolded free
  cases needed with
  | true =>
    rw [generate, if_pos rfl, item]
    cases update with
    | assign | compound => rfl
    | before up | after up => cases up <;> rfl
  | false =>
    rw [generate, if_neg nofun, genEffect, free]
    cases update with
    | assign | compound => exact congrArg (· >>= _) item
    | before up => cases up <;> exact congrArg (· >>= _) item
    | after up => cases up <;> rfl

section Emitted

variable {needed up : Bool} {target : Target} {type : FieldType} {item : Item} {value : Expr}
  {op : BinaryOp} {mc : MethodContext} {ctx : Context} {σ σ' : MethodState} {b b' : Buffer}

theorem increment_eq (isInt : isIntVariable item) (delta : Int32) :
    (item.increment delta >>= fun _ => use needed item : Lowering Unit) =
      lowered (item.incrementing delta ++ (if needed then item.loading else [])) := by
  cases item with
  | localVar code register =>
    cases needed with
    | true => simp [Item.increment_eq, use, (Item.IsPlace.localVar code register).load_eq,
        discard_eq, lowered_lowered]
    | false => simp [Item.increment_eq, use, Item.drop, Item.dropOperands]
  | _ => cases isInt

theorem throughStack_eq {code : TypeCode} {instruction : Instruction}
    (place : item.IsPlace) (computes : op.isComparison = false)
    (known : operandCode? op (target.expr type) value = some code)
    (chosen : op.instruction? code.truncate = some instruction) :
    (lowered target.finding >>= fun _ =>
      throughStack op (target.expr type) value item (genItem value) >>= use needed) =
    lowered (computing needed target type item
      [.part (.value (if op.isShift then .int else code) value)] code instruction) := by
  have isValue := operandCode?_ne_void known
  have result : Item.ofStack code = .stack code := if_neg isValue
  have whole : (target.expr type).typeCode = .ofType type := rfl
  have narrowed := Item.coerce_stack_bind code (TypeCode.ofType_ne_void type) (α := Unit)
  simp only [throughStack, operandCode, known, place.duplicate_eq, bind_assoc, pure_bind,
    place.coerce_bind isValue, applyBinary_eq computes, chosen, lowered_bind, narrowed, result,
    whole, place.use_assign_eq, lowered_lowered, computing, List.append_assoc]

variable (found : target.item? σ type = some item)

include found

theorem assign_eq :
    (Lowering.assign (target.expr type) value (genItem (target.expr type)) (genItem value) >>=
      use needed) mc σ =
    lowered (target.finding ++ [.part (.value item.typeCode value)] ++
      (if value.isNull then [.retype (.ofFieldType type)] else []) ++
      item.finishing needed) mc σ := by
  have inner : discard (loadAs item.typeCode (genItem value)) = _ :=
    lowered_part (.value item.typeCode value)
  have retyped : force (.ofFieldType type) = lowered [.retype (.ofFieldType type)] := by
    simp [lowered, Piece.lower]
  rw [Lowering.assign, bind_assoc, Target.genItem_bind found]
  cases value.isNull <;>
    simp [inner, retyped, lowered_lowered, (Target.isPlace found).use_assign_eq, Target.expr,
      Expr.type]

theorem concat_eq :
    (concatAssign (target.expr type).type (genItem (target.expr type)) (genAppended value) >>=
      use needed) mc σ = lowered (concatenating needed target type item value) mc σ := by
  have place := Target.isPlace found
  have inner : genAppended value = _ := lowered_part (.appended value)
  have start : newStringBuilder = lowered (building.map .emit) := by
    simp [newStringBuilder, building, lift_emit, lowered_lowered]
  rw [concatAssign, bind_assoc, start]
  simp only [bind_assoc]
  rw [Target.genItem_bind_after found, concatenating]
  split <;> simp [place.load_eq, place.use_assign_eq, discard_eq, inner, append, builtString,
    appending, lift_emit, lowered_lowered, Target.expr, Expr.type]

theorem before_ok
    (run : (stepBefore up (genItem (target.expr type)) >>= use needed) mc σ ctx b =
      .ok ((), σ') b') :
    ∃ pieces, stepping? needed target item up = some pieces ∧
      lowered pieces mc σ ctx b = .ok ((), σ') b' := by
  have place := Target.isPlace found
  rw [stepBefore, bind_assoc, Target.genItem_bind found] at run
  rw [stepping?]
  cases isInt : isIntVariable item with
  | true =>
    refine ⟨_, rfl, ?_⟩
    simpa [isInt, increment_eq isInt, lowered_lowered] using run
  | false =>
    cases step : item.typeCode.stepping? up with
    | none =>
      simp [isInt, step_eq, step, place.duplicate_eq, place.load_eq, discard_eq, lowered_bind]
        at run
      cases not_ok_of_fail run
    | some pieces =>
      refine ⟨_, rfl, ?_⟩
      simpa [isInt, step_eq, step, place.duplicate_eq, place.load_eq, place.use_assign_eq,
        discard_eq, lowered_lowered] using run

theorem after_ok (typed : item.typeCode = .ofType type)
    (run : (stepAfter up (genItem (target.expr type)) >>= use true) mc σ ctx b = .ok ((), σ') b') :
    ∃ pieces, pieces? true target type item (.after up) = some pieces ∧
      lowered pieces mc σ ctx b = .ok ((), σ') b' := by
  have place := Target.isPlace found
  have kept : use true (.ofStack item.typeCode) = pure () := by
    rw [typed, use, Item.ofStack, if_neg (TypeCode.ofType_ne_void type)]
    simp [discard_eq]
  rw [stepAfter, bind_assoc, Target.genItem_bind found] at run
  rw [pieces?, if_pos rfl]
  cases isInt : isIntVariable item with
  | true =>
    refine ⟨_, rfl, ?_⟩
    cases item with
    | localVar code register =>
      simpa [isInt, place.duplicate_eq, place.load_eq, Item.increment_eq, lowered_lowered, kept]
        using run
    | _ => cases isInt
  | false =>
    cases step : item.typeCode.stepping? up with
    | none =>
      simp [isInt, step_eq, step, place.duplicate_eq, place.load_eq, place.stash_eq, lowered_bind]
        at run
      cases not_ok_of_fail run
    | some pieces =>
      refine ⟨_, rfl, ?_⟩
      simpa [isInt, step_eq, step, place.duplicate_eq, place.load_eq, place.stash_eq,
        place.store_eq, lowered_lowered, kept] using run

theorem throughStack_ok (computes : op.isComparison = false)
    (run : (lowered target.finding >>= fun _ =>
      throughStack op (target.expr type) value item (genItem value) >>= use needed) mc σ ctx b =
        .ok ((), σ') b') :
    ∃ code instruction, operandCode? op (target.expr type) value = some code ∧
      op.instruction? code.truncate = some instruction := by
  cases known : operandCode? op (target.expr type) value with
  | none =>
    simp [throughStack, operandCode, known] at run
    cases not_ok_of_fail run
  | some code =>
    cases chosen : op.instruction? code.truncate with
    | none =>
      simp only [throughStack, operandCode, known, (Target.isPlace found).duplicate_eq, bind_assoc,
        pure_bind, (Target.isPlace found).coerce_bind (operandCode?_ne_void known),
        applyBinary_eq computes, chosen, fail_bind, lowered_bind] at run
      cases not_ok_of_fail run
    | some instruction => exact ⟨code, instruction, rfl, chosen⟩

theorem compound_ok (computes : op.isComparison = false)
    (run : (compoundAssign op (target.expr type) value (genItem (target.expr type))
      (genItem value) >>= use needed) mc σ ctx b = .ok ((), σ') b')
    (other : ¬(op == .add && TypeCode.ofType type == .object) = true) :
    ∃ pieces, pieces? needed target type item (.compound op value computes) = some pieces ∧
      lowered pieces mc σ ctx b = .ok ((), σ') b' := by
  rw [compoundAssign, bind_assoc, Target.genItem_bind found] at run
  rw [pieces?, if_neg other, inPlace?]
  split at run
  · rename_i isInt known
    rw [if_pos isInt, known]
    refine ⟨_, rfl, ?_⟩
    simpa [increment_eq isInt, lowered_lowered] using run
  · rename_i special
    obtain ⟨code, instruction, known, chosen⟩ := throughStack_ok found computes run
    rw [throughStack_eq (Target.isPlace found) computes known chosen] at run
    have slow : (if isIntVariable item then constantStep op value else none) = none := by
      split
      · rename_i isInt
        exact Option.eq_none_iff_forall_ne_some.mpr fun delta step => special delta isInt step
      · rfl
    rw [slow, known]
    simp only [chosen, Option.bind_some, bind]
    exact ⟨_, rfl, run⟩

/-- The lowered update is its code in pieces, with the parts of the target and of the value as they
are. -/
theorem emitted {update : Update} {whole : Option FieldType} (typed : item.typeCode = .ofType type)
    (run : generate needed (.mk whole none (update.kind (target.expr type))) mc σ ctx b =
      .ok ((), σ') b') :
    ∃ pieces, update.pieces? needed target type item = some pieces ∧
      lowered pieces mc σ ctx b = .ok ((), σ') b' := by
  rw [generate_eq] at run
  cases update with
  | assign value =>
    rw [result, assign_eq found] at run
    exact ⟨_, rfl, run⟩
  | compound op value computes =>
    rw [result] at run
    split at run
    · rename_i strings
      rw [concat_eq found] at run
      exact ⟨_, if_pos strings, run⟩
    · rename_i other
      exact compound_ok found computes run other
  | before up => exact before_ok found run
  | after up =>
    cases needed with
    | true => exact after_ok found typed run
    | false => exact before_ok found run

end Emitted

end Update

end ClassForge
