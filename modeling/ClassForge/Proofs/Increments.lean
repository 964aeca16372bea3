import ClassForge.Proofs.Assignments
import ClassForge.Proofs.Disassembly
import ClassForge.Proofs.Folding

namespace ClassForge

open Lowering (Piece lowered genItem loadAs compoundAssign throughStack constantStep)

namespace BaseType

def isSmall : BaseType → Bool
  | .int | .byte | .char | .short => true
  | _ => false

end BaseType

/-- What instructions compute from values of type `int`. -/
def Instruction.onInts : Instruction → List Int32 → Int32
  | .pushInt n, [] => .ofInt (n.val - 1)
  | .pushByte n, [] => n.toInt32
  | .pushShort n, [] => n.toInt32
  | .pushConstant (.integer n), [] => n
  | .arithmetic .add .int, [right, left] => left + right
  | .arithmetic .sub .int, [right, left] => left - right
  | .narrow .byte, [n] => n.toInt8.toInt32
  | .narrow .char, [n] => (n.toUInt32 &&& 0xFFFF).toInt32
  | .narrow .short, [n] => n.toInt16.toInt32
  | _, _ => 0

theorem Instruction.onInts_loadInstruction (n : Int32) :
    (Literal.int n).loadInstruction.onInts [] = n := by
  rw [Literal.loadInstruction]
  split
  · rename_i small
    change Int32.ofInt ((n.toInt + 1).toNat - 1) = n
    rw [Int.toNat_of_nonneg (by omega), Int.add_sub_cancel, Int32.ofInt_toInt]
  · split
    · rename_i byte
      have bounds : (-0x80 : Int32).toInt = -0x80 ∧ (0x7F : Int32).toInt = 0x7F := ⟨rfl, rfl⟩
      have low := Int32.le_iff_toInt_le.mp byte.1
      have high := Int32.le_iff_toInt_le.mp byte.2
      apply Int32.toInt_inj.mp
      change n.toInt8.toInt32.toInt = n.toInt
      rw [Int8.toInt_toInt32, Int32.toInt_toInt8]
      exact Int.bmod_eq_of_le (by omega) (by omega)
    · split
      · rename_i short
        exact toInt32_toInt16 short.1 short.2
      · rfl

variable {meaning : Meaning Int32} {type : BaseType}

namespace Meaning

theorem converted_int (ints : meaning.compute = Instruction.onInts) (small : type.isSmall) (n : Int) :
    meaning.converted .int (.ofBase type) (.ofInt n) = .ofInt (type.wrap n) := by
  have narrowed := BaseType.ofInt_narrow n
  cases type with
  | int => exact (BaseType.ofInt_wrap n).1.symm
  | byte => exact (congrFun (congrFun ints _) _).trans narrowed.1
  | char => exact (congrFun (congrFun ints _) _).trans narrowed.2.1
  | short => exact (congrFun (congrFun ints _) _).trans narrowed.2.2
  | _ => cases small

theorem sum_ints (ints : meaning.compute = Instruction.onInts) (code : TypeCode) (delta n : Int32) :
    meaning.sum code delta n = meaning.converted .int code (n + delta) := by
  rw [sum, ints, Instruction.onInts_loadInstruction, Instruction.onInts_loadInstruction]
  split
  · rfl
  · exact congrArg _ Int32.sub_neg

end Meaning

namespace Lowering

theorem loadAs_constant {value : Expr} {c : Int32} (constant : value.constantValue = some (.int c))
    (small : value.typeCode.truncate = .int) :
    discard (loadAs .int (genItem value)) = lowered [.emit (Literal.int c).loadInstruction] := by
  cases value with
  | mk type noted kind =>
    cases type with
    | none => cases small
    | some type =>
      have item : genItem (.mk (some type) noted kind) =
          pure (.immediate (.int c) (.ofType type)) := by
        rw [genItem, foldedOr, constant]
        rfl
      have loaded (code : TypeCode) : (Item.immediate (.int c) code).load =
          Asm.emit (Literal.int c).loadInstruction >>= fun _ => pure (.ofStack code) := rfl
      rw [loadAs, item]
      by_cases same : TypeCode.ofType type = .int <;>
        simp [Item.coerce, Item.typeCode, same, Literal.coerce?, Literal.toInt?, loaded,
          discard_eq, lift_emit]

end Lowering

namespace Lowering

variable {op : BinaryOp} {value : Expr} {c : Int32} {id : VarId} {register : UInt16}
  {arithmetic : ArithmeticOp} {mc : MethodContext} {σ : MethodState}

section Stack

variable (small : type.isSmall)
  (adds : op = .add ∧ arithmetic = .add ∨ op = .sub ∧ arithmetic = .sub)
  (constant : value.constantValue = some (.int c)) (kind : value.typeCode.truncate = .int)

include small adds kind

theorem operandCode?_small (notNull : value.isNull = false) :
    operandCode? op (.mk (some (.base type)) none (.localVar id)) value = some .int := by
  have left : TypeCode.promote (.ofBase type) value.typeCode = some .int := by
    revert small kind
    generalize value.typeCode = code
    cases type <;> cases code <;> decide
  have boolean : (Expr.mk (some (.base type)) none (.localVar id)).isBoolean = false := by
    cases type <;> first | rfl | cases small
  have objects : TypeCode.ofBase type ≠ .object ∧ value.typeCode ≠ .object := by
    refine ⟨by cases type <;> nofun, fun same => ?_⟩
    rw [same] at kind
    cases kind
  have shift : op.isShift = false := by
    rcases adds with ⟨rfl, -⟩ | ⟨rfl, -⟩ <;> rfl
  have null : (Expr.mk (some (.base type)) none (.localVar id)).isNull = false := rfl
  have code : (Expr.mk (some (.base type)) none (.localVar id)).typeCode = .ofBase type := rfl
  simp [operandCode?, boolean, shift, null, notNull, code, objects, left]

include constant

theorem throughStack_adding (notNull : value.isNull = false) :
    (throughStack op (.mk (some (.base type)) none (.localVar id)) value
      (.localVar (.ofBase type) register) (genItem value) >>= use false) =
      lowered (Update.computing false (.localVar id) (.base type)
        (.localVar (.ofBase type) register) [.emit (Literal.int c).loadInstruction] .int
        (.arithmetic arithmetic .int)) := by
  have loaded : lowered [.part (.value .int value)] = _ :=
    (lowered_part (.value .int value)).symm.trans (loadAs_constant constant kind)
  have place := Item.IsPlace.localVar (.ofBase type) register
  have code : operandCode? op ((Target.localVar id).expr (.base type)) value = some .int :=
    operandCode?_small small adds kind notNull
  have forms : op.isComparison = false ∧ op.isShift = false ∧
      op.instruction? .int = some (.arithmetic arithmetic .int) := by
    rcases adds with ⟨rfl, rfl⟩ | ⟨rfl, rfl⟩ <;> exact ⟨rfl, rfl, rfl⟩
  change (lowered (Target.localVar id).finding >>= fun _ =>
    throughStack op ((Target.localVar id).expr (.base type)) value _ _ >>= use false) = _
  rw [Update.throughStack_eq place forms.1 code forms.2.2]
  simp only [Update.computing, ← lowered_lowered, forms.2.1, Bool.false_eq_true, if_false, loaded]

end Stack

theorem run_adding (small : type.isSmall) (ints : meaning.compute = Instruction.onInts)
    (below : List (Slot Int32)) (memory : Memory Int32) :
    Machine.run meaning ⟨below, memory⟩
      (Update.computing false (.localVar id) (.base type) (.localVar (.ofBase type) register)
        [.emit (Literal.int c).loadInstruction] .int (.arithmetic arithmetic .int)) =
      some ⟨below, memory.store (.register register) (meaning.converted .int (.ofBase type)
        ((Instruction.arithmetic arithmetic .int).onInts
          [c, memory.content (.register register)]))⟩ := by
  have names : Item.Names (.localVar (.ofBase type) register) (.register register) :=
    .localVar (V := Int32) (.ofBase type) register
  have numbers : (TypeCode.ofBase type).numKind?.isSome ∧ TypeCode.int.numKind?.isSome := by
    cases type <;> exact ⟨rfl, rfl⟩
  have same (n : Int32) : meaning.converted (.ofBase type) .int n = n := by
    cases type <;> first | rfl | cases small
  have valued (below : List (Slot Int32)) : Machine.run meaning ⟨below, memory⟩
      [.emit (Literal.int c).loadInstruction] = some ⟨Slot.of 1 c ++ below, memory⟩ := by
    rw [Machine.run_emit, Machine.step_constant (Instruction.signature?_loadInstruction c), ints,
      Instruction.onInts_loadInstruction]
  refine (Update.run_computing names (fun _ => rfl) rfl numbers rfl valued).trans ?_
  rw [Item.typeCode, same, ints]
  rfl

theorem ofInt_result (op : BinaryOp) (n c : Int32) :
    Int32.ofInt (if op = .add then n.toInt + c.toInt else n.toInt - c.toInt) =
      n + (if op = .add then c else -c) := by
  split
  · rw [Int32.ofInt_add, Int32.ofInt_toInt, Int32.ofInt_toInt]
  · rw [Int32.ofInt_sub, Int32.ofInt_toInt, Int32.ofInt_toInt, Int32.sub_eq_add_neg]

/-- Adding a constant to a variable or subtracting one leaves the same in the variable by either
code: the result of the operator, cut to the type of the variable. -/
theorem increment_agrees (small : type.isSmall) (adds : op = .add ∨ op = .sub)
    (constant : value.constantValue = some (.int c)) (kind : value.typeCode.truncate = .int)
    (notNull : value.isNull = false)
    (known : σ.locals[id]? = some (.ofBase type, register)) :
    let target := Expr.mk (some (.base type)) none (.localVar id)
    ∃ short long : List Piece,
      (compoundAssign op target value (genItem target) (genItem value) >>= use false) mc σ =
        lowered short mc σ ∧
      (throughStack op target value (.localVar (.ofBase type) register) (genItem value) >>=
        use false) = lowered long ∧
      (∀ pieces ∈ [short, long], ∀ (meaning : Meaning Int32) (below : List (Slot Int32))
        (memory : Memory Int32), meaning.compute = Instruction.onInts →
        let old := (memory.content (.register register)).toInt
        Machine.run meaning ⟨below, memory⟩ pieces =
          some ⟨below, memory.store (.register register) (.ofInt (type.wrap
            (if op = .add then old + c.toInt else old - c.toInt)))⟩) ∧
      ∀ delta, .emit (.increment register delta) ∈ short → ∀ pool, ∃ bytes,
        (Instruction.increment register delta).encode pool = .ok bytes pool ∧
        ∀ table, Instruction.read? table bytes = some (.increment register delta) := by
  intro target
  have found : (Target.localVar id).item? σ (.base type) =
      some (.localVar (.ofBase type) register) := by
    rw [Target.item?, known]
    rfl
  have isInt : isIntVariable (.localVar (.ofBase type) register) := by
    cases type <;> first | rfl | cases small
  have step : constantStep op value = some (if op = .add then c else -c) := by
    revert kind
    rcases adds with rfl | rfl <;> simp only [constantStep, constant] <;>
      cases value.typeCode <;> intro same <;> first | rfl | cases same
  have arithmetic : ∃ arithmetic, op = .add ∧ arithmetic = .add ∨
      op = .sub ∧ arithmetic = ArithmeticOp.sub := by
    rcases adds with rfl | rfl
    · exact ⟨.add, .inl ⟨rfl, rfl⟩⟩
    · exact ⟨.sub, .inr ⟨rfl, rfl⟩⟩
  obtain ⟨arithmetic, computes⟩ := arithmetic
  refine ⟨Item.incrementing (if op = .add then c else -c) (.localVar (.ofBase type) register),
    _, ?_, throughStack_adding small computes constant kind notNull, ?_, ?_⟩
  · change (compoundAssign op _ value (genItem ((Target.localVar id).expr (.base type))) _ >>=
      use false) mc σ = _
    rw [compoundAssign, bind_assoc, Target.genItem_bind found, isInt, step]
    simp [Target.finding, lowered_nil, Update.increment_eq isInt]
  · intro pieces member meaning below memory ints old
    have result := ofInt_result op (memory.content (.register register)) c
    rcases List.mem_pair.mp member with rfl | rfl
    · have names : Item.Names (.localVar (.ofBase type) register) (.register register) :=
        .localVar (V := Int32) (.ofBase type) register
      rw [Machine.run_incrementing names isInt, Meaning.sum_ints ints, ← result]
      rw [Item.typeCode, Meaning.converted_int ints small]
    · have computed : (Instruction.arithmetic arithmetic .int).onInts
          [c, memory.content (.register register)] =
          memory.content (.register register) + (if op = .add then c else -c) := by
        rcases computes with ⟨rfl, rfl⟩ | ⟨rfl, rfl⟩
        · rfl
        · exact Int32.sub_eq_add_neg _ _
      rw [run_adding small ints, computed, ← result, Meaning.converted_int ints small]
  · intro delta _ pool
    exact ⟨_, rfl, fun table => Instruction.read_encodeIncrement register delta⟩

def oneVariable : MethodState := { locals := Std.HashMap.insert ∅ 0 (.int, 3) }

/-- The least constant is its own negative. -/
theorem increment_agrees_least :
    let target := Expr.mk (some (.base .int)) none (.localVar 0)
    let value := Expr.mk (some (.base .int)) none (.literal (.int (-2147483648)))
    ∃ short long : List Piece,
      (compoundAssign .sub target value (genItem target) (genItem value) >>= use false)
        ⟨.default, .void⟩ oneVariable = lowered short ⟨.default, .void⟩ oneVariable ∧
      (throughStack .sub target value (.localVar .int 3) (genItem value) >>= use false) =
        lowered long ∧
      ∀ pieces ∈ [short, long], ∀ below,
        Machine.run ⟨Instruction.onInts, fun _ _ memory => (0, memory), fun _ _ memory => (0, memory)⟩
          ⟨below, ⟨fun _ => 5, []⟩⟩ pieces =
          some ⟨below, Memory.store ⟨fun _ => 5, []⟩ (.register 3) (-2147483643)⟩ := by
  have known : oneVariable.locals[(0 : VarId)]? = some (.ofBase .int, 3) :=
    Std.HashMap.getElem?_insert_self
  have constant : (Expr.mk (some (.base .int)) none
      (.literal (.int (-2147483648)))).constantValue = some (.int (-2147483648)) := by
    cbv
  have subtracts : BinaryOp.sub = .add ∨ BinaryOp.sub = .sub := .inr rfl
  obtain ⟨short, long, direct, general, runs, -⟩ :=
    increment_agrees rfl subtracts constant rfl rfl known
  exact ⟨short, long, direct, general, fun pieces member below =>
    runs pieces member _ below _ rfl⟩

end Lowering

end ClassForge
