import ClassForge.Proofs.Updates
import Mathlib

namespace ClassForge

open Lowering (Piece lowered isIntVariable operandCode? operandCode?_num appendParameter generate)

variable {V : Type} [DecidableEq V] {place : Place V} {item : Item}

def Place.operands : Place V → List (Slot V)
  | .register _ | .static _ => []
  | .field object _ => [.whole object]
  | .element array index => [.whole index, .whole array]

inductive Item.Names : Item → Place V → Prop
  | localVar (code : TypeCode) (register : UInt16) :
    Names (.localVar code register) (.register register)
  | static (ref : FieldRef) : Names (.static (.field ref)) (.static ref)
  | member (object : V) (ref : FieldRef) : Names (.member (.field ref) false) (.field object ref)
  | element (code : TypeCode) (array index : V) : Names (.indexed code) (.element array index)

namespace Meaning

variable (meaning : Meaning V)

def converted (source target : TypeCode) (value : V) : V :=
  if source = target then value
  else (Instruction.conversions source target).foldl
    (fun value instruction => meaning.compute instruction [value]) value

def sum (code : TypeCode) (delta : Int32) (value : V) : V :=
  meaning.converted .int code (
    if code = .int ∧ -0x8000 ≤ delta ∧ delta ≤ 0x7FFF ∨ 0 ≤ delta then
      meaning.compute (.arithmetic .add .int)
        [meaning.compute (Literal.int delta).loadInstruction [], value]
    else
      meaning.compute (.arithmetic .sub .int)
        [meaning.compute (Literal.int (-delta)).loadInstruction [], value])

def neighbour? (up : Bool) (code : TypeCode) (value : V) : Option V := do
  let kind ← code.truncate.arithmeticKind?
  return meaning.converted code.truncate code (meaning.compute
    (.arithmetic (if up then .add else .sub) kind) [meaning.compute kind.one [], value])

end Meaning

/-- Find the place of a target: its operands are evaluated once, in order. -/
def Target.locate (meaning : Meaning V) (σ : MethodState) (memory : Memory V) :
    Target → Option (Place V × Memory V)
  | .localVar id => σ.locals[id]?.map fun (_, register) => (.register register, memory)
  | .field receiver ref =>
    if ref.isStatic then some (.static ref, (meaning.part (.unused receiver) [] memory).2)
    else
      let (object, memory) := meaning.part (.receiver receiver) [] memory
      some (.field object ref, memory)
  | .element array index =>
    let (array, memory) := meaning.part (.value .object array) [] memory
    let (index, memory) := meaning.part (.value .int index) [] memory
    some (.element array index, memory)

/-- A change of one place, with the memory right before it. -/
structure Change (V : Type) where
  place : Place V
  old : V
  new : V
  memory : Memory V

namespace Update

def change? (meaning : Meaning V) (σ : MethodState) (target : Target) (type : FieldType)
    (item : Item) (memory : Memory V) : Update → Option (Change V)
  | .assign value => do
    let (place, memory) ← target.locate meaning σ memory
    let (new, later) := meaning.part (.value item.typeCode value) [] memory
    return ⟨place, memory.content place, new, later⟩
  | .compound op value _ =>
    if op == .add && TypeCode.ofType type == .object then do
      let builder := meaning.compute (.allocate .stringBuilder) []
      let (_, memory) := meaning.call (.constructor .stringBuilder []) [builder] memory
      let (place, memory) ← target.locate meaning σ memory
      let old := memory.content place
      let (builder, memory) := meaning.call (.instanceMethod .stringBuilder .append
        ⟨[appendParameter (some type)], some (.object .stringBuilder)⟩) [old, builder] memory
      let (builder, memory) := meaning.part (.appended value) [builder] memory
      let (new, memory) := meaning.call (.instanceMethod .stringBuilder .toStringName
        ⟨[], some (.object .string)⟩) [builder] memory
      return ⟨place, old, new, memory⟩
    else do
      let (place, memory) ← target.locate meaning σ memory
      let old := memory.content place
      match inPlace? op value item with
      | some delta => return ⟨place, old, meaning.sum item.typeCode delta old, memory⟩
      | none =>
        let code ← operandCode? op (target.expr type) value
        let instruction ← op.instruction? code.truncate
        let left := meaning.converted item.typeCode code old
        let (right, memory) :=
          meaning.part (.value (if op.isShift then .int else code) value) [] memory
        return ⟨place, old, meaning.converted code item.typeCode
          (meaning.compute instruction [right, left]), memory⟩
  | .before up | .after up => do
    let (place, memory) ← target.locate meaning σ memory
    let old := memory.content place
    if isIntVariable item then
      return ⟨place, old, meaning.sum item.typeCode (if up then 1 else -1) old, memory⟩
    else
      return ⟨place, old, ← meaning.neighbour? up item.typeCode old, memory⟩

/-- The value of an update: what was there before for `x++` and `x--`, and else what is stored. -/
def valueOf (change : Change V) : Update → V
  | .after _ => change.old
  | _ => change.new

end Update

theorem toInt32_toInt16 {delta : Int32} (low : -0x8000 ≤ delta) (high : delta ≤ 0x7FFF) :
    delta.toInt16.toInt32 = delta := by
  have bounds : (-0x8000 : Int32).toInt = -0x8000 ∧ (0x7FFF : Int32).toInt = 0x7FFF := ⟨rfl, rfl⟩
  rw [Int32.le_iff_toInt_le, bounds.1] at low
  rw [Int32.le_iff_toInt_le, bounds.2] at high
  apply Int32.toInt_inj.mp
  rw [Int16.toInt_toInt32, Int32.toInt_toInt16]
  exact Int.bmod_eq_of_le (by omega) (by omega)

namespace Instruction

theorem signature?_loadInstruction (n : Int32) :
    (Literal.int n).loadInstruction.signature? = some ([], 1) := by
  rw [Literal.loadInstruction]
  split_ifs <;> rfl

theorem signature?_operator {op : BinaryOp} {code : TypeCode} {instruction : Instruction}
    (known : op.instruction? code.truncate = some instruction) :
    instruction.signature? =
      some ([(if op.isShift then .int else code : TypeCode).width, code.width], code.width) := by
  cases op <;> cases code <;> cases known <;> rfl

end Instruction

namespace Machine

variable {meaning : Meaning V} {below : List (Slot V)} {memory : Memory V} {value : V}
  {code source target : TypeCode}

section Places

variable (names : item.Names place)

include names

theorem run_loading : run meaning ⟨place.operands ++ below, memory⟩ item.loading =
    some ⟨Slot.of item.typeCode.width (memory.content place) ++ below, memory⟩ := by
  cases names <;> simp [Item.loading, run_emit, step, Instruction.signature?, Instruction.reads?,
    Instruction.loadOf, Instruction.arrayLoadOf, take, Place.operands, push, Instruction.place?,
    Slot.of_kind, Item.typeCode, MemberRef.typeCode]

theorem run_storing :
    run meaning ⟨Slot.of item.typeCode.width value ++ (place.operands ++ below), memory⟩
      item.storing = some ⟨below, memory.store place value⟩ := by
  have kinds (code : TypeCode) := Slot.of_kind code value
  cases names with
  | localVar code =>
    simp [Item.storing, run_emit, step, Instruction.signature?, Instruction.reads?,
      Instruction.writes?, Instruction.storeOf, take, Place.operands, Instruction.place?,
      Item.typeCode, ← (kinds code).1]
  | element code =>
    simp [Item.storing, run_emit, step, Instruction.signature?, Instruction.reads?,
      Instruction.writes?, Instruction.arrayStoreOf, take, Place.operands, Instruction.place?,
      Item.typeCode, ← (kinds code).2]
  | static | member =>
    simp [Item.storing, run_emit, step, Instruction.signature?, Instruction.reads?,
      Instruction.writes?, take, Place.operands, Instruction.place?, Item.typeCode,
      MemberRef.typeCode]

theorem run_copying : run meaning ⟨place.operands ++ below, memory⟩ item.copying =
    some ⟨place.operands ++ (place.operands ++ below), memory⟩ := by
  cases names <;>
    simp [Item.copying, run, step, StackOp.copy?, Slot.duplicate, Slot.areWhole, Place.operands]

theorem run_stashing :
    run meaning ⟨Slot.of item.typeCode.width value ++ (place.operands ++ below), memory⟩
      item.stashing =
      some ⟨Slot.of item.typeCode.width value ++
        (place.operands ++ (Slot.of item.typeCode.width value ++ below)), memory⟩ := by
  by_cases wide : item.typeCode.width = 2 <;> cases names <;>
    simp_all [Item.stashing, run, step, StackOp.copy?, Slot.duplicate, Slot.areWhole,
      Place.operands, Slot.of, Instruction.dupUnder, Instruction.dupOf, Item.typeCode]

theorem run_finishing (needed : Bool) :
    run meaning ⟨Slot.of item.typeCode.width value ++ (place.operands ++ below), memory⟩
      (item.finishing needed) =
      some ⟨(if needed then Slot.of item.typeCode.width value else []) ++ below,
        memory.store place value⟩ := by
  cases needed with
  | false => simpa [Item.finishing] using run_storing names
  | true => simp [Item.finishing, run_append, run_stashing names, run_storing names]

end Places

theorem run_narrowing (code : TypeCode) : run meaning ⟨Slot.of code.width value ++ below, memory⟩
    ((code.narrowKind?.map Instruction.narrow).toList.map .emit) =
      some ⟨Slot.of code.width ((code.narrowKind?.map Instruction.narrow).toList.foldl
        (fun value instruction => meaning.compute instruction [value]) value) ++ below, memory⟩ := by
  cases code <;> rfl

theorem width_of_numKind {kind : NumKind} (known : code.numKind? = some kind) :
    kind.type.width = code.width := by
  cases code <;> cases known <;> rfl

theorem run_converting (number : source.numKind?.isSome) (number' : target.numKind?.isSome) :
    run meaning ⟨Slot.of source.width value ++ below, memory⟩ (source.converting target) =
      some ⟨Slot.of target.width (meaning.converted source target value) ++ below, memory⟩ := by
  obtain ⟨first, known⟩ := Option.isSome_iff_exists.mp number
  obtain ⟨second, known'⟩ := Option.isSome_iff_exists.mp number'
  have width := width_of_numKind known
  have width' := width_of_numKind known'
  rw [TypeCode.converting, Meaning.converted]
  split
  · rename_i same
    subst same
    rfl
  · by_cases same : first = second
    · subst same
      simpa [Instruction.conversions, known, known', Conversion.between?, ← width, ← width'] using
        run_narrowing target
    · have converts : (Instruction.convert ⟨first, second, same⟩).signature? =
          some ([source.width], target.width) := by
        rw [Instruction.signature?, width, width']
      have split : Instruction.conversions source target =
          .convert ⟨first, second, same⟩ :: (target.narrowKind?.map Instruction.narrow).toList := by
        simp [Instruction.conversions, known, known', Conversion.between?, same]
      rw [split, List.map_cons, run_cons, step_unary converts]
      exact run_narrowing target

theorem run_adding (op : ArithmeticOp) (n : Int32) :
    run meaning ⟨Slot.of 1 value ++ below, memory⟩
      [.emit (Literal.int n).loadInstruction, .emit (.arithmetic op .int)] =
      some ⟨Slot.of 1 (meaning.compute (.arithmetic op .int)
        [meaning.compute (Literal.int n).loadInstruction [], value]) ++ below, memory⟩ := by
  have adds : (Instruction.arithmetic op .int).signature? = some ([1, 1], 1) := rfl
  rw [run_cons, step_constant (Instruction.signature?_loadInstruction n)]
  exact (run_emit _ _).trans (step_binary adds)

omit [DecidableEq V] in
theorem operands_of_isIntVariable (names : item.Names place) (isInt : isIntVariable item) :
    place.operands = [] := by
  cases names <;> first | rfl | cases isInt

theorem run_incrementing (names : item.Names place) (isInt : isIntVariable item) (delta : Int32) :
    run meaning ⟨below, memory⟩ (item.incrementing delta) =
      some ⟨below,
        memory.store place (meaning.sum item.typeCode delta (memory.content place))⟩ := by
  have operands := operands_of_isIntVariable names isInt
  have small : item.typeCode.width = 1 ∧ item.typeCode.numKind?.isSome := by
    cases names with
    | localVar code => cases code <;> first | exact ⟨rfl, rfl⟩ | cases isInt
    | _ => cases isInt
  have loaded : run meaning ⟨below, memory⟩ item.loading =
      some ⟨Slot.of 1 (memory.content place) ++ below, memory⟩ := by
    rw [← small.1, ← run_loading names, operands, List.nil_append]
  have stored (value : V) : run meaning ⟨Slot.of item.typeCode.width value ++ below, memory⟩
      item.storing = some ⟨below, memory.store place value⟩ := by
    rw [← run_storing names, operands, List.nil_append]
  have int : TypeCode.int.numKind?.isSome := rfl
  have narrowed (value : V) : run meaning ⟨Slot.of 1 value ++ below, memory⟩ _ = _ :=
    run_converting int small.2
  cases names with
  | localVar code register =>
    rw [Item.incrementing, Meaning.sum]
    split
    · rename_i short
      simp [run_emit, step, short, toInt32_toInt16 short.2.1 short.2.2, Meaning.converted,
        Item.typeCode]
    · rename_i long
      simp only [Item.typeCode] at narrowed stored
      simp only [Item.typeCode, long, false_or]
      split <;> simp only [run_append, loaded, run_adding, narrowed, stored,
        Option.bind_eq_bind, Option.bind_some]
  | _ => cases isInt

theorem run_stepping {up : Bool} {pieces : List Piece} (known : code.stepping? up = some pieces)
    (meaning : Meaning V) (value : V) :
    ∃ new, meaning.neighbour? up code value = some new ∧
      ∀ below memory, run meaning ⟨Slot.of code.width value ++ below, memory⟩ pieces =
        some ⟨Slot.of code.width new ++ below, memory⟩ := by
  obtain ⟨kind, arithmetic, rest⟩ := Option.bind_eq_some_iff.mp known
  cases rest
  have numbers : kind.type.width = code.width ∧ code.truncate.width = code.width ∧
      code.truncate.numKind?.isSome ∧ code.numKind?.isSome := by
    cases code <;> cases arithmetic <;> exact ⟨rfl, rfl, rfl, rfl⟩
  obtain ⟨width, truncated, number, number'⟩ := numbers
  refine ⟨_, by rw [Meaning.neighbour?, arithmetic]; rfl, fun below memory => ?_⟩
  have one : kind.one.signature? = some ([], code.width) := by
    rw [← width]
    cases kind <;> rfl
  have adds (op : ArithmeticOp) : (Instruction.arithmetic op kind).signature? =
      some ([code.width, code.width], code.width) := by
    rw [Instruction.signature?, width]
  have converted (value : V) : run meaning ⟨Slot.of code.width value ++ below, memory⟩ _ = _ :=
    truncated ▸ run_converting number number'
  rw [run_append, run_cons, step_constant one]
  simp only [Option.bind_eq_bind, Option.bind_some, run_emit, step_binary (adds _), converted]

theorem run_finding {target : Target} {type : FieldType} {σ : MethodState}
    (found : target.item? σ type = some item) (meaning : Meaning V) (memory : Memory V) :
    ∃ place after, target.locate meaning σ memory = some (place, after) ∧ item.Names place ∧
      ∀ below, run meaning ⟨below, memory⟩ target.finding =
        some ⟨place.operands ++ below, after⟩ := by
  cases target with
  | localVar id =>
    obtain ⟨⟨code, register⟩, known, rfl⟩ := Option.map_eq_some_iff.mp found
    exact ⟨_, _, by rw [Target.locate, known]; rfl, .localVar code register, fun _ => rfl⟩
  | field receiver ref =>
    cases found
    rw [Target.locate, Target.finding]
    split
    · exact ⟨_, _, rfl, .static ref, fun _ => rfl⟩
    · exact ⟨_, _, rfl, .member _ ref, fun _ => rfl⟩
  | element array index =>
    cases found
    exact ⟨_, _, rfl, .element _ _ _, fun _ => rfl⟩

end Machine

namespace Update

open Machine

variable {meaning : Meaning V} {below : List (Slot V)} {memory start found : Memory V} {value : Expr}
  {target : Target} {type : FieldType} {σ : MethodState} {needed up : Bool} {pieces : List Piece}
  {op : BinaryOp} {update : Update}

section Found

variable (names : item.Names place)
  (finds : ∀ below, run meaning ⟨below, memory⟩ target.finding =
    some ⟨place.operands ++ below, found⟩)

include names finds

theorem run_inPlace (isInt : isIntVariable item) (delta : Int32) :
    let new := meaning.sum item.typeCode delta (found.content place)
    run meaning ⟨below, memory⟩ (target.finding ++ item.incrementing delta ++
      (if needed then item.loading else [])) =
      some ⟨(if needed then Slot.of item.typeCode.width new else []) ++ below,
        found.store place new⟩ := by
  have operands := operands_of_isIntVariable names isInt
  have loaded (memory : Memory V) : run meaning ⟨below, memory⟩ item.loading =
      some ⟨Slot.of item.typeCode.width (memory.content place) ++ below, memory⟩ := by
    rw [← run_loading names, operands, List.nil_append]
  cases needed <;>
    simp [run_append, finds, operands, run_incrementing names isInt, loaded]

theorem run_computing {code : TypeCode} {instruction : Instruction} {other : List Piece}
    {width : Nat} {right : V} {after : Memory V} (typed : item.typeCode = .ofType type)
    (numbers : item.typeCode.numKind?.isSome ∧ code.numKind?.isSome)
    (computes : instruction.signature? = some ([width, code.width], code.width))
    (valued : ∀ below, run meaning ⟨below, found⟩ other =
      some ⟨Slot.of width right ++ below, after⟩) :
    let new := meaning.converted code item.typeCode (meaning.compute instruction
      [right, meaning.converted item.typeCode code (found.content place)])
    run meaning ⟨below, memory⟩ (computing needed target type item other code instruction) =
      some ⟨(if needed then Slot.of item.typeCode.width new else []) ++ below,
        after.store place new⟩ := by
  simp only [computing, run_append, finds, run_copying names, run_loading names,
    run_converting numbers.1 numbers.2, valued, run_emit, step_binary computes, ← typed,
    run_converting numbers.2 numbers.1, run_finishing names, Option.bind_eq_bind,
    Option.bind_some]

/-- The builder is on the stack before the operands of the place, and leaves it after them. -/
theorem run_concat (typed : item.typeCode = .ofType type) (object : TypeCode.ofType type = .object)
    (built : (meaning.call (.constructor .stringBuilder [])
      [meaning.compute (.allocate .stringBuilder) []] start).2 = memory) :
    let appended := meaning.call (.instanceMethod .stringBuilder .append
      ⟨[appendParameter (some type)], some (.object .stringBuilder)⟩)
      [found.content place, meaning.compute (.allocate .stringBuilder) []] found
    let complete := meaning.part (.appended value) [appended.1] appended.2
    let new := meaning.call (.instanceMethod .stringBuilder .toStringName
      ⟨[], some (.object .string)⟩) [complete.1] complete.2
    run meaning ⟨below, start⟩ (concatenating needed target type item value) =
      some ⟨(if needed then Slot.of item.typeCode.width new.1 else []) ++ below,
        new.2.store place new.1⟩ := by
  intro appended complete new
  have one : item.typeCode.width = 1 := by
    rw [typed, object]
    rfl
  have parameter : (TypeCode.ofType (appendParameter (some type))).width = 1 := by
    cases type with
    | base type => cases type <;> cases object
    | ref type =>
      simp only [appendParameter]
      split <;> rfl
  have copied (builder : V) : run meaning ⟨place.operands ++ (.whole builder :: below), found⟩
      (if item.width > 0 then [.emit (.dupUnder item.width 1)] else []) =
      some ⟨place.operands ++ (.whole builder :: (place.operands ++ below)), found⟩ := by
    cases names <;> simp [Item.width, run, step, Instruction.dupUnder, StackOp.copy?,
      Slot.duplicate, Slot.areWhole, Place.operands]
  have started : run meaning ⟨below, start⟩ (building.map .emit) =
      some ⟨.whole (meaning.compute (.allocate .stringBuilder) []) :: below, memory⟩ := by
    rw [← built]
    rfl
  have finished : run meaning ⟨Slot.of item.typeCode.width (found.content place) ++
      (.whole (meaning.compute (.allocate .stringBuilder) []) :: (place.operands ++ below)), found⟩
      (appending type value) =
      some ⟨Slot.of item.typeCode.width new.1 ++ (place.operands ++ below), new.2⟩ := by
    rw [one, appending, run_cons]
    simp [step, take, MethodRef.instanceMethod, parameter]
    rfl
  simp only [concatenating, run_append, started, finds, copied, run_loading names, finished,
    run_finishing names, Option.bind_eq_bind, Option.bind_some]

variable (located : target.locate meaning σ memory = some (place, found))

include located

theorem run_stepping? (shape : update = .before up ∨ update = .after up)
    (known : stepping? needed target item up = some pieces) :
    ∃ change, update.change? meaning σ target type item memory = some change ∧
      run meaning ⟨below, memory⟩ pieces =
        some ⟨(if needed then Slot.of item.typeCode.width change.new else []) ++ below,
          change.memory.store change.place change.new⟩ := by
  rw [stepping?] at known
  split at known
  · rename_i isInt
    cases known
    have made : update.change? meaning σ target type item memory =
        some ⟨place, found.content place,
          meaning.sum item.typeCode (if up then 1 else -1) (found.content place), found⟩ := by
      rcases shape with rfl | rfl <;> simp [change?, located, isInt]
    exact ⟨_, made, run_inPlace names finds isInt _⟩
  · rename_i other
    obtain ⟨step, stepped, rest⟩ := Option.bind_eq_some_iff.mp known
    cases rest
    obtain ⟨new, known, ran⟩ := run_stepping stepped meaning (found.content place)
    refine ⟨⟨place, found.content place, new, found⟩, ?_, ?_⟩
    · rcases shape with rfl | rfl <;> simp [change?, located, other, known]
    · simp only [run_append, finds, run_copying names, run_loading names, ran,
        run_finishing names, Option.bind_eq_bind, Option.bind_some]

theorem run_after (known : pieces? true target type item (.after up) = some pieces) :
    ∃ change, (Update.after up).change? meaning σ target type item memory = some change ∧
      run meaning ⟨below, memory⟩ pieces =
        some ⟨Slot.of item.typeCode.width change.old ++ below,
          change.memory.store change.place change.new⟩ := by
  rw [pieces?, if_pos rfl] at known
  split at known
  · rename_i isInt
    cases known
    refine ⟨⟨place, found.content place,
      meaning.sum item.typeCode (if up then 1 else -1) (found.content place), found⟩, ?_, ?_⟩
    · simp [change?, located, isInt]
    · have operands := operands_of_isIntVariable names isInt
      simp only [run_append, finds, run_copying names, run_loading names,
        run_incrementing names isInt, Option.bind_eq_bind, Option.bind_some]
      rw [operands, List.nil_append]
  · rename_i other
    obtain ⟨step, stepped, rest⟩ := Option.bind_eq_some_iff.mp known
    cases rest
    obtain ⟨new, known, ran⟩ := run_stepping stepped meaning (found.content place)
    refine ⟨⟨place, found.content place, new, found⟩, ?_, ?_⟩
    · simp [change?, located, other, known]
    · simp only [run_append, finds, run_copying names, run_loading names, run_stashing names, ran,
        run_storing names, Option.bind_eq_bind, Option.bind_some]

end Found

theorem run_pieces (known : target.item? σ type = some item)
    (typed : item.typeCode = .ofType type)
    (emitted : update.pieces? needed target type item = some pieces) :
    ∃ change, update.change? meaning σ target type item memory = some change ∧
      run meaning ⟨below, memory⟩ pieces =
        some ⟨(if needed then Slot.of item.typeCode.width (update.valueOf change) else []) ++ below,
          change.memory.store change.place change.new⟩ := by
  obtain ⟨place, found, located, names, finds⟩ := run_finding known meaning memory
  cases update with
  | assign value =>
    cases emitted
    have retyped (m : Machine V) :
        run meaning m (if value.isNull then [.retype (.ofFieldType type)] else []) = some m := by
      split <;> rfl
    have valued (below : List (Slot V)) :
        run meaning ⟨below, found⟩ [.part (.value item.typeCode value)] =
        some ⟨Slot.of item.typeCode.width
          (meaning.part (.value item.typeCode value) [] found).1 ++ below,
          (meaning.part (.value item.typeCode value) [] found).2⟩ := rfl
    refine ⟨_, by rw [change?, located]; rfl, ?_⟩
    simp only [run_append, finds, valued, retyped, run_finishing names, Option.bind_eq_bind,
      Option.bind_some]
    rfl
  | before up => exact run_stepping? names finds located (.inl rfl) emitted
  | after up =>
    cases needed with
    | true => exact run_after names finds located emitted
    | false => exact run_stepping? names finds located (.inr rfl) emitted
  | compound op value computes =>
    rw [pieces?] at emitted
    rw [change?]
    split at emitted
    · rename_i strings
      have object : TypeCode.ofType type = .object := by simp_all
      obtain ⟨place, found, located, names, finds⟩ := run_finding known meaning
        (meaning.call (.constructor .stringBuilder [])
          [meaning.compute (.allocate .stringBuilder) []] memory).2
      cases emitted
      rw [if_pos strings]
      exact ⟨_, by simp only [located]; rfl, run_concat names finds typed object rfl⟩
    · rename_i other
      rw [if_neg other, located]
      cases step : inPlace? op value item with
      | some delta =>
        rw [step] at emitted
        cases emitted
        have isInt : isIntVariable item := by
          simp_all [inPlace?]
        exact ⟨_, rfl, run_inPlace names finds isInt delta⟩
      | none =>
        rw [step] at emitted
        obtain ⟨code, coded, rest⟩ := Option.bind_eq_some_iff.mp emitted
        obtain ⟨instruction, chosen, rest⟩ := Option.bind_eq_some_iff.mp rest
        cases rest
        have numbers := (operandCode?_num coded).resolve_left (by
          rintro rfl
          cases op <;> cases chosen)
        rw [coded]
        simp only [chosen, Option.bind_eq_bind, Option.bind_some]
        exact ⟨_, rfl, run_computing names finds typed ⟨typed ▸ numbers.1, numbers.2⟩
          (Instruction.signature?_operator chosen) fun _ => rfl⟩

/-- The code of an update, run on any stack, finds the place of its target once, stores one value
there, and leaves the value of the update if it is needed, and else nothing. The place, the value and
all that happens before are the same in both cases. -/
theorem stores_once {whole : Option FieldType} {mc : MethodContext} {ctx : Context}
    {σ' : MethodState} {b b' : Buffer} (known : target.item? σ type = some item)
    (typed : item.typeCode = .ofType type)
    (run : generate needed (.mk whole none (update.kind (target.expr type))) mc σ ctx b =
      .ok ((), σ') b') :
    ∃ pieces, lowered pieces mc σ ctx b = .ok ((), σ') b' ∧
      ∀ {V : Type} [DecidableEq V] (meaning : Meaning V) (below : List (Slot V))
        (memory : Memory V), ∃ change,
        update.change? meaning σ target type item memory = some change ∧
        Machine.run meaning ⟨below, memory⟩ pieces =
          some ⟨(if needed then Slot.of item.typeCode.width (update.valueOf change) else []) ++
            below, change.memory.store change.place change.new⟩ := by
  obtain ⟨pieces, emits, lowers⟩ := emitted known typed run
  exact ⟨pieces, lowers, fun _ _ _ => run_pieces known typed emits⟩

def elementOfNew : Target :=
  .element (.mk (some (.ref (.primitiveArray 0 .long))) none
    (.newArray [.mk (some (.base .int)) none (.literal (.int 3))] none))
    (.mk (some (.base .int)) none (.literal (.int 1)))

def incremented : EStateM.Result Error Buffer (Unit × MethodState) :=
  generate true (.mk (some (.base .long)) none
    ((Update.after true).kind (elementOfNew.expr (.base .long)))) ⟨.default, .void⟩ {}
    ⟨.empty, ⟨"Gate"⟩, Settings.default.code, false⟩ (.empty .empty)

/-- `(new long[3])[1]++` copies the array and the index with `dup2` and the old element to below
them with `dup2_x2`. -/
theorem stores_once_element : ∃ σ' b' pieces, incremented = .ok ((), σ') b' ∧
    b'.bytes = [0x06, 0xBC, 0x0B, 0x04, 0x5C, 0x2F, 0x5E, 0x0A, 0x61, 0x50] ∧
    ∀ (meaning : Meaning Int) (below : List (Slot Int)) (memory : Memory Int), ∃ change,
      (Update.after true).change? meaning {} elementOfNew (.base .long) (.indexed .long) memory =
        some change ∧
      Machine.run meaning ⟨below, memory⟩ pieces =
        some ⟨Slot.of 2 change.old ++ below, change.memory.store change.place change.new⟩ := by
  have found : seen? (fun _ b => b.bytes) incremented =
      some [0x06, 0xBC, 0x0B, 0x04, 0x5C, 0x2F, 0x5E, 0x0A, 0x61, 0x50] := by
    cbv
  obtain ⟨result, b', run, bytes⟩ := ok_of_seen? found
  have known : elementOfNew.item? {} (.base .long) = some (.indexed .long) := rfl
  obtain ⟨pieces, -, runs⟩ := stores_once known rfl run
  exact ⟨result.2, b', pieces, run, bytes, runs⟩

end Update

end ClassForge
