import ClassForge.Proofs.Handling
import ClassForge.Proofs.Holding
import Mathlib

namespace ClassForge

variable {target : RefType}

theorem Asm.emit_checkCast {ctx : Context} {b b' : Buffer} (alive : b.isAlive = true)
    (run : emit (.checkCast target) ctx b = .ok () b') :
    ∃ before index pool, b'.bytes = before ++ 0xC0 :: Bytes.ofWord16 index ∧
      Pool.classRef target pool = .ok index b'.pool := by
  obtain ⟨b1, log, flushes, ⟨dead, _⟩ | ⟨_, bytes, pool, state, encoded, _, rfl⟩⟩ := emit_ok run
  · rw [flushes.alive_eq, alive] at dead
    cases dead
  · obtain ⟨index, _, found, result⟩ := estate_bind_ok.mp encoded
    cases result
    exact ⟨_, index, _, Buffer.bytes_append _, found⟩

theorem Item.answers_load {item : Item} (object : item.typeCode = .object) :
    Asm.Answers item.load (· = .stack .object) := by
  have loaded {α : Type} (x : Asm α) :
      Asm.Answers (do let _ ← x; return ofStack item.typeCode : Asm Item) (· = .stack .object) := by
    rw [object]
    exact Asm.answers_bind fun _ => Asm.answers_pure rfl
  cases item with
  | stack code =>
    cases object
    exact Asm.answers_pure rfl
  | void | cond _ => cases object
  | static ref | member ref _ =>
    cases ref with
    | field ref => exact loaded _
    | method ref => exact (fails_misuse _ _).answers
  | assign target => exact Asm.answers_bind fun _ => loaded _
  | _ => exact loaded _

theorem Item.typeCode_coerce (item : Item) :
    Asm.Answers (item.coerce .object) (·.typeCode = .object) := by
  unfold coerce
  split
  · next same => exact Asm.answers_pure same
  · dsimp only
    split
    · exact Asm.answers_pure rfl
    · exact Asm.answers_bind fun _ => Asm.answers_bind fun _ => Asm.answers_pure rfl

namespace Lowering

variable {mc : MethodContext} {ctx : Context} {σ σ' σ'' : MethodState} {b b' : Buffer}
  {value : Lowering Item} {item : Item}

theorem loadAs_object (value : Lowering Item) :
    Answers (loadAs .object value) (· = .stack .object) :=
  answers_bind fun item => (lift_answers item.typeCode_coerce).bind fun _ object =>
    lift_answers (Item.answers_load object)

theorem loadAs_of_stack {c : Buffer} (ran : value mc σ ctx b = .ok (.stack .object, σ') c)
    (run : loadAs .object value mc σ ctx b = .ok (item, σ'') b') : σ'' = σ' ∧ b' = c := by
  obtain ⟨found, σ1, b1, ran', run⟩ := bind_ok.mp run
  cases ran.symm.trans ran'
  obtain ⟨coerced, σ2, b2, converted, run⟩ := bind_ok.mp run
  obtain ⟨rfl, converted⟩ := lift_ok.mp converted
  obtain ⟨rfl, run⟩ := lift_ok.mp run
  cases converted
  cases run
  exact ⟨rfl, rfl⟩

abbrev castTo (target : RefType) (constant : Option Literal) (inner : Expr) : Expr :=
  .mk (some (.ref target)) constant (.cast inner)

/-- A cast that can fail, with an operand other than `null`. -/
structure CanFail (hierarchy : ClassGraph) (target : RefType) (inner : Expr) : Prop where
  value : inner.isNull = false
  unrelated : ∀ source, inner.type = some (.ref source) → hierarchy.isAssignable source target = false

theorem cast_checks {inner : Expr} (fails : CanFail ctx.hierarchy target inner)
    (run : cast (some (.ref target)) inner value mc σ ctx b = .ok (item, σ') b') :
    item = .stack .object ∧ ∃ b1, loadAs .object value mc σ ctx b = .ok (item, σ') b1 ∧
      Asm.emit (.checkCast target) ctx b1 = .ok () b' := by
  obtain ⟨loaded, σ1, b1, ran, run⟩ := bind_ok.mp run
  rw [readThe_bind] at run
  dsimp only at run
  rw [if_pos] at run
  · obtain ⟨_, _, _, emitted, answered⟩ := bind_ok.mp run
    obtain ⟨rfl, checked⟩ := (lift_ok (x := Asm.emit (.checkCast target))).mp emitted
    obtain ⟨rfl, rfl, rfl⟩ := pure_ok.mp answered
    exact ⟨loadAs_object value ran, b1, ran, checked⟩
  · rw [fails.value]
    split
    · next source known =>
      rw [fails.unrelated source known]
      rfl
    · rfl

theorem string_of_castTo {constant : Option Literal} {inner : Expr} {value : Literal}
    (known : (castTo target constant inner).constantValue = some value) :
    ∃ text, value = .string text := by
  have retyped {found : Literal} (same : found.coerce? .object = some value) :
      ∃ text, value = .string text := by
    cases found with
    | string text => exact ⟨text, (Option.some.inj same).symm⟩
    | _ => cases same
  cases constant with
  | some found => exact retyped known
  | none =>
    obtain ⟨found, _, same⟩ := Option.bind_eq_some_iff.mp known
    exact retyped same

/-- A cast that can fail is loaded with a check of its operand, unless it is a constant. A constant one
is a string, which is loaded as it is. -/
theorem castTo_checked {target : RefType} {constant : Option Literal} {inner : Expr}
    (fails : CanFail ctx.hierarchy target inner)
    (run : loadAs .object (genItem (castTo target constant inner)) mc σ ctx b = .ok (item, σ') b') :
    match (castTo target constant inner).constantValue with
    | none => ∃ operand b1, loadAs .object (genItem inner) mc σ ctx b = .ok (operand, σ') b1 ∧
      Asm.emit (.checkCast target) ctx b1 = .ok () b' ∧ (b1.isAlive = true →
        ∃ before index pool, b'.bytes = before ++ 0xC0 :: Bytes.ofWord16 index ∧
          Pool.classRef target pool = .ok index b'.pool)
    | some value => ∃ text, value = .string text ∧
      Asm.emit (.pushConstant (.string text)) ctx b = .ok () b' := by
  obtain ⟨found, σ1, c, made, rest⟩ := bind_ok.mp run
  have ran := made
  cases folded : (castTo target constant inner).constantValue with
  | none =>
    rw [genItem, foldedOr, folded] at ran
    obtain ⟨rfl, b1, loaded, checked⟩ := cast_checks fails ran
    obtain ⟨rfl, rfl⟩ := loadAs_of_stack made run
    exact ⟨_, b1, loaded, checked, fun alive => Asm.emit_checkCast alive checked⟩
  | some value =>
    obtain ⟨text, rfl⟩ := string_of_castTo folded
    rw [genItem, foldedOr, folded] at ran
    refine ⟨text, rfl, ?_⟩
    obtain ⟨rfl, rfl, rfl⟩ := pure_ok.mp ran
    obtain ⟨_, _, _, converted, run⟩ := bind_ok.mp rest
    obtain ⟨rfl, converted⟩ := lift_ok.mp converted
    cases converted
    have load := ((lift_ok (x := (Item.immediate (.string text) .object).load)).mp run).2
    obtain ⟨_, _, pushed, answered⟩ := Asm.bind_ok.mp load
    cases (Asm.pure_ok.mp answered).2
    exact pushed

def loadedInteger (inner : Expr) : EStateM.Result Error Buffer (Item × MethodState) :=
  loadAs .object (genItem (castTo (.object .integer) none inner)) ⟨.default, .void⟩ {}
    ⟨.empty, ⟨"Gate"⟩, Settings.default.code, false⟩ (.empty .empty)

def nullObject : Expr := castTo (.object .object) none (.mk none none .null)

set_option maxRecDepth 2000 in
theorem castTo_checked_null : ∃ item σ' b' operand b1, loadedInteger nullObject = .ok (item, σ') b' ∧
    b'.bytes = [0x01, 0xC0, 0, 2] ∧
    loadAs .object (genItem nullObject) ⟨.default, .void⟩ {}
      ⟨.empty, ⟨"Gate"⟩, Settings.default.code, false⟩ (.empty .empty) = .ok (operand, σ') b1 ∧
    Asm.emit (.checkCast (.object .integer)) ⟨.empty, ⟨"Gate"⟩, Settings.default.code, false⟩ b1 =
      .ok () b' := by
  have found : seen? (fun _ b => b.bytes) (loadedInteger nullObject) = some [0x01, 0xC0, 0, 2] := by
    cbv
  obtain ⟨result, b', run, bytes⟩ := ok_of_seen? found
  have fails : CanFail .empty (.object .integer) nullObject :=
    ⟨rfl, fun source known => by cases known; cbv⟩
  obtain ⟨operand, b1, loaded, checked, _⟩ := castTo_checked fails run
  exact ⟨result.1, result.2, b', operand, b1, run, bytes, loaded, checked⟩

set_option maxRecDepth 2000 in
/-- A constant string that has become an `Object` is not checked. -/
theorem castTo_unchecked_string : ∃ inner item σ' b', CanFail .empty (.object .integer) inner ∧
    loadedInteger inner = .ok (item, σ') b' ∧ b'.bytes = [0x12, 2] := by
  let inner := castTo (.object .object) none
    (.mk (some (.object .string)) none (.literal (.string "abc")))
  have found : seen? (fun _ b => b.bytes) (loadedInteger inner) = some [0x12, 2] := by
    cbv
  obtain ⟨result, b', run, bytes⟩ := ok_of_seen? found
  exact ⟨inner, result.1, result.2, b', ⟨rfl, fun source known => by cases known; cbv⟩, run, bytes⟩

end Lowering

end ClassForge
