import ClassForge.Lowering.Settings
import ClassForge.Lowering.Weight

namespace ClassForge

/-- A way to add to a total: it takes nothing away, and what it does with a limit can be told from
what it does without one only beyond the limit. -/
structure Faithful (add : Nat → Nat → Nat) : Prop where
  grows : ∀ limit total, total ≤ add limit total
  agrees : ∀ limit total, add limit total = add 0 total ∨ limit < add limit total ∧ limit < add 0 total

namespace Faithful

variable {f g : Nat → Nat → Nat}

theorem refl : Faithful fun _ total => total := ⟨fun _ _ => Nat.le_refl _, fun _ _ => .inl rfl⟩

theorem plus (faithful : Faithful f) (weight : Nat) :
    Faithful fun limit total => f limit total + weight where
  grows limit total := Nat.le_add_right_of_le (faithful.grows limit total)
  agrees limit total := by
    rcases faithful.agrees limit total with same | ⟨beyond, far⟩
    · exact .inl (congrArg (· + weight) same)
    · exact .inr ⟨by omega, by omega⟩

theorem andThen (first : Faithful f) (second : Faithful g) :
    Faithful fun limit total => g limit (f limit total) where
  grows limit total := Nat.le_trans (first.grows limit total) (second.grows limit _)
  agrees limit total := by
    rcases first.agrees limit total with same | ⟨beyond, far⟩
    · rw [same]
      exact second.agrees limit _
    · exact .inr ⟨Nat.lt_of_lt_of_le beyond (second.grows limit _),
        Nat.lt_of_lt_of_le far (second.grows 0 _)⟩

theorem stopping (faithful : Faithful f) :
    Faithful fun limit total => if isBeyond limit total then total else f limit total where
  grows limit total := by
    split
    · exact Nat.le_refl total
    · exact faithful.grows limit total
  agrees limit total := by
    have unlimited : isBeyond 0 total = false := rfl
    have rest := faithful.grows 0 total
    cases stops : isBeyond limit total with
    | true =>
      have beyond : 0 < limit ∧ limit < total := by simpa [isBeyond] using stops
      simp only [unlimited, if_true, Bool.false_eq_true, if_false]
      exact .inr ⟨beyond.2, Nat.lt_of_lt_of_le beyond.2 rest⟩
    | false => simpa [unlimited] using faithful.agrees limit total

end Faithful

open Faithful (refl)

mutual

theorem Expr.faithful : ∀ e : Expr, Faithful fun limit total => e.addWeight limit total
  | .mk type constant kind => by
    have noted : Faithful fun limit total =>
        if constant.isSome then total + 1 else kind.addWeight limit total := by
      split
      · exact refl.plus 1
      · exact kind.faithful
    simpa only [Expr.addWeight] using noted.stopping

theorem ExprKind.faithful : ∀ kind : ExprKind, Faithful fun limit total => kind.addWeight limit total
  | .literal _ | .null | .self | .localVar _ | .classLiteral _ => refl.plus 1
  | .field receiver _ => receiver.faithful.plus 1
  | .invoke receiver _ args => (receiver.faithful.andThen (Expr.faithful_list args)).plus 2
  | .construct _ args => (Expr.faithful_list args).plus 2
  | .newArray dims none => (Expr.faithful_list dims).plus 5
  | .newArray dims (some elems) =>
    ((Expr.faithful_list dims).andThen (Expr.faithful_list elems)).plus 5
  | .arrayLength e | .instanceOf e _ => e.faithful.plus 1
  | .index first second | .assign first second | .binary _ first second =>
    (first.faithful.andThen second.faithful).plus 1
  | .compoundAssign _ target value => (target.faithful.andThen value.faithful).plus 2
  | .unary _ operand => (operand.faithful.plus 1).plus (if operand.constant.isNone then 1 else 0)
  | .conditional cond yes no => ((cond.faithful.andThen yes.faithful).andThen no.faithful).plus 2
  | .cast inner => inner.faithful

theorem Receiver.faithful : ∀ receiver : Receiver,
    Faithful fun limit total => receiver.addWeight limit total
  | .expr value => value.faithful
  | .implicit | .self | .super => refl

theorem Expr.faithful_list : ∀ es : List Expr,
    Faithful fun limit total => Expr.addWeights limit total es
  | [] => refl
  | e :: rest => e.faithful.andThen (Expr.faithful_list rest)

end

theorem Expr.faithful_option : ∀ e : Option Expr,
    Faithful fun limit total => Expr.addWeightOf limit total e
  | none => refl
  | some e => e.faithful

mutual

theorem Stmt.faithful : ∀ stmt : Stmt, Faithful fun limit total => stmt.addWeight limit total
  | .mk _ kind => kind.faithful.stopping

theorem StmtKind.faithful : ∀ kind : StmtKind, Faithful fun limit total => kind.addWeight limit total
  | .empty => refl
  | .block stmts => Stmt.faithful_list stmts
  | .declare _ init => Expr.faithful_option init
  | .expr value => value.faithful
  | .branch cond yes none => (cond.faithful.andThen yes.faithful).plus 2
  | .branch cond yes (some no) => ((cond.faithful.andThen yes.faithful).andThen no.faithful).plus 2
  | .whileLoop cond body | .doLoop body cond => (cond.faithful.andThen body.faithful).plus 1
  | .forLoop init cond update body =>
    ((((Stmt.faithful_list init).andThen (Expr.faithful_option cond)).andThen
      (Expr.faithful_list update)).andThen body.faithful).plus 1
  | .labelled _ body => body.faithful
  | .switch selector cases => (selector.faithful.andThen (Case.faithful_list cases)).plus 5
  | .breakTo _ | .continueTo _ => refl.plus 1
  | .ret value => (Expr.faithful_option value).plus 1
  | .raise value => value.faithful.plus 1
  | .guarded body catches none => body.faithful.andThen (Catch.faithful_list catches)
  | .guarded body catches (some finalizer) =>
    ((body.faithful.andThen (Catch.faithful_list catches)).andThen finalizer.faithful).plus 6
  | .synchronized lock body => (lock.faithful.andThen body.faithful).plus 6

theorem Stmt.faithful_list : ∀ stmts : List Stmt,
    Faithful fun limit total => Stmt.addWeights limit total stmts
  | [] => refl
  | stmt :: rest => stmt.faithful.andThen (Stmt.faithful_list rest)

theorem Case.faithful_list : ∀ cases : List Case,
    Faithful fun limit total => Case.addWeights limit total cases
  | [] => refl
  | .mk _ _ body :: rest => ((Stmt.faithful_list body).plus 1).andThen (Case.faithful_list rest)

theorem Catch.faithful_list : ∀ catches : List Catch,
    Faithful fun limit total => Catch.addWeights limit total catches
  | [] => refl
  | .mk _ _ body :: rest => (body.faithful.plus 2).andThen (Catch.faithful_list rest)

end

/-- The estimate with a limit is beyond the limit exactly if the whole estimate is, and up to the limit
they are the same. So which finalizers become subroutines does not depend on where the estimate
stops. -/
theorem Stmt.weight_faithful (stmt : Stmt) :
    (∀ limit, (limit < stmt.weight limit ↔ limit < stmt.weight 0) ∧
      (stmt.weight 0 ≤ limit → stmt.weight limit = stmt.weight 0)) ∧
    ∀ settings : Settings, settings.usesSubroutine (stmt.weight settings.finalizerInlineLimit) =
      settings.usesSubroutine (stmt.weight 0) := by
  have agrees (limit : Nat) : stmt.weight limit = stmt.weight 0 ∨
      limit < stmt.weight limit ∧ limit < stmt.weight 0 := stmt.faithful.agrees limit 0
  refine ⟨fun limit => ?_, fun settings => ?_⟩
  · rcases agrees limit with same | ⟨beyond, far⟩
    · exact ⟨by rw [same], fun _ => same⟩
    · exact ⟨iff_of_true beyond far, fun within => absurd far (Nat.not_lt.mpr within)⟩
  · rcases agrees settings.finalizerInlineLimit with same | ⟨beyond, far⟩
    · rw [same]
    · simp [Settings.usesSubroutine, beyond, far]

def Stmt.jumps : Stmt := .mk none (.block (.replicate 3 (.mk none (.breakTo none))))

theorem Stmt.weight_faithful_jumps : jumps.weight 1 = 2 ∧ 1 < jumps.weight 0 ∧ jumps.weight 4 = 3 :=
  ⟨rfl, (jumps.weight_faithful.1 1).1.mp (by decide), (jumps.weight_faithful.1 4).2 (by decide)⟩

end ClassForge
