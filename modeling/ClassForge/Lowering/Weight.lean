import ClassForge.Tree

namespace ClassForge

def isBeyond (limit total : Nat) : Bool := 0 < limit && limit < total

mutual

def Expr.addWeight (limit total : Nat) : Expr → Nat
  | .mk _ constant kind =>
    if isBeyond limit total then total
    else if constant.isSome then total + 1
    else kind.addWeight limit total

def ExprKind.addWeight (limit total : Nat) : ExprKind → Nat
  | .literal _ | .null | .self | .localVar _ | .classLiteral _ => total + 1
  | .field receiver _ => receiver.addWeight limit total + 1
  | .invoke receiver _ args => Expr.addWeights limit (receiver.addWeight limit total) args + 2
  | .construct _ args => Expr.addWeights limit total args + 2
  | .newArray dims none => Expr.addWeights limit total dims + 5
  | .newArray dims (some elems) =>
    Expr.addWeights limit (Expr.addWeights limit total dims) elems + 5
  | .arrayLength array => array.addWeight limit total + 1
  | .index array index => index.addWeight limit (array.addWeight limit total) + 1
  | .assign target value => value.addWeight limit (target.addWeight limit total) + 1
  | .compoundAssign _ target value => value.addWeight limit (target.addWeight limit total) + 2
  | .unary _ operand =>
    operand.addWeight limit total + 1 + (if operand.constant.isNone then 1 else 0)
  | .binary _ left right => right.addWeight limit (left.addWeight limit total) + 1
  | .conditional cond yes no =>
    no.addWeight limit (yes.addWeight limit (cond.addWeight limit total)) + 2
  | .cast inner => inner.addWeight limit total
  | .instanceOf inner _ => inner.addWeight limit total + 1

def Receiver.addWeight (limit total : Nat) : Receiver → Nat
  | .expr value => value.addWeight limit total
  | .implicit | .self | .super => total

def Expr.addWeights (limit total : Nat) : List Expr → Nat
  | [] => total
  | e :: rest => Expr.addWeights limit (e.addWeight limit total) rest

end

def Expr.addWeightOf (limit total : Nat) : Option Expr → Nat
  | some e => e.addWeight limit total
  | none => total

mutual

def Stmt.addWeight (limit total : Nat) : Stmt → Nat
  | .mk _ kind => if isBeyond limit total then total else kind.addWeight limit total

def StmtKind.addWeight (limit total : Nat) : StmtKind → Nat
  | .empty => total
  | .block stmts => Stmt.addWeights limit total stmts
  | .declare _ init => Expr.addWeightOf limit total init
  | .expr value => value.addWeight limit total
  | .branch cond yes none => yes.addWeight limit (cond.addWeight limit total) + 2
  | .branch cond yes (some no) =>
    no.addWeight limit (yes.addWeight limit (cond.addWeight limit total)) + 2
  | .whileLoop cond body | .doLoop body cond =>
    body.addWeight limit (cond.addWeight limit total) + 1
  | .forLoop init cond update body =>
    let total := Expr.addWeightOf limit (Stmt.addWeights limit total init) cond
    body.addWeight limit (Expr.addWeights limit total update) + 1
  | .labelled _ body => body.addWeight limit total
  | .switch selector cases => Case.addWeights limit (selector.addWeight limit total) cases + 5
  | .breakTo _ | .continueTo _ => total + 1
  | .ret value => Expr.addWeightOf limit total value + 1
  | .raise value => value.addWeight limit total + 1
  | .guarded body catches none => Catch.addWeights limit (body.addWeight limit total) catches
  | .guarded body catches (some finalizer) =>
    finalizer.addWeight limit (Catch.addWeights limit (body.addWeight limit total) catches) + 6
  | .synchronized lock body => body.addWeight limit (lock.addWeight limit total) + 6

def Stmt.addWeights (limit total : Nat) : List Stmt → Nat
  | [] => total
  | stmt :: rest => Stmt.addWeights limit (stmt.addWeight limit total) rest

def Case.addWeights (limit total : Nat) : List Case → Nat
  | [] => total
  | .mk _ _ body :: rest => Case.addWeights limit (Stmt.addWeights limit total body + 1) rest

def Catch.addWeights (limit total : Nat) : List Catch → Nat
  | [] => total
  | .mk _ _ body :: rest => Catch.addWeights limit (body.addWeight limit total + 2) rest

end

def Stmt.weight (stmt : Stmt) (limit : Nat) : Nat := stmt.addWeight limit 0

end ClassForge
