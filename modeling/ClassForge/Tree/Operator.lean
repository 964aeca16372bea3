namespace ClassForge

inductive UnaryOp where
  | plus | neg
  /-- Bitwise complement. -/
  | compl
  | not
  | preInc | preDec | postInc | postDec
  deriving DecidableEq, Repr

inductive BinaryOp where
  | add | sub | mul | div | rem
  | shl | shr | ushr
  /-- `and`, `or` and `xor` work on integers and on booleans. -/
  | and | or | xor
  /-- The conditional operators evaluate their right operand only if they need it. -/
  | condAnd | condOr
  | eq | ne | lt | le | gt | ge
  deriving DecidableEq, Repr

namespace BinaryOp

def isComparison : BinaryOp → Bool
  | .eq | .ne | .lt | .le | .gt | .ge => true
  | _ => false

def isShift : BinaryOp → Bool
  | .shl | .shr | .ushr => true
  | _ => false

def describe : BinaryOp → String
  | .add => "Add"
  | .sub => "Sub"
  | .mul => "Mul"
  | .div => "Div"
  | .rem => "Rem"
  | .shl => "Shl"
  | .shr => "Shr"
  | .ushr => "Ushr"
  | .and => "And"
  | .or => "Or"
  | .xor => "Xor"
  | .condAnd => "CondAnd"
  | .condOr => "CondOr"
  | .eq => "Eq"
  | .ne => "Ne"
  | .lt => "Lt"
  | .le => "Le"
  | .gt => "Gt"
  | .ge => "Ge"

end BinaryOp

end ClassForge
