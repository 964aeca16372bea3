import ClassForge.Text.Decimal
import ClassForge.Text.Quoted
import ClassForge.TypeCode

namespace ClassForge

/-- Constant values. `int` also holds booleans, characters and the narrower integers; floating
point values are bit patterns. -/
inductive Literal where
  | int (value : Int32)
  | long (value : Int64)
  | float (bits : UInt32)
  | double (bits : UInt64)
  | string (text : String)
  deriving DecidableEq, Repr

namespace Literal

def typeCode : Literal → TypeCode
  | .int _ => .int
  | .long _ => .long
  | .float _ => .float
  | .double _ => .double
  | .string _ => .object

def describe : Literal → String
  | .int value => s!"Int({value.toInt})"
  | .long value => s!"Long({value.toInt})"
  | .float bits => s!"Float({listSingle bits})"
  | .double bits => s!"Double({listDouble bits})"
  | .string text => s!"String({quoted text})"

end Literal

end ClassForge
