import ClassForge.Item
import ClassForge.Tree.Operator

namespace ClassForge

inductive ItemUse where
  | load | store | invoke | stash | increment

inductive OperandUse where
  | negate | complement | increment | combine | compare | order

/-- What a tree does that no well-typed program does. -/
inductive TreeFault where
  | unknownBreakLabel (label : String)
  | breakOutside
  | badContinueLabel (label : String)
  | continueOutside
  | argumentCount (given expected : Nat)
  | notArrayType (type : Option FieldType)
  | noDimensions
  | noElementType
  | initializerTooLong
  /-- There is no way to do this with an operand of the kind. -/
  | badOperand (use : OperandUse) (code : TypeCode)
  | noInstruction (op : BinaryOp) (code : TypeCode)
  | misuse (use : ItemUse) (item : Item) (pc : Nat)
  | jumpsTooFar
  | unknownLocal (id : UInt32)

inductive Error where
  | pool (cause : PoolError)
  | codeTooLarge (length : Nat)
  | tooManyLocals (count : Nat)
  | stackTooDeep (depth : Nat)
  | tooManyParameters (slots : Nat)
  | tooManyDimensions (count : Nat)
  | rangeTooLarge (start stop : Nat)
  | format (cause : FormatError)
  /-- The simulated machine ran into an inconsistency at a position in the code. -/
  | machine (pc : Nat) (fault : Fault)
  | tree (fault : TreeFault)

namespace ItemUse

def describe : ItemUse → String
  | .load => "load"
  | .store => "store to"
  | .invoke => "invoke"
  | .stash => "stash under"
  | .increment => "increment"

end ItemUse

namespace OperandUse

def describe : OperandUse → String
  | .negate => "negate"
  | .complement => "complement"
  | .increment => "increment"
  | .combine => "combine"
  | .compare => "compare"
  | .order => "order"

end OperandUse

namespace TreeFault

def messageWith (showItem : Item → String) : TreeFault → String
  | .unknownBreakLabel label => s!"break to unknown label `{label}`"
  | .breakOutside => "break outside of loop or switch"
  | .badContinueLabel label => s!"continue to non-loop label `{label}`"
  | .continueOutside => "continue outside of loop"
  | .argumentCount given expected =>
    s!"{given} arguments passed to a method taking {expected}"
  | .notArrayType type =>
    s!"array creation of non-array type {FieldType.describeOption type}"
  | .noDimensions => "array creation without dimensions or initializer"
  | .noElementType => "array creation of non-array type"
  | .initializerTooLong => "array initializer too long"
  | .badOperand use code => s!"cannot {use.describe} a {code.describe} operand"
  | .noInstruction op code => s!"no {op.describe} instruction for {code.describe} operands"
  | .misuse use item pc => s!"cannot {use.describe} {showItem item} (at pc {pc})"
  | .jumpsTooFar => "wide jumps still overflowed"
  | .unknownLocal id => s!"unknown local variable VarId({id})"

def message (fault : TreeFault) : String := fault.messageWith Item.describe

def shortMessage (fault : TreeFault) : String := fault.messageWith Item.variant

end TreeFault

namespace Error

def isLimit : Error → Bool
  | .pool _ | .codeTooLarge _ | .tooManyLocals _ | .stackTooDeep _ | .tooManyParameters _
  | .tooManyDimensions _ | .rangeTooLarge _ _ => true
  | .format _ | .machine _ _ | .tree _ => false

def message : Error → String
  | .pool cause => cause.message
  | .codeTooLarge length => s!"code too large ({length} bytes)"
  | .tooManyLocals count => s!"too many local variables ({count})"
  | .stackTooDeep depth => s!"operand stack too deep ({depth})"
  | .tooManyParameters slots => s!"too many parameters ({slots} slots)"
  | .tooManyDimensions count => s!"array type has too many dimensions ({count})"
  | .rangeTooLarge start stop => s!"try statement too large (covers {start}..{stop})"
  | .format cause => s!"i/o error: {cause.message}"
  | .machine pc fault => s!"internal code generation error at pc {pc}: {fault.describe}"
  | .tree fault => s!"malformed tree: {fault.message}"

end Error

end ClassForge
