import ClassForge.Text.Quoted
import ClassForge.Verification

namespace ClassForge

/-- What is wrong with the machine's state or with a jump. Lock lists are innermost first. -/
inductive Fault where
  | emptyStack
  | invalidWidth (slots : Nat)
  /-- No expected type stands for any reference. -/
  | invalidType (expected : Option VType) (found : VType)
  | notArray (type : RefType)
  | undefinedLocal (register : UInt16)
  | statesDiffer (stack other : SlotSeq VType) (locks otherLocks : List UInt16)
  | unmergeable (type other : VType)
  | chainsDiffer (pc other : Nat)
  | jumpDiffers (pc target : Nat) (stack expected : SlotSeq VType)
  | stackNotEmpty (slots : Nat)
  | unbalancedMonitor (register : UInt16)
  | notABranch (pc : Nat)
  | unresolvedJumps (count : Nat)

def SlotSeq.describe (stack : SlotSeq VType) : String :=
  let entries := stack.entries.toList.map fun (offset, type) => s!"#{offset} = {type.describe}"
  "[" ++ ", ".intercalate entries ++ "]"

def describeLocks (locks : List UInt16) : String :=
  "[" ++ ", ".intercalate (locks.reverse.map toString) ++ "]"

namespace Fault

def mismatch? : Fault → Option String
  | .statesDiffer stack other locks otherLocks =>
    some s!"stack {stack.describe} / {other.describe}, locks {describeLocks locks} / {describeLocks otherLocks}"
  | .unmergeable type other => some s!"cannot merge {type.describe} with {other.describe}"
  | .chainsDiffer pc other =>
    some s!"merging jumps at {pc} and {other} with different stack depths or monitors"
  | .jumpDiffers pc target stack expected =>
    some s!"jump from {pc} to {target} with stack {stack.describe}, expected {expected.describe}"
  | _ => none

def describe (fault : Fault) : String :=
  match fault with
  | .emptyStack => "EmptyStack"
  | .invalidWidth slots => s!"InvalidWidth({slots})"
  | .invalidType expected found =>
    let expected := quoted ((expected.map VerificationType.describe).getD "reference")
    s!"InvalidType \x7b expected: {expected}, found: {quoted found.describe} \x7d"
  | .notArray type => s!"NotArrayType({quoted type.describe})"
  | .undefinedLocal register => s!"UndefinedLocal({register})"
  | .stackNotEmpty slots => s!"StackNotEmpty({slots})"
  | .unbalancedMonitor register => s!"UnbalancedMonitor({register})"
  | .notABranch pc => s!"NotABranch({pc})"
  | .unresolvedJumps count => s!"UnresolvedJumps({count})"
  | other =>
    let details := quoted (other.mismatch?.getD "")
    s!"IncompatibleStates({details})"

end Fault

end ClassForge
