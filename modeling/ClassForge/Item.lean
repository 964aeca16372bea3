import ClassForge.Instruction.Jump
import ClassForge.Machine.Chain
import ClassForge.Tree.Literal

namespace ClassForge

inductive MemberRef where
  | field (ref : FieldRef)
  | method (ref : MethodRef)
  deriving DecidableEq, Repr

/-- A condition: it holds when the jump is taken. Some jumps to either outcome may have been
emitted already. -/
structure Condition where
  jump : Jump
  trueJumps : Chain
  falseJumps : Chain

inductive Item where
  | void
  | stack (code : TypeCode)
  | localVar (code : TypeCode) (register : UInt16)
  | self
  /-- The receiver as an object of its superclass. -/
  | super
  | static (ref : MemberRef)
  | member (ref : MemberRef) (nonvirtual : Bool)
  /-- The element of the array at the index on the stack. -/
  | indexed (code : TypeCode)
  | immediate (value : Literal) (code : TypeCode)
  /-- An assignment of the value on the stack, not yet done. -/
  | assign (target : Item)
  | cond (condition : Condition)

namespace MemberRef

def typeCode : MemberRef → TypeCode
  | .field ref => .ofType ref.descriptor
  | .method ref => .ofResult ref.descriptor.result

def describe : MemberRef → String
  | .field ref => s!"Field({ref.describe})"
  | .method ref => s!"Method({ref.describe})"

end MemberRef

namespace Condition

def ofJump (jump : Jump) : Condition := ⟨jump, [], []⟩

def negate (condition : Condition) : Condition :=
  ⟨condition.jump.negate, condition.falseJumps, condition.trueJumps⟩

def isTrue (condition : Condition) : Bool :=
  condition.falseJumps.isEmpty && condition.jump == .goto

def isFalse (condition : Condition) : Bool :=
  condition.trueJumps.isEmpty && condition.jump == .never

def describe (condition : Condition) : String :=
  let trueJumps := condition.trueJumps.describe
  let falseJumps := condition.falseJumps.describe
  s!"CondItem \x7b jump: {condition.jump.describe}, true_jumps: {trueJumps}, false_jumps: {falseJumps} \x7d"

end Condition

namespace Item

def ofStack (code : TypeCode) : Item := if code = .void then .void else .stack code

def typeCode : Item → TypeCode
  | .void => .void
  | .stack code | .localVar code _ | .indexed code | .immediate _ code => code
  | .self | .super => .object
  | .static ref | .member ref _ => ref.typeCode
  | .assign target => target.typeCode
  | .cond _ => .byte

def width : Item → Nat
  | .stack code => code.width
  | .indexed _ => 2
  | .member _ _ => 1
  | _ => 0

def variant : Item → String
  | .void => "Void"
  | .stack _ => "Stack"
  | .localVar _ _ => "Local"
  | .self => "This"
  | .super => "Super"
  | .static _ => "Static"
  | .member _ _ => "Member"
  | .indexed _ => "Indexed"
  | .immediate _ _ => "Immediate"
  | .assign _ => "Assign"
  | .cond _ => "Cond"

def describe : Item → String
  | .void => "Void"
  | .stack code => s!"Stack({code.describe})"
  | .localVar code register => s!"Local \x7b typecode: {code.describe}, reg: {register} \x7d"
  | .self => "This"
  | .super => "Super"
  | .static ref => s!"Static({ref.describe})"
  | .member ref nonvirtual =>
    s!"Member \x7b member: {ref.describe}, nonvirtual: {nonvirtual} \x7d"
  | .indexed code => s!"Indexed({code.describe})"
  | .immediate value code => s!"Immediate({value.describe}, {code.describe})"
  | .assign target => s!"Assign({target.describe})"
  | .cond condition => s!"Cond({condition.describe})"

end Item

end ClassForge
