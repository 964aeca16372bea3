import ClassForge.Proofs.DescriptorReading
import ClassForge.Proofs.JsonFields
import ClassForge.Proofs.Precision
import ClassForge.Tree.Read
import ClassForge.Tree.Write

namespace ClassForge

def UnqualifiedName.Valid (name : UnqualifiedName) : Prop := check name.text.toList = .ok ()

def AccessFlags.Known {kind : Declared} (flags : AccessFlags kind) : Prop :=
  flags.bits &&& kind.known = flags.bits

/-- A constant that is infinite or no number cannot be written as a number. -/
def Literal.Finite : Literal → Prop
  | .float bits => (Float32.ofBits bits).isFinite = true
  | .double bits => (Float.ofBits bits).isFinite = true
  | _ => True

/-- What a tree holds besides its shape, its numbers and its labels. -/
inductive Leaf where
  | member (name : UnqualifiedName)
  | owner (name : BinaryName)
  | fieldType (type : FieldType)
  | refType (type : RefType)
  | descriptor (descriptor : MethodDescriptor)
  | flags {kind : Declared} (flags : AccessFlags kind)
  | constant (value : Literal)

namespace Leaf

def Valid : Leaf → Prop
  | .member name => name.Valid
  | .owner name => name.Valid
  | .fieldType type => type.Valid
  | .refType type => type.Valid
  | .descriptor signature => signature.Valid
  | .flags access => access.Known
  | .constant _ => True

def Finite : Leaf → Prop
  | .constant value => value.Finite
  | _ => True

def Writable (leaf : Leaf) : Prop := leaf.Valid ∧ leaf.Finite

end Leaf

section Decidability

instance (name : UnqualifiedName) : Decidable name.Valid := inferInstanceAs (Decidable (_ = _))

instance (name : BinaryName) : Decidable name.Valid := inferInstanceAs (Decidable (_ = _))

instance : (type : RefType) → Decidable type.Valid
  | .object name | .objectArray _ name => inferInstanceAs (Decidable name.Valid)
  | .primitiveArray _ _ => .isTrue trivial

instance : (type : FieldType) → Decidable type.Valid
  | .base _ => .isTrue trivial
  | .ref type => inferInstanceAs (Decidable type.Valid)

instance (signature : MethodDescriptor) : Decidable signature.Valid :=
  decidable_of_iff
    ((∀ type ∈ signature.parameters, type.Valid) ∧ ∀ type ∈ signature.result, type.Valid)
    ⟨fun held => ⟨held.1, held.2⟩, fun held => ⟨held.parameters, held.result⟩⟩

instance {kind : Declared} (flags : AccessFlags kind) : Decidable flags.Known :=
  inferInstanceAs (Decidable (_ = _))

instance : (value : Literal) → Decidable value.Finite
  | .float _ | .double _ => inferInstanceAs (Decidable (_ = true))
  | .int _ | .long _ | .string _ => .isTrue trivial

instance : (leaf : Leaf) → Decidable leaf.Valid
  | .member name => inferInstanceAs (Decidable name.Valid)
  | .owner name => inferInstanceAs (Decidable name.Valid)
  | .fieldType type => inferInstanceAs (Decidable type.Valid)
  | .refType type => inferInstanceAs (Decidable type.Valid)
  | .descriptor signature => inferInstanceAs (Decidable signature.Valid)
  | .flags access => inferInstanceAs (Decidable access.Known)
  | .constant _ => .isTrue trivial

instance : (leaf : Leaf) → Decidable leaf.Finite
  | .constant value => inferInstanceAs (Decidable value.Finite)
  | .member _ | .owner _ | .fieldType _ | .refType _ | .descriptor _ | .flags _ => .isTrue trivial

end Decidability

section Leaves

def FieldRef.allLeaves (ref : FieldRef) : List Leaf :=
  [.owner ref.owner, .member ref.name, .fieldType ref.descriptor]

def MethodRef.allLeaves (ref : MethodRef) : List Leaf :=
  [.owner ref.owner, .member ref.name, .descriptor ref.descriptor]

def Nesting.allLeaves (nesting : Nesting) : List Leaf :=
  .owner nesting.outer :: .flags nesting.access :: nesting.simpleName.toList.map .member

def ClassData.allLeaves (data : ClassData) : List Leaf :=
  data.superclass.toList.map .owner ++ data.interfaces.map .owner ++
    data.nesting.toList.flatMap Nesting.allLeaves

def VarDecl.allLeaves (var : VarDecl) : List Leaf :=
  .member var.name :: .fieldType var.type :: var.constant.toList.map .constant

mutual

def Expr.allLeaves : Expr → List Leaf
  | .mk type constant kind =>
    type.toList.map .fieldType ++ constant.toList.map .constant ++ kind.allLeaves

def ExprKind.allLeaves : ExprKind → List Leaf
  | .literal value => [.constant value]
  | .null | .localVar _ | .self => []
  | .field receiver ref => receiver.allLeaves ++ ref.allLeaves
  | .invoke receiver ref args => receiver.allLeaves ++ ref.allLeaves ++ Expr.listLeaves args
  | .construct constructor args => constructor.allLeaves ++ Expr.listLeaves args
  | .newArray dims elems => Expr.listLeaves dims ++ Expr.optionalListLeaves elems
  | .arrayLength inner | .unary _ inner | .cast inner => inner.allLeaves
  | .index left right | .assign left right | .compoundAssign _ left right
  | .binary _ left right => left.allLeaves ++ right.allLeaves
  | .conditional cond yes no => cond.allLeaves ++ yes.allLeaves ++ no.allLeaves
  | .instanceOf inner type => .refType type :: inner.allLeaves
  | .classLiteral type => type.toList.map .fieldType

def Receiver.allLeaves : Receiver → List Leaf
  | .implicit | .self | .super => []
  | .expr value => value.allLeaves

def Expr.listLeaves : List Expr → List Leaf
  | [] => []
  | e :: rest => e.allLeaves ++ Expr.listLeaves rest

def Expr.optionalListLeaves : Option (List Expr) → List Leaf
  | none => []
  | some list => Expr.listLeaves list

end

mutual

def Stmt.allLeaves : Stmt → List Leaf
  | .mk _ kind => kind.allLeaves

def StmtKind.allLeaves : StmtKind → List Leaf
  | .empty | .breakTo _ | .continueTo _ => []
  | .block stmts => Stmt.listLeaves stmts
  | .declare var init => var.allLeaves ++ init.toList.flatMap Expr.allLeaves
  | .expr value | .raise value => value.allLeaves
  | .branch cond yes no => cond.allLeaves ++ yes.allLeaves ++ Stmt.optionLeaves no
  | .whileLoop cond body | .doLoop body cond | .synchronized cond body => cond.allLeaves ++ body.allLeaves
  | .forLoop init cond update body =>
    Stmt.listLeaves init ++ cond.toList.flatMap Expr.allLeaves ++ update.flatMap Expr.allLeaves ++
      body.allLeaves
  | .labelled _ body => body.allLeaves
  | .switch selector cases => selector.allLeaves ++ Case.listLeaves cases
  | .ret value => value.toList.flatMap Expr.allLeaves
  | .guarded body catches finalizer =>
    body.allLeaves ++ Catch.listLeaves catches ++ Stmt.optionLeaves finalizer

def Case.allLeaves : Case → List Leaf
  | .mk _ _ body => Stmt.listLeaves body

def Catch.allLeaves : Catch → List Leaf
  | .mk types param body => types.map .owner ++ param.allLeaves ++ body.allLeaves

def Stmt.listLeaves : List Stmt → List Leaf
  | [] => []
  | s :: rest => s.allLeaves ++ Stmt.listLeaves rest

def Stmt.optionLeaves : Option Stmt → List Leaf
  | none => []
  | some s => s.allLeaves

def Case.listLeaves : List Case → List Leaf
  | [] => []
  | c :: rest => c.allLeaves ++ Case.listLeaves rest

def Catch.listLeaves : List Catch → List Leaf
  | [] => []
  | c :: rest => c.allLeaves ++ Catch.listLeaves rest

end

def Member.allLeaves : Member → List Leaf
  | .field decl => .member decl.name :: .flags decl.access :: .fieldType decl.type ::
      (decl.constant.toList.map .constant ++ decl.init.toList.flatMap Expr.allLeaves)
  | .method decl => .member decl.name :: .flags decl.access :: (decl.params.flatMap VarDecl.allLeaves ++
      decl.result.toList.map .fieldType ++ decl.exceptions.map .owner ++
      decl.body.toList.flatMap Stmt.allLeaves)
  | .initializer decl => decl.body.allLeaves

def ClassDecl.allLeaves (decl : ClassDecl) : List Leaf :=
  .owner decl.name :: .flags decl.access :: (decl.superclass.toList.map .owner ++
    decl.interfaces.map .owner ++ decl.nesting.toList.flatMap Nesting.allLeaves ++
    decl.members.flatMap Member.allLeaves)

def CompilationUnit.allLeaves (unit : CompilationUnit) : List Leaf :=
  unit.classes.flatMap ClassDecl.allLeaves ++
    unit.known.flatMap fun (name, data) => .owner name :: data.allLeaves

end Leaves

section Texts

variable {ε α : Type} {text : String} {name : UnqualifiedName} {a : α}

theorem Json.parsed_iff {parse : String → Except ε α} {j : Json} :
    (do (parse (← j.asString?)).toOption) = some a ↔ ∃ text, j = .string text ∧ parse text = .ok a := by
  cases j with
  | string text =>
    change (parse text).toOption = some a ↔ _
    cases found : parse text with
    | error e => simp [Except.toOption, found]
    | ok b => simp [Except.toOption, found]
  | _ => simp [Json.asString?]

theorem checked_iff {check : Except ε Unit} {b : α} :
    (do check; return a) = .ok b ↔ check = .ok () ∧ a = b := by
  cases check with
  | error e => exact ⟨nofun, fun held => nomatch held.1⟩
  | ok _ => exact ⟨fun ok => ⟨rfl, Except.ok.inj ok⟩, fun held => congrArg Except.ok held.2⟩

theorem UnqualifiedName.parse_iff : parse text = .ok name ↔ name.Valid ∧ name.text = text := by
  rw [parse, checked_iff, Valid]
  cases name
  grind

theorem BinaryName.parse_iff {name : BinaryName} :
    parse text = .ok name ↔ name.Valid ∧ name.text = text := by
  rw [parse, checked_iff, Valid]
  cases name
  grind

variable {j : Json}

theorem UnqualifiedName.ofJson?_iff :
    ofJson? j = some name ↔ name.Valid ∧ j = .string name.text := by
  rw [ofJson?, Json.parsed_iff]
  simp only [parse_iff]
  grind

theorem BinaryName.ofJson?_iff {name : BinaryName} :
    ofJson? j = some name ↔ name.Valid ∧ j = .string name.text := by
  rw [ofJson?, Json.parsed_iff]
  simp only [parse_iff]
  grind

theorem RefType.ofJson?_iff {type : RefType} :
    ofJson? j = some type ↔ type.Valid ∧ j = .string type.render := by
  rw [ofJson?, Json.parsed_iff]
  simp only [parse, RefType.read_accepts.run_iff]
  grind [RefType.render]

theorem FieldType.ofJson?_iff {type : FieldType} :
    ofJson? j = some type ↔ type.Valid ∧ j = .string type.render := by
  rw [ofJson?, Json.parsed_iff]
  simp only [parse, FieldType.read_accepts.run_iff]
  grind [FieldType.render]

theorem MethodDescriptor.ofJson?_iff {descriptor : MethodDescriptor} :
    ofJson? j = some descriptor ↔ descriptor.Valid ∧ j = .string descriptor.render := by
  rw [ofJson?, Json.parsed_iff]
  simp only [parse, MethodDescriptor.read_accepts.run_iff]
  grind [MethodDescriptor.render]

end Texts

section Written

theorem Json.asNat?_nat {n limit : Nat} (small : n ≤ limit) : (nat n).asNat? limit = some n := by
  change (if n ≤ limit then some n else none) = some n
  rw [if_pos small]

theorem AccessFlags.ofJson?_ofFlags {kind : Declared} {flags : AccessFlags kind}
    (known : flags.Known) : ofJson? kind (.ofFlags flags) = some flags := by
  have small : flags.bits.toNat ≤ 0xFFFF := Nat.le_of_lt_succ flags.bits.toNat_lt
  unfold Known at known
  simp only [ofJson?, Json.ofFlags, Json.asNat?_nat small, Option.bind_eq_bind, Option.bind_some,
    UInt16.ofNat_toNat, ofBits?, known, if_true]

@[simp] theorem Json.asWord16?_nat (n : UInt16) : (nat n.toNat).asWord16? = some n := by
  have small : n.toNat ≤ 0xFFFF := Nat.le_of_lt_succ n.toNat_lt
  rw [asWord16?, asNat?_nat small, Option.map_some, UInt16.ofNat_toNat]

@[simp] theorem Json.asWord32?_nat (n : UInt32) : (nat n.toNat).asWord32? = some n := by
  have small : n.toNat ≤ 0xFFFFFFFF := Nat.le_of_lt_succ n.toNat_lt
  rw [asWord32?, asNat?_nat small, Option.map_some, UInt32.ofNat_toNat]

@[simp] theorem Json.asInt32?_int (n : Int32) : (int n.toInt).asInt32? = some n := by
  have lower := n.le_toInt
  have upper := n.toInt_lt
  have range : -0x80000000 ≤ n.toInt ∧ n.toInt ≤ 0x7FFFFFFF := by omega
  simp only [asInt32?, int, asInt?, Option.bind_eq_bind, Option.bind_some, range, Int32.ofInt_toInt,
    and_self, if_true]

theorem Json.asInt64?_int (n : Int64) : (int n.toInt).asInt64? = some n := by
  have lower := n.le_toInt
  have upper := n.toInt_lt
  have range : -0x8000000000000000 ≤ n.toInt ∧ n.toInt ≤ 0x7FFFFFFFFFFFFFFF := by omega
  simp only [asInt64?, int, asInt?, Option.bind_eq_bind, Option.bind_some, range, Int64.ofInt_toInt,
    and_self, if_true]

open Float.Model in
theorem isFinite_of_pack {format : Format} {bits : BitVec format.numBits}
    (finite : (UnpackedFloat.unpack format ((UnpackedFloat.unpack format bits).pack format)).isFinite =
      true) : (UnpackedFloat.unpack format bits).isFinite = true := by
  have never {sign : UnpackedFloat.Sign} {mantissa : BitVec format.mantissaBitsWithoutImplicit} :
      (UnpackedFloat.unpack format (UnpackedFloat.packComponents format sign (-1#_) mantissa)).isFinite = false := by
    rw [UnpackedFloat.unpack, UnpackedFloat.unpackExponent_packComponents, if_pos rfl]
    split <;> rfl
  cases found : UnpackedFloat.unpack format bits with
  | infinity sign | notANumber =>
    rw [found] at finite
    exact absurd finite (Bool.not_eq_true _ ▸ never)
  | zero sign => rfl
  | finite sign mantissa exponent positive => rfl

/-- A finite constant is read back as it was, down to its bits. -/
theorem Literal.ofJson?_toJson {value : Literal} (finite : value.Finite) :
    ofJson? value.toJson = some value := by
  cases value with
  | int value => simp [ofJson?, toJson, Json.single?]
  | long value => simp [ofJson?, toJson, Json.single?, Json.asInt64?_int]
  | float bits =>
    have single := narrow_widen (isFinite_of_pack finite)
    have double := toBits_ofBits (isFinite_widen (isFinite_of_pack finite))
    simp [ofJson?, toJson, Json.single?, Json.asFloatBits?, single, double]
  | double bits =>
    have back := toBits_ofBits (isFinite_of_pack finite)
    simp [ofJson?, toJson, Json.single?, Json.asDoubleBits?, back]
  | string text => simp [ofJson?, toJson, Json.single?, Json.asString?]

end Written

end ClassForge
