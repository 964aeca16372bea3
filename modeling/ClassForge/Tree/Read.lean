import ClassForge.Descriptor.Parser
import ClassForge.Json.Parser
import ClassForge.Json.Reader
import ClassForge.Numeric.Precision
import ClassForge.Tree

namespace ClassForge

namespace UnqualifiedName

def ofJson? (j : Json) : Option UnqualifiedName := do (parse (← j.asString?)).toOption

end UnqualifiedName

namespace BinaryName

def ofJson? (j : Json) : Option BinaryName := do (parse (← j.asString?)).toOption

end BinaryName

namespace RefType

def ofJson? (j : Json) : Option RefType := do (parse (← j.asString?)).toOption

end RefType

namespace FieldType

def ofJson? (j : Json) : Option FieldType := do (parse (← j.asString?)).toOption

end FieldType

namespace MethodDescriptor

def ofJson? (j : Json) : Option MethodDescriptor := do (parse (← j.asString?)).toOption

end MethodDescriptor

namespace AccessFlags

def ofJson? (kind : Declared) (j : Json) : Option (AccessFlags kind) := do
  ofBits? kind (UInt16.ofNat (← j.asNat? 0xFFFF))

end AccessFlags

namespace Json

def asWord16? (j : Json) : Option UInt16 := (j.asNat? 0xFFFF).map UInt16.ofNat

def asWord32? (j : Json) : Option UInt32 := (j.asNat? 0xFFFFFFFF).map UInt32.ofNat

def asInt32? (j : Json) : Option Int32 := do
  let n ← j.asInt?
  if -0x80000000 ≤ n ∧ n ≤ 0x7FFFFFFF then some (Int32.ofInt n) else none

def asInt64? (j : Json) : Option Int64 := do
  let n ← j.asInt?
  if -0x8000000000000000 ≤ n ∧ n ≤ 0x7FFFFFFFFFFFFFFF then some (Int64.ofInt n) else none

def asFloatBits? : Json → Option UInt32
  | .number (.integer n) =>
    some (if n < 0 then (Int64.ofInt n).toFloat32 else (UInt64.ofInt n).toFloat32).toBits
  | .number (.fraction x) => some (narrow x.toBits)
  | _ => none

def asDoubleBits? : Json → Option UInt64
  | .number (.integer n) =>
    some (if n < 0 then (Int64.ofInt n).toFloat else (UInt64.ofInt n).toFloat).toBits
  | .number (.fraction x) => some x.toBits
  | _ => none

end Json

namespace FieldRef

def ofJson? (j : Json) : Option FieldRef := do
  let owner ← j.required "owner" fun v => BinaryName.ofJson? v
  let name ← j.required "name" fun v => UnqualifiedName.ofJson? v
  let descriptor ← j.required "descriptor" fun v => FieldType.ofJson? v
  let isStatic ← j.withDefault "is_static" false fun v => v.val.asBool?
  return ⟨owner, name, descriptor, isStatic⟩

end FieldRef

namespace MethodRef

def ofJson? (j : Json) : Option MethodRef := do
  let owner ← j.required "owner" fun v => BinaryName.ofJson? v
  let name ← j.required "name" fun v => UnqualifiedName.ofJson? v
  let descriptor ← j.required "descriptor" fun v => MethodDescriptor.ofJson? v
  let isStatic ← j.withDefault "is_static" false fun v => v.val.asBool?
  let ownerIsInterface ← j.withDefault "owner_is_interface" false fun v => v.val.asBool?
  let isPrivate ← j.withDefault "is_private" false fun v => v.val.asBool?
  return ⟨owner, name, descriptor, isStatic, ownerIsInterface, isPrivate⟩

end MethodRef

namespace Nesting

def ofJson? (j : Json) : Option Nesting := do
  let outer ← j.required "outer" fun v => BinaryName.ofJson? v
  let simpleName ← j.optional "simple_name" fun v => UnqualifiedName.ofJson? v
  let access ← j.withDefault "access_flags" .none fun v => AccessFlags.ofJson? .ofInner v
  return ⟨outer, simpleName, access⟩

end Nesting

namespace ClassData

def ofJson? (j : Json) : Option ClassData := do
  j.object?
  let superclass ← j.optional "superclass" fun v => BinaryName.ofJson? v
  let interfaces ← j.withDefault "interfaces" [] fun v =>
    v.val.listOf fun w => BinaryName.ofJson? w
  let isInterface ← j.withDefault "is_interface" false fun v => v.val.asBool?
  let nesting ← j.optional "outer" fun v => Nesting.ofJson? v
  return ⟨superclass, interfaces, isInterface, nesting⟩

def mapOfJson? (j : Json) : Option (List (BinaryName × ClassData)) := do
  (← j.fields?).mapM fun (key, value) => do
    return (← (BinaryName.parse key).toOption, ← ofJson? value)

end ClassData

namespace Literal

def ofJson? (j : Json) : Option Literal := do
  let (key, value) ← j.single?
  let value := value.val
  match key with
  | "int" => value.asInt32?.map .int
  | "long" => value.asInt64?.map .long
  | "float" => value.asFloatBits?.map .float
  | "double" => value.asDoubleBits?.map .double
  | "string" => value.asString?.map .string
  | _ => none

end Literal

namespace UnaryOp

def ofJson? (j : Json) : Option UnaryOp := do
  match ← j.word? with
  | "plus" => some .plus
  | "neg" => some .neg
  | "compl" => some .compl
  | "not" => some .not
  | "pre_inc" => some .preInc
  | "pre_dec" => some .preDec
  | "post_inc" => some .postInc
  | "post_dec" => some .postDec
  | _ => none

end UnaryOp

namespace BinaryOp

def ofJson? (j : Json) : Option BinaryOp := do
  match ← j.word? with
  | "add" => some .add
  | "sub" => some .sub
  | "mul" => some .mul
  | "div" => some .div
  | "rem" => some .rem
  | "shl" => some .shl
  | "shr" => some .shr
  | "ushr" => some .ushr
  | "and" => some .and
  | "or" => some .or
  | "xor" => some .xor
  | "cond_and" => some .condAnd
  | "cond_or" => some .condOr
  | "eq" => some .eq
  | "ne" => some .ne
  | "lt" => some .lt
  | "le" => some .le
  | "gt" => some .gt
  | "ge" => some .ge
  | _ => none

end BinaryOp

namespace VarDecl

def ofJson? (j : Json) : Option VarDecl := do
  let id ← j.required "id" fun v => v.val.asWord32?
  let name ← j.required "name" fun v => UnqualifiedName.ofJson? v
  let type ← j.required "type" fun v => FieldType.ofJson? v
  let signature ← j.optional "signature" fun v => v.val.asString?
  let constant ← j.optional "constant" fun v => Literal.ofJson? v
  return ⟨id, name, type, signature, constant⟩

end VarDecl

mutual

def Expr.ofJson? (j : Json) : Option Expr := do
  let type ← j.optional "type" fun v => FieldType.ofJson? v
  let constant ← j.optional "constant" fun v => Literal.ofJson? v
  let kind ← ExprKind.ofJson? j (← j.required "kind" fun v => v.val.asString?)
  return .mk type constant kind
termination_by (sizeOf j, 1)

def ExprKind.ofJson? (j : Json) (kind : String) : Option ExprKind :=
  let expr := fun key => j.required key fun ⟨v, _below⟩ => Expr.ofJson? v
  let exprs := fun key => j.withDefault key [] fun ⟨v, _below⟩ =>
    v.listOf fun ⟨w, _within⟩ => Expr.ofJson? w
  let receiver := fun () => j.withDefault "receiver" Receiver.implicit fun ⟨v, _below⟩ =>
    Receiver.ofJson? v
  match kind with
  | "literal" => do return .literal (← j.required "value" fun v => Literal.ofJson? v)
  | "null" => some .null
  | "local" => do return .localVar (← j.required "var" fun v => v.val.asWord32?)
  | "this" => some .self
  | "field" => do
    return .field (← receiver ()) (← j.required "field" fun v => FieldRef.ofJson? v)
  | "invoke" => do
    return .invoke (← receiver ()) (← j.required "method" fun v => MethodRef.ofJson? v)
      (← exprs "args")
  | "new" => do
    return .construct (← j.required "constructor" fun v => MethodRef.ofJson? v) (← exprs "args")
  | "new_array" => do
    return .newArray (← exprs "dims") (← j.optional "elems" fun ⟨v, _below⟩ =>
      v.listOf fun ⟨w, _within⟩ => Expr.ofJson? w)
  | "array_length" => do return .arrayLength (← expr "array")
  | "index" => do return .index (← expr "array") (← expr "index")
  | "assign" => do return .assign (← expr "target") (← expr "value")
  | "compound_assign" => do
    return .compoundAssign (← j.required "op" fun v => BinaryOp.ofJson? v) (← expr "target")
      (← expr "value")
  | "unary" => do
    return .unary (← j.required "op" fun v => UnaryOp.ofJson? v) (← expr "operand")
  | "binary" => do
    return .binary (← j.required "op" fun v => BinaryOp.ofJson? v) (← expr "left") (← expr "right")
  | "conditional" => do
    return .conditional (← expr "cond") (← expr "then") (← expr "otherwise")
  | "cast" => do return .cast (← expr "expr")
  | "instance_of" => do
    return .instanceOf (← expr "expr") (← j.required "class" fun v => RefType.ofJson? v)
  | "class_literal" => do
    return .classLiteral (← j.optional "class" fun v => FieldType.ofJson? v)
  | _ => none
termination_by (sizeOf j, 0)

def Receiver.ofJson? (j : Json) : Option Receiver :=
  match j.single? with
  | some ("expr", ⟨v, _below⟩) => (Expr.ofJson? v).map .expr
  | _ => do
    match ← j.word? with
    | "implicit" => some .implicit
    | "this" => some .self
    | "super" => some .super
    | _ => none
termination_by (sizeOf j, 0)

end

mutual

def Stmt.ofJson? (j : Json) : Option Stmt := do
  let line ← j.optional "line" fun v => v.val.asWord16?
  let kind ← StmtKind.ofJson? j (← j.required "kind" fun v => v.val.asString?)
  return .mk line kind
termination_by (sizeOf j, 1)

def StmtKind.ofJson? (j : Json) (kind : String) : Option StmtKind :=
  let expr := fun key => j.required key fun v => Expr.ofJson? v
  let optionalExpr := fun key => j.optional key fun v => Expr.ofJson? v
  let label := fun () => j.optional "label" fun v => v.val.asString?
  let stmt := fun key => j.required key fun ⟨v, _below⟩ => Stmt.ofJson? v
  let optionalStmt := fun key => j.optional key fun ⟨v, _below⟩ => Stmt.ofJson? v
  match kind with
  | "empty" => some .empty
  | "block" => do
    return .block (← j.required "stmts" fun ⟨v, _below⟩ =>
      v.listOf fun ⟨w, _within⟩ => Stmt.ofJson? w)
  | "local_var" => do
    return .declare (← j.required "var" fun v => VarDecl.ofJson? v) (← optionalExpr "init")
  | "expr" => do return .expr (← expr "expr")
  | "if" => do return .branch (← expr "cond") (← stmt "then") (← optionalStmt "otherwise")
  | "while" => do return .whileLoop (← expr "cond") (← stmt "body")
  | "do_while" => do return .doLoop (← stmt "body") (← expr "cond")
  | "for" => do
    let init ← j.withDefault "init" [] fun ⟨v, _below⟩ =>
      v.listOf fun ⟨w, _within⟩ => Stmt.ofJson? w
    let update ← j.withDefault "update" [] fun v => v.val.listOf fun w => Expr.ofJson? w
    return .forLoop init (← optionalExpr "cond") update (← stmt "body")
  | "labelled" => do
    return .labelled (← j.required "label" fun v => v.val.asString?) (← stmt "body")
  | "switch" => do
    return .switch (← expr "selector") (← j.required "cases" fun ⟨v, _below⟩ =>
      v.listOf fun ⟨w, _within⟩ => Case.ofJson? w)
  | "break" => do return .breakTo (← label ())
  | "continue" => do return .continueTo (← label ())
  | "return" => do return .ret (← optionalExpr "value")
  | "throw" => do return .raise (← expr "value")
  | "try" => do
    let body ← stmt "body"
    let catches ← j.withDefault "catches" [] fun ⟨v, _below⟩ =>
      v.listOf fun ⟨w, _within⟩ => Catch.ofJson? w
    return .guarded body catches (← optionalStmt "finally")
  | "synchronized" => do return .synchronized (← expr "lock") (← stmt "body")
  | _ => none
termination_by (sizeOf j, 0)

def Case.ofJson? (j : Json) : Option Case := do
  j.object?
  let labels ← j.withDefault "labels" [] fun v => v.val.listOf fun w => w.val.asInt32?
  let isDefault ← j.withDefault "is_default" false fun v => v.val.asBool?
  let body ← j.withDefault "body" [] fun ⟨v, _below⟩ =>
    v.listOf fun ⟨w, _within⟩ => Stmt.ofJson? w
  return .mk labels isDefault body
termination_by (sizeOf j, 0)

def Catch.ofJson? (j : Json) : Option Catch := do
  let types ← j.required "types" fun v => v.val.listOf fun w => BinaryName.ofJson? w
  let param ← j.required "param" fun v => VarDecl.ofJson? v
  let body ← j.required "body" fun ⟨v, _below⟩ => Stmt.ofJson? v
  return .mk types param body
termination_by (sizeOf j, 0)

end

namespace FieldDecl

def ofJson? (j : Json) : Option FieldDecl := do
  let name ← j.required "name" fun v => UnqualifiedName.ofJson? v
  let access ← j.withDefault "access_flags" .none fun v => AccessFlags.ofJson? .ofField v
  let type ← j.required "type" fun v => FieldType.ofJson? v
  let constant ← j.optional "constant" fun v => Literal.ofJson? v
  let init ← j.optional "init" fun v => Expr.ofJson? v
  let line ← j.optional "line" fun v => v.val.asWord16?
  return ⟨name, access, type, constant, init, line⟩

end FieldDecl

namespace MethodDecl

def ofJson? (j : Json) : Option MethodDecl := do
  let name ← j.required "name" fun v => UnqualifiedName.ofJson? v
  let access ← j.withDefault "access_flags" .none fun v => AccessFlags.ofJson? .ofMethod v
  let params ← j.withDefault "params" [] fun v => v.val.listOf fun w => VarDecl.ofJson? w
  let result ← j.optional "return_type" fun v => FieldType.ofJson? v
  let exceptions ← j.withDefault "exceptions" [] fun v =>
    v.val.listOf fun w => BinaryName.ofJson? w
  let body ← j.optional "body" fun v => Stmt.ofJson? v
  let endLine ← j.optional "end_line" fun v => v.val.asWord16?
  return ⟨name, access, params, result, exceptions, body, endLine⟩

end MethodDecl

namespace Initializer

def ofJson? (j : Json) : Option Initializer := do
  let isStatic ← j.withDefault "is_static" false fun v => v.val.asBool?
  let body ← j.required "body" fun v => Stmt.ofJson? v
  return ⟨isStatic, body⟩

end Initializer

namespace Member

def ofJson? (j : Json) : Option Member := do
  match ← j.required "kind" fun v => v.val.asString? with
  | "field" => (FieldDecl.ofJson? j).map .field
  | "method" => (MethodDecl.ofJson? j).map .method
  | "initializer" => (Initializer.ofJson? j).map .initializer
  | _ => none

end Member

namespace ClassDecl

def ofJson? (j : Json) : Option ClassDecl := do
  let name ← j.required "name" fun v => BinaryName.ofJson? v
  let access ← j.withDefault "access_flags" ⟨AccessFlags.superBit⟩ fun v =>
    AccessFlags.ofJson? .ofClass v
  let superclass ← j.optional "superclass" fun v => BinaryName.ofJson? v
  let interfaces ← j.withDefault "interfaces" [] fun v =>
    v.val.listOf fun w => BinaryName.ofJson? w
  let nesting ← j.optional "outer" fun v => Nesting.ofJson? v
  let members ← j.withDefault "members" [] fun v => v.val.listOf fun w => Member.ofJson? w
  return ⟨name, access, superclass, interfaces, nesting, members⟩

end ClassDecl

namespace CompilationUnit

def ofJson? (j : Json) : Option CompilationUnit := do
  let sourceFile ← j.optional "source_file" fun v => v.val.asString?
  let classes ← j.required "classes" fun v => v.val.listOf fun w => ClassDecl.ofJson? w
  let known ← j.withDefault "known_classes" [] fun v => ClassData.mapOfJson? v
  return ⟨sourceFile, classes, known⟩

def maxNesting : Nat := 127

def shape : JsonShape :=
  let nesting := .fields [("outer", .whole), ("simple_name", .whole), ("access_flags", .whole)]
  let decl := .fields [("name", .whole), ("access_flags", .whole), ("superclass", .whole),
    ("interfaces", .whole), ("outer", nesting), ("members", .whole)]
  let data := .fields [("superclass", .whole), ("interfaces", .whole), ("is_interface", .whole),
    ("outer", nesting)]
  .fields [("source_file", .whole), ("classes", .items decl), ("known_classes", .values data)]

def parse? (text : String) : Option CompilationUnit := do
  ofJson? (← Json.parse? maxNesting shape text)

end CompilationUnit

end ClassForge
