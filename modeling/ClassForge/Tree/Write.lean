import ClassForge.Json
import ClassForge.Numeric.Precision
import ClassForge.Tree

namespace ClassForge

namespace Json

def ofOption {α : Type} (write : α → Json) : Option α → Json
  | none => .null
  | some a => write a

def ofNames (names : List BinaryName) : Json := .array (names.map fun name => .string name.text)

def ofFlags {kind : Declared} (flags : AccessFlags kind) : Json := nat flags.bits.toNat

def ofLine (line : Option UInt16) : Json := ofOption (fun n => nat n.toNat) line

def ofType (type : Option FieldType) : Json := ofOption (fun type => .string type.render) type

end Json

namespace FieldRef

def toJson (ref : FieldRef) : Json := .object [
  ("owner", .string ref.owner.text),
  ("name", .string ref.name.text),
  ("descriptor", .string ref.descriptor.render),
  ("is_static", .bool ref.isStatic)]

end FieldRef

namespace MethodRef

def toJson (ref : MethodRef) : Json := .object [
  ("owner", .string ref.owner.text),
  ("name", .string ref.name.text),
  ("descriptor", .string ref.descriptor.render),
  ("is_static", .bool ref.isStatic),
  ("owner_is_interface", .bool ref.ownerIsInterface),
  ("is_private", .bool ref.isPrivate)]

end MethodRef

namespace Nesting

def toJson (nesting : Nesting) : Json := .object [
  ("outer", .string nesting.outer.text),
  ("simple_name", .ofOption (fun name => .string name.text) nesting.simpleName),
  ("access_flags", .ofFlags nesting.access)]

end Nesting

namespace ClassData

def toJson (data : ClassData) : Json := .object [
  ("superclass", .ofOption (fun name => .string name.text) data.superclass),
  ("interfaces", .ofNames data.interfaces),
  ("is_interface", .bool data.isInterface),
  ("outer", .ofOption Nesting.toJson data.nesting)]

end ClassData

namespace Literal

def toJson : Literal → Json
  | .int value => .object [("int", .int value.toInt)]
  | .long value => .object [("long", .int value.toInt)]
  | .float bits => .object [("float", .number (.fraction (Float.ofBits (widen bits))))]
  | .double bits => .object [("double", .number (.fraction (Float.ofBits bits)))]
  | .string text => .object [("string", .string text)]

end Literal

namespace UnaryOp

def word : UnaryOp → String
  | .plus => "plus"
  | .neg => "neg"
  | .compl => "compl"
  | .not => "not"
  | .preInc => "pre_inc"
  | .preDec => "pre_dec"
  | .postInc => "post_inc"
  | .postDec => "post_dec"

end UnaryOp

namespace BinaryOp

def word : BinaryOp → String
  | .add => "add"
  | .sub => "sub"
  | .mul => "mul"
  | .div => "div"
  | .rem => "rem"
  | .shl => "shl"
  | .shr => "shr"
  | .ushr => "ushr"
  | .and => "and"
  | .or => "or"
  | .xor => "xor"
  | .condAnd => "cond_and"
  | .condOr => "cond_or"
  | .eq => "eq"
  | .ne => "ne"
  | .lt => "lt"
  | .le => "le"
  | .gt => "gt"
  | .ge => "ge"

end BinaryOp

namespace VarDecl

def toJson (var : VarDecl) : Json := .object [
  ("id", .nat var.id.toNat),
  ("name", .string var.name.text),
  ("type", .string var.type.render),
  ("signature", .ofOption .string var.signature),
  ("constant", .ofOption Literal.toJson var.constant)]

end VarDecl

mutual

def Expr.toJson : Expr → Json
  | .mk type constant kind => .object (
      ("type", .ofType type) ::
      ("constant", .ofOption Literal.toJson constant) ::
      kind.jsonFields)

def ExprKind.jsonFields : ExprKind → List (String × Json)
  | .literal value => [("kind", .string "literal"), ("value", value.toJson)]
  | .null => [("kind", .string "null")]
  | .localVar id => [("kind", .string "local"), ("var", .nat id.toNat)]
  | .self => [("kind", .string "this")]
  | .field receiver ref =>
    [("kind", .string "field"), ("receiver", receiver.toJson), ("field", ref.toJson)]
  | .invoke receiver ref args =>
    [("kind", .string "invoke"), ("receiver", receiver.toJson), ("method", ref.toJson),
      ("args", .array (Expr.listToJson args))]
  | .construct constructor args =>
    [("kind", .string "new"), ("constructor", constructor.toJson),
      ("args", .array (Expr.listToJson args))]
  | .newArray dims elems =>
    [("kind", .string "new_array"), ("dims", .array (Expr.listToJson dims)),
      ("elems", Expr.optionalListToJson elems)]
  | .arrayLength array => [("kind", .string "array_length"), ("array", array.toJson)]
  | .index array index =>
    [("kind", .string "index"), ("array", array.toJson), ("index", index.toJson)]
  | .assign target value =>
    [("kind", .string "assign"), ("target", target.toJson), ("value", value.toJson)]
  | .compoundAssign op target value =>
    [("kind", .string "compound_assign"), ("op", .string op.word), ("target", target.toJson),
      ("value", value.toJson)]
  | .unary op operand =>
    [("kind", .string "unary"), ("op", .string op.word), ("operand", operand.toJson)]
  | .binary op left right =>
    [("kind", .string "binary"), ("op", .string op.word), ("left", left.toJson),
      ("right", right.toJson)]
  | .conditional cond yes no =>
    [("kind", .string "conditional"), ("cond", cond.toJson), ("then", yes.toJson),
      ("otherwise", no.toJson)]
  | .cast inner => [("kind", .string "cast"), ("expr", inner.toJson)]
  | .instanceOf inner type =>
    [("kind", .string "instance_of"), ("expr", inner.toJson), ("class", .string type.render)]
  | .classLiteral type => [("kind", .string "class_literal"), ("class", .ofType type)]

def Receiver.toJson : Receiver → Json
  | .implicit => .string "implicit"
  | .self => .string "this"
  | .super => .string "super"
  | .expr value => .object [("expr", value.toJson)]

def Expr.listToJson : List Expr → List Json
  | [] => []
  | e :: rest => e.toJson :: Expr.listToJson rest

def Expr.optionalListToJson : Option (List Expr) → Json
  | none => .null
  | some list => .array (Expr.listToJson list)

end

mutual

def Stmt.toJson : Stmt → Json
  | .mk line kind => .object (("line", .ofLine line) :: kind.jsonFields)

def StmtKind.jsonFields : StmtKind → List (String × Json)
  | .empty => [("kind", .string "empty")]
  | .block stmts => [("kind", .string "block"), ("stmts", .array (Stmt.listToJson stmts))]
  | .declare var init =>
    [("kind", .string "local_var"), ("var", var.toJson), ("init", .ofOption Expr.toJson init)]
  | .expr value => [("kind", .string "expr"), ("expr", value.toJson)]
  | .branch cond yes no =>
    [("kind", .string "if"), ("cond", cond.toJson), ("then", yes.toJson),
      ("otherwise", Stmt.optionToJson no)]
  | .whileLoop cond body =>
    [("kind", .string "while"), ("cond", cond.toJson), ("body", body.toJson)]
  | .doLoop body cond =>
    [("kind", .string "do_while"), ("body", body.toJson), ("cond", cond.toJson)]
  | .forLoop init cond update body =>
    [("kind", .string "for"), ("init", .array (Stmt.listToJson init)),
      ("cond", .ofOption Expr.toJson cond), ("update", .array (update.map Expr.toJson)),
      ("body", body.toJson)]
  | .labelled label body =>
    [("kind", .string "labelled"), ("label", .string label), ("body", body.toJson)]
  | .switch selector cases =>
    [("kind", .string "switch"), ("selector", selector.toJson),
      ("cases", .array (Case.listToJson cases))]
  | .breakTo label => [("kind", .string "break"), ("label", .ofOption .string label)]
  | .continueTo label => [("kind", .string "continue"), ("label", .ofOption .string label)]
  | .ret value => [("kind", .string "return"), ("value", .ofOption Expr.toJson value)]
  | .raise value => [("kind", .string "throw"), ("value", value.toJson)]
  | .guarded body catches finalizer =>
    [("kind", .string "try"), ("body", body.toJson),
      ("catches", .array (Catch.listToJson catches)), ("finally", Stmt.optionToJson finalizer)]
  | .synchronized lock body =>
    [("kind", .string "synchronized"), ("lock", lock.toJson), ("body", body.toJson)]

def Case.toJson : Case → Json
  | .mk labels isDefault body => .object [
      ("labels", .array (labels.map fun n => .int n.toInt)),
      ("is_default", .bool isDefault),
      ("body", .array (Stmt.listToJson body))]

def Catch.toJson : Catch → Json
  | .mk types param body => .object [
      ("types", .ofNames types),
      ("param", param.toJson),
      ("body", body.toJson)]

def Stmt.listToJson : List Stmt → List Json
  | [] => []
  | s :: rest => s.toJson :: Stmt.listToJson rest

def Stmt.optionToJson : Option Stmt → Json
  | none => .null
  | some s => s.toJson

def Case.listToJson : List Case → List Json
  | [] => []
  | c :: rest => c.toJson :: Case.listToJson rest

def Catch.listToJson : List Catch → List Json
  | [] => []
  | c :: rest => c.toJson :: Catch.listToJson rest

end

namespace Member

def toJson : Member → Json
  | .field decl => .object [
      ("kind", .string "field"),
      ("name", .string decl.name.text),
      ("access_flags", .ofFlags decl.access),
      ("type", .string decl.type.render),
      ("constant", .ofOption Literal.toJson decl.constant),
      ("init", .ofOption Expr.toJson decl.init),
      ("line", .ofLine decl.line)]
  | .method decl => .object [
      ("kind", .string "method"),
      ("name", .string decl.name.text),
      ("access_flags", .ofFlags decl.access),
      ("params", .array (decl.params.map VarDecl.toJson)),
      ("return_type", .ofType decl.result),
      ("exceptions", .ofNames decl.exceptions),
      ("body", .ofOption Stmt.toJson decl.body),
      ("end_line", .ofLine decl.endLine)]
  | .initializer decl => .object [
      ("kind", .string "initializer"),
      ("is_static", .bool decl.isStatic),
      ("body", decl.body.toJson)]

end Member

namespace ClassDecl

def toJson (decl : ClassDecl) : Json := .object [
  ("name", .string decl.name.text),
  ("access_flags", .ofFlags decl.access),
  ("superclass", .ofOption (fun name => .string name.text) decl.superclass),
  ("interfaces", .ofNames decl.interfaces),
  ("outer", .ofOption Nesting.toJson decl.nesting),
  ("members", .array (decl.members.map Member.toJson))]

end ClassDecl

namespace CompilationUnit

def toJson (unit : CompilationUnit) : Json := .object [
  ("source_file", .ofOption .string unit.sourceFile),
  ("classes", .array (unit.classes.map ClassDecl.toJson)),
  ("known_classes", .object (unit.known.map fun (name, data) => (name.text, data.toJson)))]

end CompilationUnit

end ClassForge
