import ClassForge.Hierarchy
import ClassForge.Member
import ClassForge.Tree.Literal
import ClassForge.Tree.Operator

namespace ClassForge

abbrev VarId := UInt32

structure VarDecl where
  id : VarId
  name : UnqualifiedName
  type : FieldType
  /-- Generic signature, if it says more than the type. -/
  signature : Option String
  /-- Value of a final variable with a constant initializer. -/
  constant : Option Literal
  deriving DecidableEq, Repr

mutual

/-- An expression: its type, none if it has no value; its constant value, if it has one. -/
inductive Expr where
  | mk (type : Option FieldType) (constant : Option Literal) (kind : ExprKind)

inductive ExprKind where
  | literal (value : Literal)
  | null
  | localVar (id : VarId)
  | self
  | field (receiver : Receiver) (ref : FieldRef)
  | invoke (receiver : Receiver) (ref : MethodRef) (args : List Expr)
  | construct (constructor : MethodRef) (args : List Expr)
  /-- A new array, with given lengths or with given elements. -/
  | newArray (dims : List Expr) (elems : Option (List Expr))
  | arrayLength (array : Expr)
  | index (array index : Expr)
  | assign (target value : Expr)
  | compoundAssign (op : BinaryOp) (target value : Expr)
  | unary (op : UnaryOp) (operand : Expr)
  | binary (op : BinaryOp) (left right : Expr)
  | conditional (cond yes no : Expr)
  /-- Conversion to the type of the expression. -/
  | cast (inner : Expr)
  | instanceOf (inner : Expr) (type : RefType)
  /-- The object of a class or primitive type, or of `void`. -/
  | classLiteral (type : Option FieldType)

/-- What a field or method is accessed on. -/
inductive Receiver where
  | implicit
  | self
  | super
  | expr (value : Expr)

end

mutual

/-- A statement and the line on which it starts. -/
inductive Stmt where
  | mk (line : Option UInt16) (kind : StmtKind)

inductive StmtKind where
  | empty
  | block (stmts : List Stmt)
  | declare (var : VarDecl) (init : Option Expr)
  | expr (value : Expr)
  | branch (cond : Expr) (yes : Stmt) (no : Option Stmt)
  | whileLoop (cond : Expr) (body : Stmt)
  | doLoop (body : Stmt) (cond : Expr)
  | forLoop (init : List Stmt) (cond : Option Expr) (update : List Expr) (body : Stmt)
  | labelled (label : String) (body : Stmt)
  | switch (selector : Expr) (cases : List Case)
  | breakTo (label : Option String)
  | continueTo (label : Option String)
  | ret (value : Option Expr)
  | raise (value : Expr)
  | guarded (body : Stmt) (catches : List Catch) (finalizer : Option Stmt)
  | synchronized (lock : Expr) (body : Stmt)

/-- A group of a switch, which falls through into the next one. -/
inductive Case where
  | mk (labels : List Int32) (isDefault : Bool) (body : List Stmt)

inductive Catch where
  | mk (types : List BinaryName) (param : VarDecl) (body : Stmt)

end

namespace Expr

def type : Expr → Option FieldType
  | .mk type _ _ => type

def constant : Expr → Option Literal
  | .mk _ constant _ => constant

def kind : Expr → ExprKind
  | .mk _ _ kind => kind

def typeCode (e : Expr) : TypeCode := .ofResult e.type

def isBoolean (e : Expr) : Bool := e.type == some (.base .boolean)

def isString (e : Expr) : Bool := e.type == some (.object .string)

def isNull : Expr → Bool
  | .mk _ _ .null => true
  | _ => false

def noted : Expr → Option Literal
  | .mk _ (some value) _ => some value
  | .mk _ none (.literal value) => some value
  | _ => none

end Expr

namespace Stmt

def line : Stmt → Option UInt16
  | .mk line _ => line

def kind : Stmt → StmtKind
  | .mk _ kind => kind

end Stmt

namespace Case

def labels : Case → List Int32
  | .mk labels _ _ => labels

def isDefault : Case → Bool
  | .mk _ isDefault _ => isDefault

def body : Case → List Stmt
  | .mk _ _ body => body

end Case

structure FieldDecl where
  name : UnqualifiedName
  access : AccessFlags .ofField
  type : FieldType
  /-- Value of a final field with a constant initializer. -/
  constant : Option Literal
  init : Option Expr
  line : Option UInt16

structure MethodDecl where
  name : UnqualifiedName
  access : AccessFlags .ofMethod
  params : List VarDecl
  /-- No type stands for `void`. -/
  result : Option FieldType
  exceptions : List BinaryName
  /-- Abstract and native methods have no body. -/
  body : Option Stmt
  /-- Line of the implicit return at the end. -/
  endLine : Option UInt16

/-- A block that runs when the class is initialized or when an instance is. -/
structure Initializer where
  isStatic : Bool
  body : Stmt

inductive Member where
  | field (decl : FieldDecl)
  | method (decl : MethodDecl)
  | initializer (decl : Initializer)

structure ClassDecl where
  name : BinaryName
  access : AccessFlags .ofClass
  superclass : Option BinaryName
  interfaces : List BinaryName
  nesting : Option Nesting
  members : List Member

/-- What is compiled together. The known classes are those that the code refers to. -/
structure CompilationUnit where
  sourceFile : Option String
  classes : List ClassDecl
  known : List (BinaryName × ClassData)

namespace FieldDecl

def isStatic (decl : FieldDecl) : Bool := decl.access.has AccessFlags.staticBit

def isFinal (decl : FieldDecl) : Bool := decl.access.has AccessFlags.finalBit

end FieldDecl

namespace MethodDecl

def isStatic (decl : MethodDecl) : Bool := decl.access.has AccessFlags.staticBit

def isConstructor (decl : MethodDecl) : Bool := decl.name == .init

def descriptor (decl : MethodDecl) : MethodDescriptor :=
  ⟨decl.params.map (·.type), decl.result⟩

end MethodDecl

namespace ClassDecl

def isInterface (decl : ClassDecl) : Bool := decl.access.has AccessFlags.interfaceBit

def above (decl : ClassDecl) : BinaryName := decl.superclass.getD .object

end ClassDecl

end ClassForge
