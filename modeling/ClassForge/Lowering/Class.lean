import ClassForge.Lowering.Method

namespace ClassForge

/-- A failure, and the method in which it arose. -/
structure ClassError where
  method : Option String
  error : Error

namespace Literal

def loadable : Literal → Loadable
  | .int value => .integer value
  | .long value => .long value
  | .float bits => .float bits
  | .double bits => .double bits
  | .string text => .string text

end Literal

namespace FieldDecl

def constantValue? (field : FieldDecl) : Option Literal :=
  if field.isStatic && field.isFinal then field.constant else none

def initializer? (thisClass : BinaryName) (field : FieldDecl) : Option Stmt :=
  match field.constantValue?, field.init with
  | none, some init =>
    let receiver := if field.isStatic then .implicit else .self
    let target := Expr.mk (some field.type) none
      (.field receiver ⟨thisClass, field.name, field.type, field.isStatic⟩)
    some (.mk field.line (.expr (.mk (some field.type) none (.assign target init))))
  | _, _ => none

end FieldDecl

namespace ClassDecl

def fields (decl : ClassDecl) : List FieldDecl :=
  decl.members.filterMap fun
    | .field field => some field
    | _ => none

def methods (decl : ClassDecl) : List MethodDecl :=
  decl.members.filterMap fun
    | .method method => some method
    | _ => none

def initializers (decl : ClassDecl) (isStatic : Bool) : List Stmt :=
  decl.members.filterMap fun
    | .field field => if field.isStatic == isStatic then field.initializer? decl.name else none
    | .initializer block => if block.isStatic == isStatic then some block.body else none
    | .method _ => none

def isSuperCall (decl : ClassDecl) : Stmt → Bool
  | .mk _ (.expr (.mk _ _ (.invoke _ ref _))) => ref.isConstructor && ref.owner != decl.name
  | _ => false

def withInitializers (decl : ClassDecl) (method : MethodDecl) : MethodDecl :=
  match method.isConstructor, method.body with
  | true, some (.mk line (.block (first :: rest))) =>
    if decl.isSuperCall first then
      { method with body := some (.mk line (.block (first :: decl.initializers false ++ rest))) }
    else method
  | _, _ => method

def classInitializer? (decl : ClassDecl) : Option MethodDecl :=
  match decl.initializers true with
  | [] => none
  | stmts =>
    some ⟨.clinit, ⟨AccessFlags.staticBit⟩, [], none, [], some (.mk none (.block stmts)), none⟩

end ClassDecl

namespace Build

def constantOf (field : FieldDecl) : Build (List Attribute) := do
  match field.constantValue? with
  | some constant =>
    let index ← pool (Pool.put constant.loadable.value)
    return [← attributeOf (.constantValue index)]
  | none => return []

def fieldOf (field : FieldDecl) : Build (MemberInfo .ofField) := do
  let name ← pool (Pool.utf8 field.name.text)
  let descriptor ← pool (Pool.utf8 field.type.render)
  return ⟨field.access, name, descriptor, ← constantOf field⟩

def bodyOf (hierarchy : ClassGraph) (settings : Settings) (thisClass : BinaryName)
    (method : MethodDecl) : Build (List Attribute) := do
  match method.body with
  | some body =>
    let code ← codeOf hierarchy settings thisClass method body
    return [← attributeOf (.code code)]
  | none => return []

def exceptionsOf (method : MethodDecl) : Build (List Attribute) := do
  match method.exceptions with
  | [] => return []
  | names =>
    let indices ← names.mapM fun name => pool (Pool.classRef (.object name))
    return [← attributeOf (.exceptions indices)]

def methodOf (hierarchy : ClassGraph) (settings : Settings) (thisClass : BinaryName)
    (method : MethodDecl) : Build (MemberInfo .ofMethod) := do
  let code ← bodyOf hierarchy settings thisClass method
  let exceptions ← exceptionsOf method
  let name ← pool (Pool.utf8 method.name.text)
  let descriptor ← pool (Pool.utf8 method.descriptor.render)
  return ⟨method.access, name, descriptor, code ++ exceptions⟩

def innerClass (name : BinaryName) (nesting : Nesting) : Build InnerClass := do
  let inner ← pool (Pool.classRef (.object name))
  match nesting.simpleName with
  | some simpleName =>
    let outer ← pool (Pool.classRef (.object nesting.outer))
    return ⟨inner, outer, ← pool (Pool.utf8 simpleName.text), nesting.access⟩
  | none => return ⟨inner, 0, 0, nesting.access⟩

/-- Entries for those of the classes that are nested and have none yet, in reverse. -/
def addInnerClasses (hierarchy : ClassGraph) (seen : List BinaryName)
    (entries : List InnerClass) : List BinaryName → Build (List BinaryName × List InnerClass)
  | [] => return (seen, entries)
  | name :: rest => do
    match if seen.contains name then none else hierarchy.nesting name with
    | some nesting =>
      let entry ← innerClass name nesting
      addInnerClasses hierarchy (name :: seen) (entry :: entries) rest
    | none => addInnerClasses hierarchy seen entries rest

def innerClassesFrom (hierarchy : ClassGraph) (thisClass : BinaryName) (seen : List BinaryName)
    (entries : List InnerClass) : Nat → Build (List InnerClass)
  | 0 => return entries.reverse
  | rounds + 1 => do
    let candidates := thisClass :: (← get).referencedClasses
    let (found, entries) ← addInnerClasses hierarchy seen entries candidates
    if found.length = seen.length then return entries.reverse
    else innerClassesFrom hierarchy thisClass found entries rounds

def innerClasses (hierarchy : ClassGraph) (thisClass : BinaryName) : Build (List InnerClass) :=
  innerClassesFrom hierarchy thisClass [] [] (hierarchy.classes.length + 1)

def sourceFileOf (settings : Settings) (sourceFile : Option String) : Build (List Attribute) := do
  match settings.sourceFile, sourceFile with
  | true, some name =>
    let index ← pool (Pool.utf8 name)
    return [← attributeOf (.sourceFile index)]
  | _, _ => return []

end Build

abbrev ClassBuild := EStateM ClassError Pool

namespace ClassBuild

def within {α : Type} (method : Option String) (action : Build α) : ClassBuild α := fun pool =>
  match action pool with
  | .ok a pool => .ok a pool
  | .error error pool => .error ⟨method, error⟩ pool

def header (decl : ClassDecl) : Build (UInt16 × Option UInt16 × List UInt16) := do
  let thisClass ← Build.pool (Pool.classRef (.object decl.name))
  let superclass ← if decl.name = .object then pure none
    else some <$> Build.pool (Pool.classRef (.object decl.above))
  let interfaces ← decl.interfaces.mapM fun name => Build.pool (Pool.classRef (.object name))
  return (thisClass, superclass, interfaces)

def classFileOf (hierarchy : ClassGraph) (settings : Settings) (sourceFile : Option String)
    (decl : ClassDecl) : ClassBuild ClassFile := do
  let (thisClass, superclass, interfaces) ← within none (header decl)
  let fields ← within none (decl.fields.mapM Build.fieldOf)
  let methods := decl.methods.map decl.withInitializers ++ decl.classInitializer?.toList
  let methods ← methods.mapM fun method =>
    within (some method.label) (Build.methodOf hierarchy settings decl.name method)
  let source ← within none (Build.sourceFileOf settings sourceFile)
  let nested ← within none (Build.innerClasses hierarchy decl.name)
  let nested ← if nested.isEmpty then pure []
    else List.singleton <$> within none (Build.attributeOf (.innerClasses nested))
  return {
    version := settings.version
    constants := (← get).constants
    access := if decl.isInterface then decl.access.without AccessFlags.superBit else decl.access
    thisClass
    superclass
    interfaces
    fields
    methods
    attributes := source ++ nested }

end ClassBuild

end ClassForge
