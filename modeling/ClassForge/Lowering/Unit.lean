import ClassForge.Lowering.Class

namespace ClassForge

/-- A class was left out. -/
structure Diagnostic where
  className : BinaryName
  method : Option String
  error : Error

def Diagnostic.message (diagnostic : Diagnostic) : String :=
  let text := diagnostic.error.message
  match diagnostic.method with
  | some method => s!"{diagnostic.className.text}.{method}: {text}"
  | none => s!"{diagnostic.className.text}: {text}"

/-- Classes and diagnostics, in the order of declaration. -/
structure Compilation where
  classes : List (BinaryName × ClassFile)
  diagnostics : List Diagnostic

namespace ClassDecl

def data (decl : ClassDecl) : ClassData where
  superclass := if decl.isInterface then none else some decl.above
  interfaces := decl.interfaces
  isInterface := decl.isInterface
  nesting := decl.nesting

end ClassDecl

namespace CompilationUnit

def hierarchy (unit : CompilationUnit) : ClassGraph :=
  let known := unit.known.foldl (fun graph (name, data) => graph.add name data) .library
  unit.classes.foldl (fun graph decl => graph.add decl.name decl.data) known

/-- Compile classes one after another; results so far are in reverse. -/
def compileFrom (hierarchy : ClassGraph) (settings : Settings) (sourceFile : Option String)
    (classes : List (BinaryName × ClassFile)) (diagnostics : List Diagnostic) :
    List ClassDecl → Except Error Compilation
  | [] => .ok ⟨classes.reverse, diagnostics.reverse⟩
  | decl :: rest =>
    match ClassBuild.classFileOf hierarchy settings sourceFile decl .empty with
    | .ok file _ =>
      compileFrom hierarchy settings sourceFile ((decl.name, file) :: classes) diagnostics rest
    | .error ⟨method, error⟩ _ =>
      if error.isLimit then
        compileFrom hierarchy settings sourceFile classes
          (⟨decl.name, method, error⟩ :: diagnostics) rest
      else .error error

def compile (unit : CompilationUnit) (settings : Settings) : Except Error Compilation :=
  compileFrom unit.hierarchy settings unit.sourceFile [] [] unit.classes

end CompilationUnit

end ClassForge
