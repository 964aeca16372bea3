import ClassForge.ClassFile.Listing
import ClassForge.Command.Files
import ClassForge.Command.Help
import ClassForge.Lowering.Unit
import ClassForge.Tree.Read

namespace ClassForge

structure Outcome where
  exit : UInt32
  out : String
  err : String
  deriving DecidableEq, Repr

inductive CommandError where
  | file (path : String) (cause : FileError)
  | invalidTree (path : String)
  | badTarget (target : String)
  | badDebugOption (option : String)
  | compilation (cause : Error)
  | malformedClass (cause : FormatError)

namespace CommandError

def message : CommandError → String
  | .file path cause => s!"{path}: {cause.message}"
  | .invalidTree path => s!"{path}: invalid syntax tree"
  | .badTarget target => s!"unknown target release '{target}'"
  | .badDebugOption option => s!"unknown debug info option '{option}'"
  | .compilation cause => cause.message
  | .malformedClass cause => s!"malformed class file: {cause.message}"

end CommandError

namespace Outcome

def fine (lines : List String) : Outcome := ⟨0, String.join (lines.map (· ++ "\n")), ""⟩

def failure (e : CommandError) : Outcome := ⟨2, "", s!"error: {e.message}\n"⟩

def usage : Outcome := ⟨2, "", "usage"⟩

def reported (diagnostics : List Diagnostic) : Outcome :=
  let lines := diagnostics.map fun diagnostic => s!"error: {diagnostic.message}\n"
  ⟨if diagnostics.isEmpty then 0 else 1, "", String.join lines⟩

end Outcome

namespace Settings

def withDebug (settings : Settings) : List String → Except CommandError Settings
  | [] => .ok settings
  | "" :: rest | "none" :: rest => settings.withDebug rest
  | "lines" :: rest => { settings with lineNumbers := true }.withDebug rest
  | "vars" :: rest => { settings with localVariables := true }.withDebug rest
  | "source" :: rest => { settings with sourceFile := true }.withDebug rest
  | other :: _ => .error (.badDebugOption other)

def ofOptions (options : CompileOptions) : Except CommandError Settings := do
  match Version.ofRelease? options.target with
  | none => .error (.badTarget options.target)
  | some version =>
    let limit := options.inlineLimit.getD Settings.default.finalizerInlineLimit
    withDebug ⟨version, false, false, false, limit⟩ (options.debug.splitOn ",")

end Settings

def joinPath (directory name : String) : String :=
  if directory.endsWith "/" then directory ++ name else directory ++ "/" ++ name

namespace Command

variable {m : Type → Type} [Monad m]

def saveClasses (files : FileAccess m) (directory : String) :
    List (BinaryName × ClassFile) → m (Except CommandError Unit)
  | [] => return .ok ()
  | (name, file) :: rest => do
    let path := joinPath directory (name.text ++ ".class")
    match ← files.save path file.encode with
    | .ok () => saveClasses files directory rest
    | .error cause => return .error (.file path cause)

def compileBytes (settings : Settings) (path : String) (bytes : Bytes) :
    Except CommandError Compilation :=
  match String.fromUTF8? (ByteArray.mk bytes.toArray) with
  | none => .error (.file path .notText)
  | some text =>
    match CompilationUnit.parse? text with
    | none => .error (.invalidTree path)
    | some unit => (unit.compile settings).mapError .compilation

def compile (files : FileAccess m) (options : CompileOptions) : m Outcome := do
  match Settings.ofOptions options with
  | .error e => return .failure e
  | .ok settings =>
    match ← files.read options.input with
    | .error cause => return .failure (.file options.input cause)
    | .ok bytes =>
      match compileBytes settings options.input bytes with
      | .error e => return .failure e
      | .ok compilation =>
        let classes := if options.dryRun then [] else compilation.classes
        match ← saveClasses files options.output classes with
        | .error e => return .failure e
        | .ok () => return .reported compilation.diagnostics

def dump (files : FileAccess m) (path : String) : m Outcome := do
  match ← files.read path with
  | .error cause => return .failure (.file path cause)
  | .ok bytes =>
    match ClassFile.decode bytes with
    | .error cause => return .failure (.malformedClass cause)
    | .ok file => return .fine file.listing

def run (files : FileAccess m) (args : List String) : m Outcome :=
  match Invocation.parse? args with
  | none => return .usage
  | some .version => return .fine [versionLine]
  | some (.help topic) => return .fine topic.help
  | some (.compile options) => compile files options
  | some (.dump path) => dump files path

end Command

end ClassForge
