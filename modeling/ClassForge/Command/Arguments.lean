namespace ClassForge

-- Powers are the ones of `Nat`, also where a monoid would give others.
attribute [local instance (2000)] instPowNat

structure CompileOptions where
  input : String
  /-- Directory under which class files are written. -/
  output : String
  target : String
  debug : String
  inlineLimit : Option Nat
  dryRun : Bool
  deriving DecidableEq, Repr

inductive Topic where
  | program | compile | dump
  deriving DecidableEq, Repr

inductive Invocation where
  | version
  | help (topic : Topic)
  | compile (options : CompileOptions)
  | dump (path : String)
  deriving DecidableEq, Repr

/-- Why reading the arguments of a subcommand ends early. -/
inductive Interruption where
  | misuse
  | help
  deriving DecidableEq, Repr

inductive ValueOption where
  | output | target | debug | inlineLimit
  deriving DecidableEq, Repr

namespace ValueOption

def ofShort? : Char → Option ValueOption
  | 'd' => some .output
  | 'g' => some .debug
  | _ => none

def ofLong? : String → Option ValueOption
  | "target" => some .target
  | "finalizer-inline-limit" => some .inlineLimit
  | _ => none

end ValueOption

def parseCount? (text : String) : Option Nat :=
  let digits := match text.toList with
    | '+' :: rest => rest
    | chars => chars
  if digits.isEmpty || !digits.all Char.isDigit then none
  else
    let value := digits.foldl (fun n c => n * 10 + (c.toNat - '0'.toNat)) 0
    if value < 2 ^ (64 : Nat) then some value else none

def asksHelp (arg : String) : Bool :=
  match arg.toList with
  | '-' :: 'h' :: _ => true
  | _ => arg == "--help"

def isOption (arg : String) : Bool := arg.startsWith "-" && arg != "-"

def splitLong (chars : List Char) : String × Option String :=
  let name := chars.takeWhile (· != '=')
  match chars.drop name.length with
  | _ :: value => (String.ofList name, some (String.ofList value))
  | [] => (String.ofList name, none)

def attachedValue : List Char → Option String
  | [] => none
  | '=' :: rest => some (String.ofList rest)
  | rest => some (String.ofList rest)

def orMisuse {α : Type} : Option α → Except Interruption α
  | some a => .ok a
  | none => .error .misuse

/-- What has been given to `compile` so far. -/
structure CompileArguments where
  input : Option String := none
  output : Option String := none
  target : Option String := none
  debug : Option String := none
  inlineLimit : Option Nat := none
  dryRun : Bool := false

namespace CompileArguments

def set? (given : CompileArguments) (option : ValueOption) (value : String) :
    Option CompileArguments :=
  match option with
  | .output =>
    if given.output.isSome || value.isEmpty then none else some { given with output := some value }
  | .target => if given.target.isSome then none else some { given with target := some value }
  | .debug => if given.debug.isSome then none else some { given with debug := some value }
  | .inlineLimit =>
    if given.inlineLimit.isSome then none
    else (parseCount? value).map fun limit => { given with inlineLimit := some limit }

def setInput? (given : CompileArguments) (value : String) : Option CompileArguments :=
  if given.input.isSome || value.isEmpty then none else some { given with input := some value }

def setDryRun? (given : CompileArguments) : Option CompileArguments :=
  if given.dryRun then none else some { given with dryRun := true }

def complete? (given : CompileArguments) : Option CompileOptions := do
  return {
    input := ← given.input
    output := given.output.getD "."
    target := given.target.getD "8"
    debug := given.debug.getD "source,lines"
    inlineLimit := given.inlineLimit
    dryRun := given.dryRun }

def option? (arg : String) : Option (ValueOption × Option String) :=
  match arg.toList with
  | '-' :: '-' :: long =>
    let (name, value) := splitLong long
    (ValueOption.ofLong? name).map (·, value)
  | '-' :: short :: rest => (ValueOption.ofShort? short).map (·, attachedValue rest)
  | _ => none

def parse (given : CompileArguments) : List String → Except Interruption CompileArguments
  | [] => .ok given
  | "--" :: rest => orMisuse (rest.foldlM setInput? given)
  | "--dry-run" :: rest => do (← orMisuse given.setDryRun?).parse rest
  | [arg] =>
    if asksHelp arg then .error .help
    else if isOption arg then
      match option? arg with
      | some (option, some value) => orMisuse (given.set? option value)
      | _ => .error .misuse
    else orMisuse (given.setInput? arg)
  | arg :: next :: rest =>
    if asksHelp arg then .error .help
    else if isOption arg then
      match option? arg with
      | some (option, some value) => do
        (← orMisuse (given.set? option value)).parse (next :: rest)
      | some (option, none) =>
        if isOption next then .error .misuse
        else do (← orMisuse (given.set? option next)).parse rest
      | none => .error .misuse
    else do (← orMisuse (given.setInput? arg)).parse (next :: rest)

end CompileArguments

def parseDump (given : Option String) : List String → Except Interruption String
  | [] => orMisuse given
  | "--" :: rest =>
    match given, rest with
    | some path, [] => .ok path
    | none, [path] => if path.isEmpty then .error .misuse else .ok path
    | _, _ => .error .misuse
  | arg :: rest =>
    if asksHelp arg then .error .help
    else if isOption arg || arg.isEmpty || given.isSome then .error .misuse
    else parseDump (some arg) rest

namespace Invocation

def orHelp? (topic : Topic) : Except Interruption Invocation → Option Invocation
  | .ok invocation => some invocation
  | .error .help => some (.help topic)
  | .error .misuse => none

def parse? : List String → Option Invocation
  | "compile" :: args =>
    orHelp? .compile do
      let given ← CompileArguments.parse {} args
      return .compile (← orMisuse given.complete?)
  | "dump" :: args => orHelp? .dump ((parseDump none args).map .dump)
  | "help" :: [] | ["help", "help"] => some (.help .program)
  | ["help", "compile"] => some (.help .compile)
  | ["help", "dump"] => some (.help .dump)
  | arg :: _ =>
    match arg.toList with
    | '-' :: 'V' :: _ => some .version
    | _ =>
      if arg == "--version" then some .version
      else if asksHelp arg then some (.help .program)
      else none
  | [] => none

end Invocation

end ClassForge
