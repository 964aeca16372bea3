import ClassForge.Assembly.Buffer
import ClassForge.ClassFile.Version

namespace ClassForge

structure Settings where
  version : Version
  lineNumbers : Bool
  localVariables : Bool
  sourceFile : Bool
  /-- Finalizers that are more complex than this become subroutines, where there are any; with 0
  all of them do. -/
  finalizerInlineLimit : Nat
  deriving DecidableEq, Repr

namespace Settings

def default : Settings := ⟨.java8, true, false, true, 50⟩

instance : Inhabited Settings := ⟨default⟩

def stackMaps (settings : Settings) : Bool := settings.version.atLeast .java6

def allowsSubroutines (settings : Settings) : Bool := !settings.version.atLeast .java7

def usesSubroutine (settings : Settings) (complexity : Nat) : Bool :=
  settings.allowsSubroutines && !settings.stackMaps &&
    (settings.finalizerInlineLimit == 0 || complexity > settings.finalizerInlineLimit)

def virtualPrivateCalls (settings : Settings) : Bool := settings.version.atLeast .java11

def classConstants (settings : Settings) : Bool := settings.version.atLeast .java5

def code (settings : Settings) : CodeSettings :=
  ⟨settings.stackMaps, settings.lineNumbers, settings.localVariables⟩

end Settings

end ClassForge
