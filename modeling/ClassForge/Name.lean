namespace ClassForge

inductive NameError where
  | illegalCharacter (text : String)
  | emptyUnqualified
  | bracketsInUnqualified (text : String)
  | emptyBinary
  | bracketsInBinary (text : String)
  deriving DecidableEq, Repr

def NameError.message : NameError → String
  | .illegalCharacter text => s!"Unqualified name '{text}' contains an illegal character"
  | .emptyUnqualified => "Unqualified name is empty"
  | .bracketsInUnqualified text => s!"Unqualified name '{text}' contains angle brackets"
  | .emptyBinary => "Binary name is empty"
  | .bracketsInBinary text => s!"Binary name '{text}' contains angle brackets"

structure UnqualifiedName where
  text : String
  deriving DecidableEq, Hashable, Repr, Inhabited

/-- Name of a class or interface with `/` between its packages. -/
structure BinaryName where
  text : String
  deriving DecidableEq, Hashable, Repr, Inhabited

instance : ToString UnqualifiedName := ⟨UnqualifiedName.text⟩
instance : ToString BinaryName := ⟨BinaryName.text⟩

def isReserved (c : Char) : Bool := c == '.' || c == ';' || c == '[' || c == '/'

def isAngle (c : Char) : Bool := c == '<' || c == '>'

def segments : List Char → List (List Char)
  | [] => [[]]
  | c :: rest =>
    match segments rest with
    | [] => [[c]]
    | part :: parts => if c = '/' then [] :: part :: parts else (c :: part) :: parts

namespace UnqualifiedName

def check (chars : List Char) : Except NameError Unit :=
  let text := String.ofList chars
  if chars.any isReserved then .error (.illegalCharacter text)
  else if chars.isEmpty then .error .emptyUnqualified
  else if chars.any isAngle && text != "<init>" && text != "<clinit>" then
    .error (.bracketsInUnqualified text)
  else .ok ()

def parse (text : String) : Except NameError UnqualifiedName := do
  check text.toList
  return ⟨text⟩

def number (n : Nat) : UnqualifiedName := ⟨toString n⟩

def init : UnqualifiedName := ⟨"<init>"⟩
def clinit : UnqualifiedName := ⟨"<clinit>"⟩
def append : UnqualifiedName := ⟨"append"⟩
def forName : UnqualifiedName := ⟨"forName"⟩
def toStringName : UnqualifiedName := ⟨"toString"⟩
def typeField : UnqualifiedName := ⟨"TYPE"⟩
def thisName : UnqualifiedName := ⟨"this"⟩

end UnqualifiedName

namespace BinaryName

def check (chars : List Char) : Except NameError Unit :=
  if chars.isEmpty then .error .emptyBinary
  else if chars.any isAngle then .error (.bracketsInBinary (String.ofList chars))
  else (segments chars).forM UnqualifiedName.check

def parse (text : String) : Except NameError BinaryName := do
  check text.toList
  return ⟨text⟩

def Valid (name : BinaryName) : Prop := check name.text.toList = .ok ()

def join (name other : BinaryName) : BinaryName := ⟨name.text ++ "/" ++ other.text⟩

def simpleName (name : BinaryName) : String :=
  String.ofList ((segments name.text.toList).getLast?.getD [])

def boolean : BinaryName := ⟨"java/lang/Boolean"⟩
def byte : BinaryName := ⟨"java/lang/Byte"⟩
def character : BinaryName := ⟨"java/lang/Character"⟩
def charSequence : BinaryName := ⟨"java/lang/CharSequence"⟩
def classObject : BinaryName := ⟨"java/lang/Class"⟩
def cloneable : BinaryName := ⟨"java/lang/Cloneable"⟩
def comparable : BinaryName := ⟨"java/lang/Comparable"⟩
def double : BinaryName := ⟨"java/lang/Double"⟩
def error : BinaryName := ⟨"java/lang/Error"⟩
def exception : BinaryName := ⟨"java/lang/Exception"⟩
def float : BinaryName := ⟨"java/lang/Float"⟩
def integer : BinaryName := ⟨"java/lang/Integer"⟩
def long : BinaryName := ⟨"java/lang/Long"⟩
def number : BinaryName := ⟨"java/lang/Number"⟩
def object : BinaryName := ⟨"java/lang/Object"⟩
def runtimeException : BinaryName := ⟨"java/lang/RuntimeException"⟩
def serializable : BinaryName := ⟨"java/io/Serializable"⟩
def short : BinaryName := ⟨"java/lang/Short"⟩
def string : BinaryName := ⟨"java/lang/String"⟩
def stringBuilder : BinaryName := ⟨"java/lang/StringBuilder"⟩
def throwable : BinaryName := ⟨"java/lang/Throwable"⟩
def void : BinaryName := ⟨"java/lang/Void"⟩

end BinaryName

end ClassForge
