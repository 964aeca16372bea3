import ClassForge.Access
import ClassForge.Descriptor

namespace ClassForge

/-- Where a nested class is declared; an anonymous class has no simple name. -/
structure Nesting where
  outer : BinaryName
  simpleName : Option UnqualifiedName
  access : AccessFlags .ofInner
  deriving DecidableEq, Repr

structure ClassData where
  superclass : Option BinaryName
  interfaces : List BinaryName
  isInterface : Bool
  nesting : Option Nesting
  deriving DecidableEq, Repr

namespace ClassData

def ofClass (superclass : BinaryName) (interfaces : List BinaryName) : ClassData :=
  ⟨some superclass, interfaces, false, none⟩

def ofInterface (interfaces : List BinaryName) : ClassData := ⟨none, interfaces, true, none⟩

def supertypes (data : ClassData) : List BinaryName := data.superclass.toList ++ data.interfaces

end ClassData

/-- The known classes, each listed once. -/
structure ClassGraph where
  classes : List (BinaryName × ClassData)
  deriving Repr

namespace ClassGraph

def empty : ClassGraph := ⟨[]⟩

def add (graph : ClassGraph) (name : BinaryName) (data : ClassData) : ClassGraph :=
  ⟨(name, data) :: graph.classes.filter (·.1 != name)⟩

def get? (graph : ClassGraph) (name : BinaryName) : Option ClassData := graph.classes.lookup name

def superclass (graph : ClassGraph) (name : BinaryName) : Option BinaryName :=
  (graph.get? name).bind (·.superclass)

def interfaces (graph : ClassGraph) (name : BinaryName) : List BinaryName :=
  ((graph.get? name).map (·.interfaces)).getD []

def isInterface (graph : ClassGraph) (name : BinaryName) : Bool :=
  ((graph.get? name).map (·.isInterface)).getD false

def nesting (graph : ClassGraph) (name : BinaryName) : Option Nesting :=
  (graph.get? name).bind (·.nesting)

/-- The classes that compiled code relies on whatever it refers to. -/
def library : ClassGraph :=
  let interfaces := [BinaryName.charSequence, .cloneable, .comparable, .serializable]
  let classes : List (BinaryName × BinaryName × List BinaryName) := [
    (.string, .object, [.serializable, .comparable, .charSequence]),
    (.stringBuilder, .object, [.serializable, .charSequence]),
    (.classObject, .object, [.serializable]),
    (.throwable, .object, [.serializable]),
    (.exception, .throwable, []),
    (.error, .throwable, []),
    (.runtimeException, .exception, []),
    (.number, .object, [.serializable]),
    (.boolean, .object, [.serializable, .comparable]),
    (.character, .object, [.serializable, .comparable]),
    (.byte, .number, [.comparable]),
    (.short, .number, [.comparable]),
    (.integer, .number, [.comparable]),
    (.long, .number, [.comparable]),
    (.float, .number, [.comparable]),
    (.double, .number, [.comparable]),
    (.void, .object, [])]
  ⟨(.object, ⟨none, [], false, none⟩) ::
    interfaces.map (fun name => (name, .ofInterface [])) ++
    classes.map fun (name, superclass, interfaces) => (name, .ofClass superclass interfaces)⟩

def erase (graph : ClassGraph) (name : BinaryName) : ClassGraph :=
  ⟨graph.classes.filter (·.1 != name)⟩

theorem erase_size_lt {graph : ClassGraph} {name : BinaryName} {data : ClassData}
    (known : graph.get? name = some data) :
    (graph.erase name).classes.length < graph.classes.length := by
  obtain ⟨classes⟩ := graph
  simp only [get?, erase] at known ⊢
  induction classes with
  | nil => cases known
  | cons entry rest ih =>
    rw [List.lookup_cons] at known
    have shrinks := List.length_filter_le (fun e : BinaryName × ClassData => e.1 != name) rest
    by_cases same : entry.1 = name
    · simp only [List.filter_cons, same, bne_self_eq_false, Bool.false_eq_true, if_false,
        List.length_cons]
      omega
    · have differs : (name == entry.1) = false := by
        simp only [beq_eq_false_iff_ne, ne_eq]
        exact fun equal => same equal.symm
      rw [differs] at known
      have keeps : (entry.1 != name) = true := by simp [same]
      have step := ih known
      simp only [List.filter_cons, keeps, if_true, List.length_cons]
      omega

/-- Some name in `names` is the target or inherits from it. A class is forgotten once its
supertypes have been listed, so cycles do no harm. -/
def reaches (graph : ClassGraph) (target : BinaryName) (names : List BinaryName) : Bool :=
  match names with
  | [] => false
  | name :: rest =>
    if name = target then true
    else
      match _known : graph.get? name with
      | none => reaches graph target rest
      | some data => reaches (graph.erase name) target (data.supertypes ++ rest)
termination_by (graph.classes.length, names.length)
decreasing_by
  · exact Prod.Lex.right _ (by simp)
  · exact Prod.Lex.left _ _ (erase_size_lt (by assumption))

def isSubclass (graph : ClassGraph) (sub sup : BinaryName) : Bool :=
  sup == .object || graph.reaches sup [sub]

/-- Values of the first type can be used as values of the second. Arrays are covariant, and all
arrays are cloneable and serializable. -/
def isAssignable (graph : ClassGraph) : RefType → RefType → Bool
  | .object sub, .object sup => graph.isSubclass sub sup
  | .objectArray _ _, .object sup | .primitiveArray _ _, .object sup =>
    sup == .object || sup == .cloneable || sup == .serializable
  | .primitiveArray extra element, .primitiveArray extra' element' =>
    extra == extra' && element == element'
  | .objectArray 0 sub, .objectArray 0 sup => graph.isSubclass sub sup
  | .objectArray (_ + 1) _, .objectArray 0 sup =>
    sup == .object || sup == .cloneable || sup == .serializable
  | .objectArray 0 _, .objectArray (_ + 1) _ => false
  | .objectArray (extra + 1) sub, .objectArray (extra' + 1) sup =>
    graph.isAssignable (.objectArray extra sub) (.objectArray extra' sup)
  | .primitiveArray 0 _, .objectArray _ _ => false
  | .primitiveArray (_ + 1) _, .objectArray 0 sup =>
    sup == .object || sup == .cloneable || sup == .serializable
  | .primitiveArray (extra + 1) element, .objectArray (extra' + 1) sup =>
    graph.isAssignable (.primitiveArray extra element) (.objectArray extra' sup)
  | .object _, .objectArray _ _ | .object _, .primitiveArray _ _ => false
  | .objectArray _ _, .primitiveArray _ _ => false
termination_by sub => sub.dimensions
decreasing_by all_goals simp only [RefType.dimensions]; omega

/-- The first superclass of a class, going up, that the other class inherits from. -/
def meetAbove (graph : ClassGraph) (remaining : ClassGraph) (name other : BinaryName) :
    BinaryName :=
  match _known : remaining.get? name with
  | none => .object
  | some data =>
    match data.superclass with
    | none => .object
    | some above =>
      if graph.isSubclass other above then above
      else meetAbove graph (remaining.erase name) above other
termination_by remaining.classes.length
decreasing_by exact erase_size_lt (by assumption)

def commonClass (graph : ClassGraph) (a b : BinaryName) : BinaryName :=
  if graph.isSubclass a b then b
  else if graph.isSubclass b a then a
  else if graph.isInterface a || graph.isInterface b then .object
  else graph.meetAbove graph a b

def commonSuperclass (graph : ClassGraph) (a b : RefType) : RefType :=
  if graph.isAssignable a b then b
  else if graph.isAssignable b a then a
  else
    match a, b with
    | .object a, .object b => .object (graph.commonClass a b)
    | .objectArray extra a, .objectArray extra' b =>
      if extra = extra' then .objectArray extra (graph.commonClass a b) else .object .object
    | _, _ => .object .object

end ClassGraph

end ClassForge
