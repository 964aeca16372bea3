import ClassForge.Hierarchy
import Mathlib.Logic.Relation

namespace ClassForge

open Relation (ReflTransGen TransGen)

namespace ClassGraph

variable {graph : ClassGraph} {name above other a b c gone : BinaryName}

def Edge (graph : ClassGraph) (name above : BinaryName) : Prop :=
  ∃ data, graph.get? name = some data ∧ above ∈ data.supertypes

def Up (graph : ClassGraph) (name above : BinaryName) : Prop := graph.superclass name = some above

def Listed (graph : ClassGraph) (name : BinaryName) : Prop := ∃ below, name ∈ graph.interfaces below

/-- Hierarchies as programs have them: there are no cycles, the supertypes of all arrays are at the
top, interfaces have no superclass, and none of them is one. -/
structure Hierarchical (graph : ClassGraph) : Prop where
  acyclic : ∀ name, ¬TransGen graph.Edge name name
  object : ∀ above, ¬graph.Edge .object above
  cloneable : ∀ above, ¬graph.Edge .cloneable above
  serializable : ∀ above, ¬graph.Edge .serializable above
  interfaces : ∀ name, graph.Listed name ∨ graph.isInterface name = true →
    graph.superclass name = none
  apart : ∀ below name, graph.Up below name → ¬graph.Listed name

theorem edge_iff : graph.Edge name above ↔ graph.Up name above ∨ above ∈ graph.interfaces name := by
  unfold Edge Up superclass interfaces ClassData.supertypes
  cases graph.get? name <;> simp

theorem Up.edge (up : graph.Up name above) : graph.Edge name above := edge_iff.mpr (.inl up)

theorem get?_erase (graph : ClassGraph) (gone name : BinaryName) :
    (graph.erase gone).get? name = if name = gone then none else graph.get? name := by
  obtain ⟨classes⟩ := graph
  simp only [erase, get?]
  induction classes with
  | nil => simp
  | cons entry rest ih => grind

theorem edge_erase : (graph.erase gone).Edge name above ↔ name ≠ gone ∧ graph.Edge name above := by
  unfold Edge
  rw [get?_erase]
  split <;> simp_all

/-- A way up either avoids a name, or goes on from one of its supertypes without coming back. -/
theorem avoids_or_leaves {target : BinaryName} {data : ClassData}
    (known : graph.get? gone = some data) (path : ReflTransGen graph.Edge name target) :
    ReflTransGen (graph.erase gone).Edge name target ∨
      ∃ next ∈ data.supertypes, ReflTransGen (graph.erase gone).Edge next target := by
  induction path using ReflTransGen.head_induction_on with
  | refl => exact .inl .refl
  | @head first next edge _ ih =>
    rcases ih with rest | left
    · by_cases here : first = gone
      · obtain ⟨found, same, member⟩ := edge
        rw [here, known] at same
        cases same
        exact .inr ⟨next, member, rest⟩
      · exact .inl (.head (edge_erase.mpr ⟨here, edge⟩) rest)
    · exact .inr left

theorem reaches_iff (graph : ClassGraph) (target : BinaryName) (names : List BinaryName) :
    graph.reaches target names = true ↔ ∃ name ∈ names, ReflTransGen graph.Edge name target := by
  fun_induction reaches graph target names with
  | case1 => simp
  | case2 graph rest =>
    exact ⟨fun _ => ⟨target, .head _, .refl⟩, fun _ => rfl⟩
  | case3 graph name rest differ unknown ih =>
    rw [ih]
    refine ⟨fun ⟨start, member, path⟩ => ⟨start, List.mem_cons_of_mem _ member, path⟩, ?_⟩
    rintro ⟨start, member, path⟩
    rcases List.mem_cons.mp member with rfl | later
    · rcases path.cases_head with same | ⟨_, ⟨data, known, _⟩, _⟩
      · exact absurd same differ
      · rw [unknown] at known
        cases known
    · exact ⟨start, later, path⟩
  | case4 graph name rest differ data known ih =>
    rw [ih]
    constructor
    · rintro ⟨start, member, path⟩
      have whole : ReflTransGen graph.Edge start target :=
        ReflTransGen.mono (fun _ _ edge => (edge_erase.mp edge).2) _ _ path
      rcases List.mem_append.mp member with above | later
      · exact ⟨name, .head _, .head ⟨data, known, above⟩ whole⟩
      · exact ⟨start, List.mem_cons_of_mem _ later, whole⟩
    · rintro ⟨start, member, path⟩
      rcases avoids_or_leaves known path with avoiding | ⟨next, above, leaving⟩
      · rcases List.mem_cons.mp member with rfl | later
        · rcases avoiding.cases_head with same | ⟨_, edge, _⟩
          · exact absurd same differ
          · exact absurd rfl (edge_erase.mp edge).1
        · exact ⟨start, List.mem_append_right _ later, avoiding⟩
      · exact ⟨next, List.mem_append_left _ above, leaving⟩

theorem isSubclass_iff (graph : ClassGraph) (a b : BinaryName) :
    graph.isSubclass a b = true ↔ b = .object ∨ ReflTransGen graph.Edge a b := by
  simp [isSubclass, reaches_iff]

theorem isSubclass_object (graph : ClassGraph) (a : BinaryName) :
    graph.isSubclass a .object = true :=
  (isSubclass_iff graph a _).mpr (.inl rfl)

theorem isSubclass_refl (graph : ClassGraph) (a : BinaryName) : graph.isSubclass a a = true :=
  (isSubclass_iff graph a a).mpr (.inr .refl)

theorem eq_of_top (top : ∀ above, ¬graph.Edge name above) (path : ReflTransGen graph.Edge name above) :
    above = name := by
  rcases path.cases_head with same | ⟨next, edge, _⟩
  · exact same.symm
  · exact absurd edge (top next)

namespace Hierarchical

variable (formed : graph.Hierarchical)
include formed

theorem subclass_trans (first : graph.isSubclass a b = true) (second : graph.isSubclass b c = true) :
    graph.isSubclass a c = true := by
  rw [isSubclass_iff] at first second ⊢
  rcases second with top | later
  · exact .inl top
  · rcases first with rfl | path
    · exact .inl (eq_of_top formed.object later)
    · exact .inr (path.trans later)

theorem eq_of_cycle (path : ReflTransGen graph.Edge a b) (back : ReflTransGen graph.Edge b a) :
    a = b := by
  rcases Relation.reflTransGen_iff_eq_or_transGen.mp path with same | some
  · exact same.symm
  · exact absurd (some.trans_left back) (formed.acyclic a)

theorem subclass_antisymm (first : graph.isSubclass a b = true)
    (second : graph.isSubclass b a = true) : a = b := by
  rw [isSubclass_iff] at first second
  rcases first with rfl | path
  · rcases second with rfl | back
    · rfl
    · exact eq_of_top formed.object back
  · rcases second with rfl | back
    · exact (eq_of_top formed.object path).symm
    · exact formed.eq_of_cycle path back

end Hierarchical

def IsTop (name : BinaryName) : Prop := name = .object ∨ name = .cloneable ∨ name = .serializable

/-- Assignability of what is in the innermost arrays. -/
def CoreBelow (graph : ClassGraph) : BinaryName ⊕ BaseType → BinaryName ⊕ BaseType → Prop
  | .inl sub, .inl sup => graph.isSubclass sub sup = true
  | .inr element, .inr element' => element = element'
  | _, _ => False

end ClassGraph

namespace RefType

def core : RefType → BinaryName ⊕ BaseType
  | .object name | .objectArray _ name => .inl name
  | .primitiveArray _ element => .inr element

theorem eq_of_core {a b : RefType} (dims : a.dimensions = b.dimensions) (same : a.core = b.core) :
    a = b := by
  cases a <;> cases b <;> simp_all [dimensions, core]

end RefType

namespace ClassGraph

variable {graph : ClassGraph} {name above other a b c result : BinaryName}

/-- An array of more dimensions is assignable to an array of what all arrays are assignable to. -/
theorem isAssignable_iff (graph : ClassGraph) (a b : RefType) :
    graph.isAssignable a b = true ↔ a.dimensions = b.dimensions ∧ graph.CoreBelow a.core b.core ∨
      b.dimensions < a.dimensions ∧ ∃ top, b.core = .inl top ∧ IsTop top := by
  fun_induction isAssignable graph a b <;>
    simp_all [RefType.dimensions, RefType.core, CoreBelow, IsTop, or_assoc]

theorem isAssignable_refl (graph : ClassGraph) (a : RefType) : graph.isAssignable a a = true := by
  refine (isAssignable_iff graph a a).mpr (.inl ⟨rfl, ?_⟩)
  cases a.core with
  | inl name => exact isSubclass_refl graph name
  | inr element => rfl

theorem isAssignable_object (graph : ClassGraph) (a : RefType) :
    graph.isAssignable a (.object .object) = true := by
  cases a with
  | object name => exact (isAssignable_iff ..).mpr (.inl ⟨rfl, isSubclass_object graph name⟩)
  | objectArray | primitiveArray =>
    exact (isAssignable_iff ..).mpr (.inr ⟨Nat.succ_pos _, _, rfl, .inl rfl⟩)

/-- The loop that goes up from a class: it ends at the first superclass that the other class inherits
from, or at the root once there are no more. -/
inductive Climbs (graph : ClassGraph) (other : BinaryName) : BinaryName → BinaryName → Prop
  | top {name : BinaryName} : graph.superclass name = none → Climbs graph other name .object
  | found {name above : BinaryName} : graph.Up name above → graph.isSubclass other above = true →
      Climbs graph other name above
  | next {name above result : BinaryName} : graph.Up name above →
      graph.isSubclass other above = false → Climbs graph other above result →
      Climbs graph other name result

namespace Climbs

theorem bounds (climbs : Climbs graph other name result) :
    result = .object ∨ TransGen graph.Up name result ∧ graph.isSubclass other result = true := by
  induction climbs with
  | top => exact .inl rfl
  | found up inherits => exact .inr ⟨.single up, inherits⟩
  | next up _ _ ih => exact ih.imp_right fun ⟨path, inherits⟩ => ⟨.head up path, inherits⟩

theorem least {bound : BinaryName} (climbs : Climbs graph other name result)
    (path : TransGen graph.Up name bound) (inherits : graph.isSubclass other bound = true) :
    ReflTransGen graph.Edge result bound := by
  induction climbs with
  | top none =>
    obtain ⟨_, up, _⟩ := TransGen.head'_iff.mp path
    exact absurd (none.symm.trans up) nofun
  | found up _ =>
    obtain ⟨_, up', rest⟩ := TransGen.head'_iff.mp path
    cases Option.some.inj (up.symm.trans up')
    exact ReflTransGen.mono (fun _ _ => Up.edge) _ _ rest
  | next up apart _ ih =>
    obtain ⟨_, up', rest⟩ := TransGen.head'_iff.mp path
    cases Option.some.inj (up.symm.trans up')
    rcases Relation.reflTransGen_iff_eq_or_transGen.mp rest with rfl | more
    · rw [inherits] at apart
      cases apart
    · exact ih more

end Climbs

namespace Hierarchical

variable (formed : graph.Hierarchical)
include formed

theorem eq_or_eq_of_top {top : BinaryName} (isTop : IsTop top)
    (below : graph.isSubclass top above = true) : IsTop above := by
  rcases (isSubclass_iff ..).mp below with rfl | path
  · exact .inl rfl
  · rcases isTop with rfl | rfl | rfl
    · exact .inl (eq_of_top formed.object path)
    · exact .inr (.inl (eq_of_top formed.cloneable path))
    · exact .inr (.inr (eq_of_top formed.serializable path))

theorem assignable_trans {a b c : RefType} (first : graph.isAssignable a b = true)
    (second : graph.isAssignable b c = true) : graph.isAssignable a c = true := by
  rw [isAssignable_iff] at first second ⊢
  rcases second with ⟨dims, below⟩ | ⟨fewer, top⟩
  · rcases first with ⟨dims', below'⟩ | ⟨fewer, top, same, isTop⟩
    · refine .inl ⟨dims'.trans dims, ?_⟩
      revert below below'
      cases a.core <;> cases b.core <;> cases c.core <;> simp only [CoreBelow, false_implies, implies_true]
      · exact fun second first => formed.subclass_trans first second
      · exact fun second first => first.trans second
    · refine .inr ⟨dims ▸ fewer, ?_⟩
      rw [same] at below
      cases found : c.core with
      | inl above =>
        rw [found] at below
        exact ⟨above, rfl, formed.eq_or_eq_of_top isTop below⟩
      | inr element =>
        rw [found] at below
        exact below.elim
  · refine .inr ⟨?_, top⟩
    rcases first with ⟨dims, _⟩ | ⟨fewer', _⟩ <;> omega

theorem assignable_antisymm {a b : RefType} (first : graph.isAssignable a b = true)
    (second : graph.isAssignable b a = true) : a = b := by
  rw [isAssignable_iff] at first second
  rcases first with ⟨dims, below⟩ | ⟨fewer, _⟩
  · rcases second with ⟨_, back⟩ | ⟨fewer, _⟩
    · refine RefType.eq_of_core dims ?_
      revert below back
      cases a.core <;> cases b.core <;> simp only [CoreBelow, false_implies, implies_true]
      · exact fun below back => congrArg _ (formed.subclass_antisymm below back)
      · exact fun below _ => congrArg _ below
    · omega
  · rcases second with ⟨dims, _⟩ | ⟨fewer', _⟩ <;> omega

theorem up_of_edge (path : ReflTransGen graph.Edge a b) (class_ : ¬graph.Listed b) :
    ReflTransGen graph.Up a b := by
  induction path with
  | refl => exact .refl
  | @tail between last _ edge ih =>
    rcases edge_iff.mp edge with up | listed
    · refine .tail (ih fun listed => ?_) up
      exact absurd ((formed.interfaces between (.inl listed)).symm.trans up) nofun
    · exact absurd ⟨between, listed⟩ class_

theorem up_of_subclass (below : graph.isSubclass a b = true) (class_ : ¬graph.Listed b)
    (differ : a ≠ b) : b = .object ∨ TransGen graph.Up a b := by
  refine ((isSubclass_iff ..).mp below).imp_right fun path => ?_
  rcases Relation.reflTransGen_iff_eq_or_transGen.mp (formed.up_of_edge path class_) with same | some
  · exact absurd same.symm differ
  · exact some

theorem climbs_remaining {remaining : ClassGraph}
    (left : ∀ above, ReflTransGen graph.Edge name above → remaining.get? above = graph.get? above) :
    Climbs graph other name (graph.meetAbove remaining name other) := by
  have here := left name .refl
  fun_induction meetAbove graph remaining name other with
  | case1 remaining name unknown =>
    exact .top (by rw [superclass, ← here, unknown]; rfl)
  | case2 remaining name data known none =>
    exact .top (by rw [superclass, ← here, known]; exact none)
  | case3 remaining name data known above up inherits =>
    exact .found (by rw [Up, superclass, ← here, known]; exact up) inherits
  | case4 remaining name data known above up apart ih =>
    have step : graph.Up name above := by rw [Up, superclass, ← here, known]; exact up
    have later : ∀ next, ReflTransGen graph.Edge above next →
        (remaining.erase name).get? next = graph.get? next := by
      intro next path
      have forward : next ≠ name := by
        rintro rfl
        exact formed.acyclic next (.head' step.edge path)
      rw [get?_erase, if_neg forward]
      exact left next (.head step.edge path)
    exact .next step (by simpa using apart) (ih later (later above .refl))

theorem climbs (name other : BinaryName) :
    Climbs graph other name (graph.meetAbove graph name other) :=
  formed.climbs_remaining fun _ _ => rfl

/-- A common superclass that the loop finds is below every one that is not listed as an interface. -/
theorem meet_least (apart : graph.isSubclass b a = false) (first : graph.isSubclass a c = true)
    (second : graph.isSubclass b c = true) (class_ : c = .object ∨ ¬graph.Listed c) :
    graph.isSubclass (graph.meetAbove graph a b) c = true := by
  by_cases top : c = .object
  · exact top ▸ isSubclass_object ..
  have differ : a ≠ c := by
    rintro rfl
    rw [second] at apart
    cases apart
  have path := (formed.up_of_subclass first (class_.resolve_left top) differ).resolve_left top
  exact (isSubclass_iff ..).mpr (.inr ((formed.climbs a b).least path second))

theorem meet_bounds (a b : BinaryName) : graph.isSubclass a (graph.meetAbove graph a b) = true ∧
    graph.isSubclass b (graph.meetAbove graph a b) = true := by
  rcases (formed.climbs a b).bounds with top | ⟨path, inherits⟩
  · rw [top]
    exact ⟨isSubclass_object .., isSubclass_object ..⟩
  · exact ⟨(isSubclass_iff ..).mpr
      (.inr (ReflTransGen.mono (fun _ _ => Up.edge) _ _ path.to_reflTransGen)), inherits⟩

theorem meet_class (a b : BinaryName) :
    graph.meetAbove graph a b = .object ∨ ¬graph.Listed (graph.meetAbove graph a b) := by
  refine (formed.climbs a b).bounds.imp_right fun ⟨path, _⟩ => ?_
  obtain ⟨below, _, up⟩ := TransGen.tail'_iff.mp path
  exact formed.apart below _ up

theorem meet_comm (apart : graph.isSubclass a b = false) (apart' : graph.isSubclass b a = false) :
    graph.meetAbove graph a b = graph.meetAbove graph b a := by
  obtain ⟨first, second⟩ := formed.meet_bounds a b
  obtain ⟨second', first'⟩ := formed.meet_bounds b a
  exact formed.subclass_antisymm (formed.meet_least apart' first' second' (formed.meet_class b a))
    (formed.meet_least apart second first (formed.meet_class a b))

theorem commonClass_bounds (a b : BinaryName) : graph.isSubclass a (graph.commonClass a b) = true ∧
    graph.isSubclass b (graph.commonClass a b) = true := by
  unfold commonClass
  split
  · next below => exact ⟨below, isSubclass_refl ..⟩
  · split
    · next below => exact ⟨isSubclass_refl .., below⟩
    · split
      · exact ⟨isSubclass_object .., isSubclass_object ..⟩
      · exact formed.meet_bounds a b

theorem commonClass_comm (a b : BinaryName) : graph.commonClass a b = graph.commonClass b a := by
  unfold commonClass
  cases first : graph.isSubclass a b <;> cases second : graph.isSubclass b a
  · simp only [Bool.or_comm (graph.isInterface a), Bool.false_eq_true, if_false]
    rw [formed.meet_comm first second]
  · rfl
  · rfl
  · exact (formed.subclass_antisymm first second).symm

/-- The common superclass of two classes is below every common superclass that is no interface. -/
theorem commonClass_least (first : graph.isSubclass a c = true) (second : graph.isSubclass b c = true)
    (unlisted : ¬graph.Listed c) (plain : graph.isInterface c = false) :
    graph.isSubclass (graph.commonClass a b) c = true := by
  unfold commonClass
  split
  · exact second
  · split
    · exact first
    · next apart =>
      split
      · next flagged =>
        -- An interface has no superclass, so the only class above it is the root.
        have alone {name : BinaryName} (below : graph.isSubclass name c = true)
            (flag : graph.isInterface name = true) : c = .object := by
          refine (formed.up_of_subclass below unlisted ?_).resolve_right fun path => ?_
          · rintro rfl
            rw [flag] at plain
            cases plain
          · obtain ⟨_, up, _⟩ := TransGen.head'_iff.mp path
            exact absurd ((formed.interfaces name (.inr flag)).symm.trans up) nofun
        rcases Bool.or_eq_true_iff.mp flagged with flag | flag
        · rw [alone first flag]
          exact isSubclass_object ..
        · rw [alone second flag]
          exact isSubclass_object ..
      · exact formed.meet_least (by simpa using apart) first second (.inr unlisted)

theorem commonSuperclass_bounds (a b : RefType) :
    graph.isAssignable a (graph.commonSuperclass a b) = true ∧
      graph.isAssignable b (graph.commonSuperclass a b) = true := by
  have top : graph.isAssignable a (.object .object) = true ∧
      graph.isAssignable b (.object .object) = true :=
    ⟨isAssignable_object .., isAssignable_object ..⟩
  unfold commonSuperclass
  split
  · next below => exact ⟨below, isAssignable_refl ..⟩
  · split
    · next below => exact ⟨isAssignable_refl .., below⟩
    · split
      · next name other _ _ =>
        obtain ⟨first, second⟩ := formed.commonClass_bounds name other
        simp only [isAssignable_iff]
        exact ⟨.inl ⟨rfl, first⟩, .inl ⟨rfl, second⟩⟩
      · next extra name extra' other _ _ =>
        split
        · next same =>
          obtain ⟨first, second⟩ := formed.commonClass_bounds name other
          simp only [isAssignable_iff]
          exact ⟨.inl ⟨rfl, first⟩, .inl ⟨by simp [RefType.dimensions, same], second⟩⟩
        · exact top
      · exact top

theorem commonSuperclass_comm (a b : RefType) :
    graph.commonSuperclass a b = graph.commonSuperclass b a := by
  unfold commonSuperclass
  cases first : graph.isAssignable a b <;> cases second : graph.isAssignable b a
  · simp only [Bool.false_eq_true, if_false]
    split
    · next name other => rw [formed.commonClass_comm name other]
    · next extra name extra' other =>
      by_cases same : extra = extra'
      · rw [if_pos same, if_pos same.symm, formed.commonClass_comm name other, same]
      · rw [if_neg same, if_neg (Ne.symm same)]
    · next unlike unlike' =>
      split
      · exact absurd rfl (unlike _ _ rfl)
      · exact absurd rfl (unlike' _ _ _ _ rfl)
      · rfl
  · rfl
  · rfl
  · exact (formed.assignable_antisymm first second).symm

end Hierarchical

/-- Whatever a class graph looks like, the subclasses of a class are those from which it can be
reached, and all classes for the root. On a hierarchy assignability is reflexive and transitive; the
loop for common superclasses ends, and what it gives does not depend on the order of the types, is
above both of them, and for two classes is below all that are above both and are no interfaces. -/
theorem assignability_semilattice :
    (∀ (graph : ClassGraph) (a b : BinaryName),
      graph.isSubclass a b = true ↔ b = .object ∨ ReflTransGen graph.Edge a b) ∧
    ∀ graph : ClassGraph, graph.Hierarchical →
      (∀ a, graph.isAssignable a a = true) ∧
      (∀ a b c, graph.isAssignable a b = true → graph.isAssignable b c = true →
        graph.isAssignable a c = true) ∧
      (∀ a b, Climbs graph b a (graph.meetAbove graph a b)) ∧
      (∀ a b, graph.commonSuperclass a b = graph.commonSuperclass b a) ∧
      (∀ a b, graph.isAssignable a (graph.commonSuperclass a b) = true ∧
        graph.isAssignable b (graph.commonSuperclass a b) = true) ∧
      ∀ a b c, graph.isAssignable (.object a) (.object c) = true →
        graph.isAssignable (.object b) (.object c) = true → ¬graph.Listed c →
        graph.isInterface c = false →
        graph.isAssignable (graph.commonSuperclass (.object a) (.object b)) (.object c) = true := by
  refine ⟨isSubclass_iff, fun graph formed => ⟨isAssignable_refl graph,
    fun a b c => formed.assignable_trans, formed.climbs, formed.commonSuperclass_comm,
    formed.commonSuperclass_bounds, fun a b c first second unlisted plain => ?_⟩⟩
  simp only [isAssignable] at first second
  have same : graph.commonSuperclass (.object a) (.object b) = .object (graph.commonClass a b) := by
    unfold commonSuperclass commonClass
    simp only [isAssignable]
    split
    · rfl
    · split <;> rfl
  rw [same]
  simpa only [isAssignable] using formed.commonClass_least first second unlisted plain

def pets : ClassGraph :=
  ⟨[(⟨"Dog"⟩, .ofClass ⟨"Animal"⟩ [⟨"Pet"⟩]), (⟨"Cat"⟩, .ofClass ⟨"Animal"⟩ [⟨"Pet"⟩])]⟩

theorem get?_pets {data : ClassData} (known : pets.get? name = some data) :
    data = .ofClass ⟨"Animal"⟩ [⟨"Pet"⟩] := by
  obtain ⟨before, after, split, _⟩ := List.lookup_eq_some_iff.mp known
  have member : (name, data) ∈ pets.classes := split ▸ List.mem_append_right _ (.head _)
  simp only [pets, List.mem_cons, Prod.mk.injEq, List.not_mem_nil, or_false] at member
  exact member.elim And.right And.right

theorem pets_hierarchical : pets.Hierarchical := by
  have unknown {name above : BinaryName} (none : pets.get? name = none) : ¬pets.Edge name above :=
    fun ⟨_, known, _⟩ => nomatch none.symm.trans known
  have target {name above : BinaryName} (edge : pets.Edge name above) :
      above = ⟨"Animal"⟩ ∨ above = ⟨"Pet"⟩ := by
    obtain ⟨data, known, member⟩ := edge
    cases get?_pets known
    simpa [ClassData.ofClass, ClassData.supertypes] using member
  have listed {name : BinaryName} (listed : pets.Listed name) : name = ⟨"Pet"⟩ := by
    obtain ⟨below, member⟩ := listed
    unfold interfaces at member
    cases known : pets.get? below with
    | none => simp [known] at member
    | some data =>
      cases get?_pets known
      simpa [known, ClassData.ofClass] using member
  refine ⟨fun name cycle => ?_, fun _ => unknown rfl, fun _ => unknown rfl, fun _ => unknown rfl,
    fun name which => ?_, fun below name up which => ?_⟩
  · obtain ⟨_, _, last⟩ := TransGen.tail'_iff.mp cycle
    obtain ⟨_, first, _⟩ := TransGen.head'_iff.mp cycle
    rcases target last with rfl | rfl
    · exact unknown rfl first
    · exact unknown rfl first
  · rcases which with which | flag
    · cases listed which
      rfl
    · unfold isInterface at flag
      cases known : pets.get? name with
      | none => simp [known] at flag
      | some data =>
        cases get?_pets known
        simp [known, ClassData.ofClass] at flag
  · cases listed which
    unfold Up superclass at up
    cases known : pets.get? below with
    | none => simp [known] at up
    | some data =>
      cases get?_pets known
      simp [known, ClassData.ofClass] at up

theorem assignability_semilattice_pets : pets.Hierarchical ∧
    pets.isAssignable (pets.commonSuperclass (.object ⟨"Dog"⟩) (.object ⟨"Cat"⟩))
      (.object ⟨"Animal"⟩) = true := by
  have animal {name : BinaryName} (up : pets.Up name ⟨"Animal"⟩) :
      pets.isAssignable (.object name) (.object ⟨"Animal"⟩) = true := by
    rw [isAssignable]
    exact (assignability_semilattice.1 ..).mpr (.inr (.single up.edge))
  refine ⟨pets_hierarchical, ?_⟩
  obtain ⟨_, _, _, _, _, least⟩ := assignability_semilattice.2 pets pets_hierarchical
  refine least _ _ _ (animal rfl) (animal rfl) (pets_hierarchical.apart ⟨"Dog"⟩ _ rfl) rfl

end ClassGraph

end ClassForge
