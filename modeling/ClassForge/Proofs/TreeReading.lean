import ClassForge.Proofs.TreeCoding

namespace ClassForge

variable {j : Json} {tag key : String} {name : UnqualifiedName} {type : FieldType}

namespace Leaf

variable {α : Type} {leaf : Leaf} {leaves others : List Leaf} {items : List α}

def AllValid (leaves : List Leaf) : Prop := ∀ leaf ∈ leaves, leaf.Valid

namespace AllValid

theorem nil : AllValid [] := nofun

theorem cons (first : leaf.Valid) (rest : AllValid leaves) : AllValid (leaf :: leaves) :=
  List.forall_mem_cons.mpr ⟨first, rest⟩

theorem append (first : AllValid leaves) (second : AllValid others) : AllValid (leaves ++ others) :=
  List.forall_mem_append.mpr ⟨first, second⟩

theorem map {leaf : α → Leaf} (each : ∀ item ∈ items, (leaf item).Valid) :
    AllValid (items.map leaf) :=
  List.forall_mem_map.mpr each

theorem flatMap {leaves : α → List Leaf} (each : ∀ item ∈ items, AllValid (leaves item)) :
    AllValid (items.flatMap leaves) :=
  List.forall_mem_flatMap.mpr each

/-- Lists of trees have their leaves collected one after another. -/
theorem list {each : α → List Leaf} {all : List α → List Leaf} (none : all [] = [])
    (more : ∀ item items, all (item :: items) = each item ++ all items)
    (valid : ∀ item ∈ items, AllValid (each item)) : AllValid (all items) := by
  induction items with
  | nil => exact none ▸ nil
  | cons item items ih =>
    rw [List.forall_mem_cons] at valid
    exact more item items ▸ append valid.1 (ih valid.2)

theorem constants (values : List Literal) : AllValid (values.map .constant) :=
  .map fun _ _ => trivial

end AllValid

end Leaf

open Leaf (AllValid)

namespace Json

theorem bind_some {α β : Type} {x : Option α} {f : α → Option β} {y : β} :
    (x >>= f) = some y ↔ ∃ a, x = some a ∧ f a = some y :=
  Option.bind_eq_some_iff

theorem pure_some {α : Type} {x y : α} : (pure x : Option α) = some y ↔ x = y := by
  simp

variable {α : Type} {good : α → Prop} {read : Json → Option α} {items : List α}
  (checks : ∀ (v : j.Below) a, read v.val = some a → good a)
include checks

theorem good_required {a : α} (ok : j.required key (fun v => read v.val) = some a) : good a := by
  obtain ⟨v, found⟩ := of_required ok
  exact checks v a found

theorem good_optional {x : Option α} (ok : j.optional key (fun v => read v.val) = some x) :
    ∀ a ∈ x.toList, good a := by
  intro a member
  obtain ⟨v, found⟩ := of_optional ok a (Option.mem_toList.mp member)
  exact checks v a found

theorem good_list (ok : j.listOf (fun v => read v.val) = some items) : ∀ a ∈ items, good a := by
  intro a member
  obtain ⟨v, found⟩ := of_listOf ok a member
  exact checks v a found

theorem good_within (v : j.Below) (items : List α)
    (ok : v.val.listOf (fun w => read w.val) = some items) : ∀ a ∈ items, good a :=
  good_list (fun w => checks ⟨w, w.property.trans v.property⟩) ok

theorem good_defaultList
    (ok : j.withDefault key [] (fun v => v.val.listOf fun w => read w.val) = some items) :
    ∀ a ∈ items, good a := by
  rcases of_withDefault ok with rfl | ⟨v, found⟩
  · nofun
  · exact good_within checks v items found

end Json

section Parts

variable {kind : Declared} {access : AccessFlags kind}

theorem UnqualifiedName.valid_of_ofJson? (read : ofJson? j = some name) : name.Valid :=
  (ofJson?_iff.mp read).1

theorem BinaryName.valid_of_ofJson? {name : BinaryName} (read : ofJson? j = some name) : name.Valid :=
  (ofJson?_iff.mp read).1

theorem FieldType.valid_of_ofJson? (read : ofJson? j = some type) : type.Valid :=
  (ofJson?_iff.mp read).1

theorem AccessFlags.known_of_ofJson? (read : ofJson? kind j = some access) : access.Known := by
  obtain ⟨n, -, found⟩ := Option.bind_eq_some_iff.mp read
  rw [ofBits?] at found
  split at found
  · next known =>
    cases found
    exact known
  · cases found

theorem AccessFlags.Known.none (kind : Declared) : (none : AccessFlags kind).Known := by
  cases kind <;> rfl

theorem AccessFlags.Known.super : (⟨superBit⟩ : AccessFlags .ofClass).Known := rfl

theorem Leaf.Valid.flags {fallback : AccessFlags kind} (known : fallback.Known)
    (read : j.withDefault key fallback (fun v => AccessFlags.ofJson? kind v.val) = some access) :
    (Leaf.flags access).Valid := by
  rcases Json.of_withDefault read with rfl | ⟨v, found⟩
  · exact known
  · exact AccessFlags.known_of_ofJson? found

theorem Leaf.Valid.member
    (read : j.required key (fun v => UnqualifiedName.ofJson? v.val) = some name) :
    (Leaf.member name).Valid :=
  Json.good_required (fun _ _ => UnqualifiedName.valid_of_ofJson?) read

theorem Leaf.Valid.owner {name : BinaryName}
    (read : j.required key (fun v => BinaryName.ofJson? v.val) = some name) :
    (Leaf.owner name).Valid :=
  Json.good_required (fun _ _ => BinaryName.valid_of_ofJson?) read

theorem Leaf.Valid.fieldType (read : j.required key (fun v => FieldType.ofJson? v.val) = some type) :
    (Leaf.fieldType type).Valid :=
  Json.good_required (fun _ _ => FieldType.valid_of_ofJson?) read

theorem Leaf.AllValid.types {type : Option FieldType}
    (read : j.optional key (fun v => FieldType.ofJson? v.val) = some type) :
    AllValid (type.toList.map .fieldType) :=
  .map (Json.good_optional (fun _ _ => FieldType.valid_of_ofJson?) read)

theorem Leaf.AllValid.classes {name : Option BinaryName}
    (read : j.optional key (fun v => BinaryName.ofJson? v.val) = some name) :
    AllValid (name.toList.map .owner) :=
  .map (Json.good_optional (fun _ _ => BinaryName.valid_of_ofJson?) read)

theorem Leaf.AllValid.names {names : List BinaryName}
    (read : j.withDefault key [] (fun v => v.val.listOf fun w => BinaryName.ofJson? w.val) =
      some names) : AllValid (names.map .owner) :=
  .map (Json.good_defaultList (fun _ _ => BinaryName.valid_of_ofJson?) read)

theorem FieldRef.valid_of_ofJson? {ref : FieldRef} (read : ofJson? j = some ref) :
    AllValid ref.allLeaves := by
  simp only [ofJson?, Json.bind_some, Json.pure_some] at read
  obtain ⟨owner, first, name, second, type, third, _, _, rfl⟩ := read
  exact .cons (.owner first) (.cons (.member second) (.cons (.fieldType third) .nil))

theorem MethodRef.valid_of_ofJson? {ref : MethodRef} (read : ofJson? j = some ref) :
    AllValid ref.allLeaves := by
  simp only [ofJson?, Json.bind_some, Json.pure_some] at read
  obtain ⟨owner, first, name, second, descriptor, third, _, _, _, _, _, _, rfl⟩ := read
  obtain ⟨v, found⟩ := Json.of_required third
  exact .cons (.owner first) (.cons (.member second)
    (.cons (MethodDescriptor.ofJson?_iff.mp found).1 .nil))

theorem Nesting.valid_of_ofJson? {nesting : Nesting} (read : ofJson? j = some nesting) :
    AllValid nesting.allLeaves := by
  simp only [ofJson?, Json.bind_some, Json.pure_some] at read
  obtain ⟨outer, first, name, second, access, third, rfl⟩ := read
  exact .cons (.owner first) (.cons (.flags (.none _) third)
    (.map (Json.good_optional (fun _ _ => UnqualifiedName.valid_of_ofJson?) second)))

theorem VarDecl.valid_of_ofJson? {var : VarDecl} (read : ofJson? j = some var) :
    AllValid var.allLeaves := by
  simp only [ofJson?, Json.bind_some, Json.pure_some] at read
  obtain ⟨_, _, name, first, type, second, _, _, constant, _, rfl⟩ := read
  exact .cons (.member first) (.cons (.fieldType second) (.constants _))

end Parts

section Expressions

def Expr.ValidBelow (j : Json) : Prop :=
  ∀ (v : j.Below) e, Expr.ofJson? v = some e → AllValid e.allLeaves

theorem Expr.ValidBelow.descend (below : Expr.ValidBelow j) (v : j.Below) :
    Expr.ValidBelow v.val :=
  fun w => below ⟨w, w.property.trans v.property⟩

theorem Receiver.valid_of_ofJson? (below : Expr.ValidBelow j) {receiver : Receiver}
    (read : ofJson? j = some receiver) : AllValid receiver.allLeaves := by
  rw [ofJson?] at read
  split at read
  · next v within _ =>
    obtain ⟨e, found, rfl⟩ := Option.map_eq_some_iff.mp read
    exact below ⟨v, within⟩ e found
  · obtain ⟨word, _, named⟩ := Option.bind_eq_some_iff.mp read
    split at named <;> cases named <;> exact .nil

section Below

variable (below : Expr.ValidBelow j)
include below

theorem Expr.ValidBelow.defaultList {es : List Expr}
    (read : j.withDefault key [] (fun v => v.val.listOf fun w => Expr.ofJson? w.val) = some es) :
    AllValid (Expr.listLeaves es) :=
  .list rfl (fun _ _ => rfl) (Json.good_defaultList below read)

theorem Expr.ValidBelow.optionalList {es : Option (List Expr)}
    (read : j.optional key (fun v => v.val.listOf fun w => Expr.ofJson? w.val) = some es) :
    AllValid (Expr.optionalListLeaves es) := by
  cases es with
  | none => exact .nil
  | some es =>
    obtain ⟨v, found⟩ := Json.of_optional read es rfl
    exact .list rfl (fun _ _ => rfl) (Json.good_within below v es found)

theorem Expr.ValidBelow.receiver {receiver : Receiver}
    (read : j.withDefault key .implicit (fun v => Receiver.ofJson? v.val) = some receiver) :
    AllValid receiver.allLeaves := by
  rcases Json.of_withDefault read with rfl | ⟨v, found⟩
  · exact .nil
  · exact Receiver.valid_of_ofJson? (below.descend v) found

theorem ExprKind.valid_of_ofJson? {kind : ExprKind} (read : ofJson? j tag = some kind) :
    AllValid kind.allLeaves := by
  have required {key : String} {e : Expr} := @Json.good_required j key _ _ _ below e
  unfold ofJson? at read
  dsimp only at read
  split at read
  all_goals simp only [Json.bind_some, Json.pure_some, Option.some.injEq, reduceCtorEq] at read
  · obtain ⟨value, _, rfl⟩ := read
    exact .constants [value]
  · cases read
    exact .nil
  · obtain ⟨id, _, rfl⟩ := read
    exact .nil
  · cases read
    exact .nil
  · obtain ⟨receiver, first, ref, second, rfl⟩ := read
    exact .append (below.receiver first)
      (Json.good_required (fun _ _ => FieldRef.valid_of_ofJson?) second)
  · obtain ⟨receiver, first, ref, second, args, third, rfl⟩ := read
    exact .append (.append (below.receiver first)
      (Json.good_required (fun _ _ => MethodRef.valid_of_ofJson?) second)) (below.defaultList third)
  · obtain ⟨ref, first, args, second, rfl⟩ := read
    exact .append (Json.good_required (fun _ _ => MethodRef.valid_of_ofJson?) first)
      (below.defaultList second)
  · obtain ⟨dims, first, elems, second, rfl⟩ := read
    exact .append (below.defaultList first) (below.optionalList second)
  · obtain ⟨array, first, rfl⟩ := read
    exact required first
  · obtain ⟨left, first, right, second, rfl⟩ := read
    exact .append (required first) (required second)
  · obtain ⟨left, first, right, second, rfl⟩ := read
    exact .append (required first) (required second)
  · obtain ⟨op, _, left, first, right, second, rfl⟩ := read
    exact .append (required first) (required second)
  · obtain ⟨op, _, inner, first, rfl⟩ := read
    exact required first
  · obtain ⟨op, _, left, first, right, second, rfl⟩ := read
    exact .append (required first) (required second)
  · obtain ⟨cond, first, yes, second, no, third, rfl⟩ := read
    exact .append (.append (required first) (required second)) (required third)
  · obtain ⟨inner, first, rfl⟩ := read
    exact required first
  · obtain ⟨inner, first, type, second, rfl⟩ := read
    obtain ⟨v, found⟩ := Json.of_required second
    exact .cons (RefType.ofJson?_iff.mp found).1 (required first)
  · obtain ⟨type, first, rfl⟩ := read
    exact .types first

end Below

theorem Expr.valid_of_ofJson? (j : Json) {e : Expr} (read : ofJson? j = some e) :
    AllValid e.allLeaves := by
  simp only [ofJson?, Json.bind_some, Json.pure_some] at read
  obtain ⟨type, first, constant, _, tag, _, kind, second, rfl⟩ := read
  have below : Expr.ValidBelow j := fun ⟨v, smaller⟩ e found => Expr.valid_of_ofJson? v found
  exact .append (.append (.types first) (.constants _)) (ExprKind.valid_of_ofJson? below second)
termination_by sizeOf j

end Expressions

section Statements

theorem Expr.valid_required {e : Expr}
    (read : j.required key (fun v => Expr.ofJson? v.val) = some e) : AllValid e.allLeaves :=
  Json.good_required (fun v _ => Expr.valid_of_ofJson? v) read

theorem Expr.valid_optional {e : Option Expr}
    (read : j.optional key (fun v => Expr.ofJson? v.val) = some e) :
    AllValid (e.toList.flatMap Expr.allLeaves) :=
  .flatMap (Json.good_optional (fun v _ => Expr.valid_of_ofJson? v) read)

def Stmt.ValidBelow (j : Json) : Prop :=
  ∀ (v : j.Below) s, Stmt.ofJson? v = some s → AllValid s.allLeaves

section Below

variable (below : Stmt.ValidBelow j)
include below

theorem Stmt.ValidBelow.descend (v : j.Below) : Stmt.ValidBelow v.val :=
  fun w => below ⟨w, w.property.trans v.property⟩

theorem Stmt.ValidBelow.optional {s : Option Stmt}
    (read : j.optional key (fun v => Stmt.ofJson? v.val) = some s) :
    AllValid (Stmt.optionLeaves s) := by
  cases s with
  | none => exact .nil
  | some s => exact Json.good_optional below read s (.head _)

theorem Stmt.ValidBelow.defaultList {stmts : List Stmt}
    (read : j.withDefault key [] (fun v => v.val.listOf fun w => Stmt.ofJson? w.val) = some stmts) :
    AllValid (Stmt.listLeaves stmts) :=
  .list rfl (fun _ _ => rfl) (Json.good_defaultList below read)

theorem Case.valid_of_ofJson? {c : Case} (read : ofJson? j = some c) : AllValid c.allLeaves := by
  simp only [ofJson?, Json.bind_some, Json.pure_some] at read
  obtain ⟨_, _, _, _, _, _, body, inside, rfl⟩ := read
  exact below.defaultList inside

theorem Catch.valid_of_ofJson? {c : Catch} (read : ofJson? j = some c) : AllValid c.allLeaves := by
  simp only [ofJson?, Json.bind_some, Json.pure_some] at read
  obtain ⟨types, first, param, second, body, third, rfl⟩ := read
  obtain ⟨v, named⟩ := Json.of_required first
  exact .append (.append (.map (Json.good_list (fun _ _ => BinaryName.valid_of_ofJson?) named))
    (Json.good_required (fun _ _ => VarDecl.valid_of_ofJson?) second)) (Json.good_required below third)

theorem StmtKind.valid_of_ofJson? {kind : StmtKind} (read : ofJson? j tag = some kind) :
    AllValid kind.allLeaves := by
  have required {key : String} {s : Stmt} := @Json.good_required j key _ _ _ below s
  unfold ofJson? at read
  dsimp only at read
  split at read
  all_goals simp only [Json.bind_some, Json.pure_some, Option.some.injEq, reduceCtorEq] at read
  · cases read
    exact .nil
  · obtain ⟨stmts, first, rfl⟩ := read
    obtain ⟨v, found⟩ := Json.of_required first
    exact .list rfl (fun _ _ => rfl) (Json.good_within below v stmts found)
  · obtain ⟨var, first, init, second, rfl⟩ := read
    exact .append (Json.good_required (fun _ _ => VarDecl.valid_of_ofJson?) first)
      (Expr.valid_optional second)
  · obtain ⟨value, first, rfl⟩ := read
    exact Expr.valid_required first
  · obtain ⟨cond, first, yes, second, no, third, rfl⟩ := read
    exact .append (.append (Expr.valid_required first) (required second)) (below.optional third)
  · obtain ⟨cond, first, body, second, rfl⟩ := read
    exact .append (Expr.valid_required first) (required second)
  · obtain ⟨body, first, cond, second, rfl⟩ := read
    exact .append (Expr.valid_required second) (required first)
  · obtain ⟨init, first, update, second, cond, third, body, fourth, rfl⟩ := read
    have steps := Json.good_defaultList (fun v _ => Expr.valid_of_ofJson? v) second
    exact .append (.append (.append (below.defaultList first) (Expr.valid_optional third))
      (.flatMap steps)) (required fourth)
  · obtain ⟨label, _, body, first, rfl⟩ := read
    exact required first
  · obtain ⟨selector, first, cases, second, rfl⟩ := read
    obtain ⟨v, found⟩ := Json.of_required second
    refine .append (Expr.valid_required first) (.list rfl (fun _ _ => rfl) ?_)
    exact Json.good_list (fun w _ => Case.valid_of_ofJson? ((below.descend v).descend w)) found
  · obtain ⟨label, _, rfl⟩ := read
    exact .nil
  · obtain ⟨label, _, rfl⟩ := read
    exact .nil
  · obtain ⟨value, first, rfl⟩ := read
    exact Expr.valid_optional first
  · obtain ⟨value, first, rfl⟩ := read
    exact Expr.valid_required first
  · obtain ⟨body, first, catches, second, finalizer, third, rfl⟩ := read
    have each := Json.good_defaultList (fun w _ => Catch.valid_of_ofJson? (below.descend w)) second
    exact .append (.append (required first) (.list rfl (fun _ _ => rfl) each))
      (below.optional third)
  · obtain ⟨lock, first, body, second, rfl⟩ := read
    exact .append (Expr.valid_required first) (required second)

end Below

theorem Stmt.valid_of_ofJson? (j : Json) {s : Stmt} (read : ofJson? j = some s) :
    AllValid s.allLeaves := by
  simp only [ofJson?, Json.bind_some, Json.pure_some] at read
  obtain ⟨line, _, tag, _, kind, found, rfl⟩ := read
  have below : Stmt.ValidBelow j := fun ⟨v, smaller⟩ s found => Stmt.valid_of_ofJson? v found
  exact StmtKind.valid_of_ofJson? below found
termination_by sizeOf j

end Statements

section Declarations

theorem Nesting.valid_optional {nesting : Option Nesting}
    (read : j.optional key (fun v => Nesting.ofJson? v.val) = some nesting) :
    AllValid (nesting.toList.flatMap Nesting.allLeaves) :=
  .flatMap (Json.good_optional (fun _ _ => Nesting.valid_of_ofJson?) read)

theorem ClassData.valid_of_ofJson? {data : ClassData} (read : ofJson? j = some data) :
    AllValid data.allLeaves := by
  simp only [ofJson?, Json.bind_some, Json.pure_some] at read
  obtain ⟨_, _, superclass, first, interfaces, second, _, _, nesting, third, rfl⟩ := read
  exact .append (.append (.classes first) (.names second)) (Nesting.valid_optional third)

theorem ClassData.valid_of_mapOfJson? {known : List (BinaryName × ClassData)}
    (read : mapOfJson? j = some known) :
    ∀ entry ∈ known, AllValid (.owner entry.1 :: entry.2.allLeaves) := by
  obtain ⟨fields, -, each⟩ := Option.bind_eq_some_iff.mp read
  intro entry member
  obtain ⟨⟨key, value⟩, made⟩ := Json.of_mapM each entry member
  simp only [Json.bind_some, Json.pure_some] at made
  obtain ⟨name, named, data, found, rfl⟩ := made
  have held : BinaryName.ofJson? (.string key) = some name := named
  exact .cons (BinaryName.valid_of_ofJson? held) (ClassData.valid_of_ofJson? found)

theorem FieldDecl.valid_of_ofJson? {decl : FieldDecl} (read : ofJson? j = some decl) :
    AllValid (Member.field decl).allLeaves := by
  simp only [ofJson?, Json.bind_some, Json.pure_some] at read
  obtain ⟨name, first, access, second, type, third, constant, _, init, fourth, _, _, rfl⟩ := read
  exact .cons (.member first) (.cons (.flags (.none _) second)
    (.cons (.fieldType third) (.append (.constants _) (Expr.valid_optional fourth))))

theorem MethodDecl.valid_of_ofJson? {decl : MethodDecl} (read : ofJson? j = some decl) :
    AllValid (Member.method decl).allLeaves := by
  simp only [ofJson?, Json.bind_some, Json.pure_some] at read
  obtain ⟨name, first, access, second, params, third, result, fourth, exceptions, fifth, body, sixth,
    _, _, rfl⟩ := read
  have vars := Json.good_defaultList (fun _ _ => VarDecl.valid_of_ofJson?) third
  have inside := Json.good_optional (fun v _ => Stmt.valid_of_ofJson? v) sixth
  exact .cons (.member first) (.cons (.flags (.none _) second)
    (.append (.append (.append (.flatMap vars) (.types fourth)) (.names fifth)) (.flatMap inside)))

theorem Member.valid_of_ofJson? {item : Member} (read : ofJson? j = some item) :
    AllValid item.allLeaves := by
  obtain ⟨tag, _, read⟩ := Option.bind_eq_some_iff.mp read
  split at read
  · obtain ⟨decl, found, rfl⟩ := Option.map_eq_some_iff.mp read
    exact FieldDecl.valid_of_ofJson? found
  · obtain ⟨decl, found, rfl⟩ := Option.map_eq_some_iff.mp read
    exact MethodDecl.valid_of_ofJson? found
  · obtain ⟨decl, found, rfl⟩ := Option.map_eq_some_iff.mp read
    simp only [Initializer.ofJson?, Json.bind_some, Json.pure_some] at found
    obtain ⟨_, _, body, inside, rfl⟩ := found
    exact Json.good_required (fun v _ => Stmt.valid_of_ofJson? v) inside
  · cases read

theorem ClassDecl.valid_of_ofJson? {decl : ClassDecl} (read : ofJson? j = some decl) :
    AllValid decl.allLeaves := by
  simp only [ofJson?, Json.bind_some, Json.pure_some] at read
  obtain ⟨name, first, access, second, superclass, third, interfaces, fourth, nesting, fifth, members,
    sixth, rfl⟩ := read
  have items := Json.good_defaultList (fun _ _ => Member.valid_of_ofJson?) sixth
  exact .cons (.owner first) (.cons (.flags .super second)
    (.append (.append (.append (.classes third) (.names fourth)) (Nesting.valid_optional fifth))
      (.flatMap items)))

end Declarations

namespace CompilationUnit

variable {unit : CompilationUnit}

def Valid (unit : CompilationUnit) : Prop := ∀ leaf ∈ unit.allLeaves, leaf.Valid

def Finite (unit : CompilationUnit) : Prop := ∀ leaf ∈ unit.allLeaves, leaf.Finite

instance (unit : CompilationUnit) : Decidable unit.Valid :=
  inferInstanceAs (Decidable (∀ leaf ∈ unit.allLeaves, leaf.Valid))

instance (unit : CompilationUnit) : Decidable unit.Finite :=
  inferInstanceAs (Decidable (∀ leaf ∈ unit.allLeaves, leaf.Finite))

theorem valid_of_ofJson? (read : ofJson? j = some unit) : unit.Valid := by
  simp only [ofJson?, Json.bind_some, Json.pure_some] at read
  obtain ⟨_, _, classes, first, known, second, rfl⟩ := read
  obtain ⟨v, found⟩ := Json.of_required first
  refine AllValid.append (.flatMap ?_) (.flatMap ?_)
  · exact Json.good_list (fun _ _ => ClassDecl.valid_of_ofJson?) found
  · rcases Json.of_withDefault second with rfl | ⟨w, found⟩
    · intro _ member
      cases member
    · exact ClassData.valid_of_mapOfJson? found

/-- A unit whose constants are finite comes back from what is written for it. What was read from any
value is such a unit if its constants are finite, so that writing it and reading it again changes
nothing. -/
theorem ofJson?_leftInverse_toJson :
    (∀ unit : CompilationUnit, unit.Valid → unit.Finite → ofJson? unit.toJson = some unit) ∧
    ∀ j unit, ofJson? j = some unit → unit.Finite →
      (ofJson? unit.toJson).map toJson = some unit.toJson := by
  have back (unit : CompilationUnit) (valid : unit.Valid) (finite : unit.Finite) :
      ofJson? unit.toJson = some unit :=
    ofJson?_toJson_of_writable fun leaf member => ⟨valid leaf member, finite leaf member⟩
  refine ⟨back, fun j unit read finite => ?_⟩
  rw [back unit (valid_of_ofJson? read) finite, Option.map_some]

/-- A method that returns the smallest positive number of single precision from a guarded block, next to a
field that is a tenth. -/
def guardedReturn : CompilationUnit :=
  let tenth : FieldDecl := ⟨⟨"tenth"⟩, ⟨AccessFlags.staticBit⟩, .base .double,
    some (.double 0x3FB999999999999A), none, none⟩
  let smallest : Expr := .mk (some (.base .float)) none (.literal (.float 1))
  let raised : VarDecl := ⟨0, ⟨"raised"⟩, .object .object, none, none⟩
  let again : Stmt := .mk none (.raise (.mk (some raised.type) none (.localVar 0)))
  let body : Stmt := .mk (some 1) (.guarded (.mk (some 2) (.ret (some smallest)))
    [.mk [.object] raised again] none)
  let method : MethodDecl := ⟨⟨"f"⟩, ⟨AccessFlags.staticBit⟩, [], some (.base .float), [], some body, none⟩
  ⟨none, [⟨.object, ⟨AccessFlags.superBit⟩, none, [], none, [.field tenth, .method method]⟩], []⟩

theorem ofJson?_leftInverse_toJson_guardedReturn :
    guardedReturn.Valid ∧ guardedReturn.Finite ∧
      ofJson? guardedReturn.toJson = some guardedReturn ∧
      (ofJson? guardedReturn.toJson).map toJson = some guardedReturn.toJson := by
  have valid : guardedReturn.Valid := by decide
  have finite : guardedReturn.Finite := by decide
  have back := ofJson?_leftInverse_toJson.1 guardedReturn valid finite
  exact ⟨valid, finite, back, ofJson?_leftInverse_toJson.2 _ _ back finite⟩

end CompilationUnit

end ClassForge
