import ClassForge.Proofs.DescriptorText
import ClassForge.Proofs.Inversion
import ClassForge.Proofs.SlotLayout
import Mathlib.Logic.Relation

namespace ClassForge

namespace Constant

def IsText : Constant → Prop
  | .utf8 _ => True
  | _ => False

def IsClass : Constant → Prop
  | .classRef _ => True
  | _ => False

def IsNameAndType : Constant → Prop
  | .nameAndType _ _ => True
  | _ => False

/-- The constant is neither a class, which is added with its type, nor too long a text. -/
def IsOrdinary : Constant → Prop
  | .utf8 text => ModifiedUtf8.length text ≤ maxTextLength
  | .classRef _ => False
  | _ => True

/-- All that the constant refers to is of the kind that it has to be, where `holds` says when the
constant at an index is of a kind. -/
def References (holds : (Constant → Prop) → UInt16 → Prop) : Constant → Prop
  | .classRef text | .string text => holds IsText text
  | .nameAndType name descriptor => holds IsText name ∧ holds IsText descriptor
  | .fieldRef owner member | .methodRef owner member _ =>
    holds IsClass owner ∧ holds IsNameAndType member
  | _ => True

theorem References.imp {holds implied : (Constant → Prop) → UInt16 → Prop} {constant : Constant}
    (references : constant.References holds)
    (more : ∀ kind index, holds kind index → implied kind index) : constant.References implied := by
  cases constant with
  | classRef | string => exact more _ _ references
  | nameAndType | fieldRef | methodRef => exact ⟨more _ _ references.1, more _ _ references.2⟩
  | _ => trivial

end Constant

/-- What a constant says when all that it refers to has been looked up. -/
inductive Content where
  | utf8 (text : String)
  | integer (value : Int32)
  | float (bits : UInt32)
  | long (value : Int64)
  | double (bits : UInt64)
  | string (text : String)
  | classRef (name : String)
  | field (owner name descriptor : String)
  | method (owner name descriptor : String) (ownerIsInterface : Bool)
  | nameAndType (name descriptor : String)
  deriving DecidableEq, Repr

namespace ConstantTable

variable (table : ConstantTable)

def text? (index : UInt16) : Option String :=
  match table.get? index.toNat with
  | some (.utf8 text) => some text
  | _ => none

def className? (index : UInt16) : Option String :=
  match table.get? index.toNat with
  | some (.classRef name) => text? table name
  | _ => none

def nameAndType? (index : UInt16) : Option (String × String) :=
  match table.get? index.toNat with
  | some (.nameAndType name descriptor) => do
    return (← text? table name, ← text? table descriptor)
  | _ => none

def content? (index : UInt16) : Option Content :=
  match table.get? index.toNat with
  | some (.utf8 text) => some (.utf8 text)
  | some (.integer value) => some (.integer value)
  | some (.float bits) => some (.float bits)
  | some (.long value) => some (.long value)
  | some (.double bits) => some (.double bits)
  | some (.string text) => do return .string (← text? table text)
  | some (.classRef name) => do return .classRef (← text? table name)
  | some (.fieldRef owner member) => do
    let owner ← className? table owner
    let (name, descriptor) ← nameAndType? table member
    return .field owner name descriptor
  | some (.methodRef owner member ownerIsInterface) => do
    let owner ← className? table owner
    let (name, descriptor) ← nameAndType? table member
    return .method owner name descriptor ownerIsInterface
  | some (.nameAndType name descriptor) => do
    return .nameAndType (← text? table name) (← text? table descriptor)
  | none => none

def Before (offset : Nat) (kind : Constant → Prop) (index : UInt16) : Prop :=
  index.toNat < offset ∧ ∃ constant, table.get? index.toNat = some constant ∧ kind constant

end ConstantTable

namespace PoolValue

def content : PoolValue → Content
  | .utf8 text => .utf8 text
  | .integer value => .integer value
  | .float bits => .float bits
  | .long value => .long value
  | .double bits => .double bits
  | .string text => .string text
  | .classRef type => .classRef type.constantName
  | .field ref => .field ref.owner.text ref.name.text ref.descriptor.render
  | .method ref => .method ref.owner.text ref.name.text ref.descriptor.render ref.ownerIsInterface
  | .nameAndType name descriptor => .nameAndType name descriptor

/-- The value without what only matters where it is used. -/
def plain : PoolValue → PoolValue
  | .field ref => .field { ref with isStatic := false }
  | .method ref => .method { ref with isStatic := false, isPrivate := false }
  | other => other

/-- The class names in the value can be told apart in descriptors. -/
def Clear : PoolValue → Prop
  | .classRef type => type.Clear
  | .field ref => ref.descriptor.Clear
  | .method ref => ref.descriptor.Clear
  | _ => True

theorem plain_eq_of_content {value other : PoolValue} (clear : value.Clear) (clear' : other.Clear)
    (same : value.content = other.content) : value.plain = other.plain := by
  cases value with
  | classRef type =>
    cases other with
    | classRef type' => cases RefType.constantName_inj clear clear' (Content.classRef.inj same); rfl
    | _ => simp only [content, reduceCtorEq] at same
  | field field =>
    cases other with
    | field field' =>
      obtain ⟨⟨owner⟩, ⟨name⟩, descriptor, static⟩ := field
      obtain ⟨⟨owner'⟩, ⟨name'⟩, descriptor', static'⟩ := field'
      obtain ⟨rfl, rfl, render⟩ := Content.field.inj same
      cases FieldType.render_inj clear clear' render
      rfl
    | _ => simp only [content, reduceCtorEq] at same
  | method method =>
    cases other with
    | method method' =>
      obtain ⟨⟨owner⟩, ⟨name⟩, descriptor, static, interface, secret⟩ := method
      obtain ⟨⟨owner'⟩, ⟨name'⟩, descriptor', static', interface', secret'⟩ := method'
      obtain ⟨rfl, rfl, render, rfl⟩ := Content.method.inj same
      cases MethodDescriptor.render_inj clear clear' render
      rfl
    | _ => simp only [content, reduceCtorEq] at same
  | _ => cases other <;> simp_all [content, plain]

end PoolValue

namespace Pool

variable {pool later last : Pool} {constant : Constant} {index : UInt16}
  {text descriptor name : String} {type : RefType} {value : PoolValue} {strict : Prop} {α β : Type}

def Extends (pool later : Pool) : Prop :=
  ∀ constant index, pool.indexOf? constant = some index → later.indexOf? constant = some index

theorem Extends.refl (pool : Pool) : pool.Extends pool := fun _ _ => id

theorem Extends.trans (first : pool.Extends later) (second : later.Extends last) :
    pool.Extends last :=
  fun constant index known => second constant index (first constant index known)

theorem indexOf?_push (pool : Pool) (constant other : Constant) :
    (pool.push constant).indexOf? other =
      if constant = other then some (UInt16.ofNat pool.constants.next) else pool.indexOf? other := by
  unfold indexOf? push
  rw [Std.HashMap.getElem?_insert]
  simp only [beq_iff_eq]

theorem extends_push (fresh : pool.indexOf? constant = none) : pool.Extends (pool.push constant) := by
  intro other found known
  rw [indexOf?_push, if_neg]
  · exact known
  · rintro rfl
    rw [fresh] at known
    cases known

section Lookups

theorem get?_string :
    pool.get? (.string text) = some index ↔ ∃ utf8, pool.indexOf? (.utf8 text) = some utf8 ∧
      pool.indexOf? (.string utf8) = some index :=
  Option.bind_eq_some_iff

theorem get?_classRef : pool.get? (.classRef type) = some index ↔
    ∃ name, pool.indexOf? (.utf8 type.constantName) = some name ∧
      pool.indexOf? (.classRef name) = some index :=
  Option.bind_eq_some_iff

theorem get?_nameAndType :
    pool.get? (.nameAndType name descriptor) = some index ↔
      ∃ named described, pool.indexOf? (.utf8 name) = some named ∧
        pool.indexOf? (.utf8 descriptor) = some described ∧
        pool.indexOf? (.nameAndType named described) = some index := by
  change (pool.indexOf? (.utf8 name)).bind (fun named =>
    (pool.indexOf? (.utf8 descriptor)).bind fun described =>
      pool.indexOf? (.nameAndType named described)) = _ ↔ _
  simp only [Option.bind_eq_some_iff, exists_and_left]

theorem get?_field {field : FieldRef} : pool.get? (.field field) = some index ↔
    ∃ owner member, pool.get? (.classRef (.object field.owner)) = some owner ∧
      pool.get? (.nameAndType field.name.text field.descriptor.render) = some member ∧
      pool.indexOf? (.fieldRef owner member) = some index := by
  change (pool.get? (.classRef (.object field.owner))).bind (fun owner =>
    (pool.get? (.nameAndType field.name.text field.descriptor.render)).bind fun member =>
      pool.indexOf? (.fieldRef owner member)) = _ ↔ _
  simp only [Option.bind_eq_some_iff, exists_and_left]

theorem get?_method {method : MethodRef} : pool.get? (.method method) = some index ↔
    ∃ owner member, pool.get? (.classRef (.object method.owner)) = some owner ∧
      pool.get? (.nameAndType method.name.text method.descriptor.render) = some member ∧
      pool.indexOf? (.methodRef owner member method.ownerIsInterface) = some index := by
  change (pool.get? (.classRef (.object method.owner))).bind (fun owner =>
    (pool.get? (.nameAndType method.name.text method.descriptor.render)).bind fun member =>
      pool.indexOf? (.methodRef owner member method.ownerIsInterface)) = _ ↔ _
  simp only [Option.bind_eq_some_iff, exists_and_left]

theorem get?_plain (pool : Pool) (value : PoolValue) : pool.get? value.plain = pool.get? value := by
  cases value <;> rfl

theorem Extends.get?_classRef (more : pool.Extends later)
    (known : pool.get? (.classRef type) = some index) :
    later.get? (.classRef type) = some index := by
  obtain ⟨name, named, found⟩ := Pool.get?_classRef.mp known
  exact Pool.get?_classRef.mpr ⟨name, more _ _ named, more _ _ found⟩

theorem Extends.get?_nameAndType (more : pool.Extends later)
    (known : pool.get? (.nameAndType name descriptor) = some index) :
    later.get? (.nameAndType name descriptor) = some index := by
  obtain ⟨named, described, first, second, found⟩ := Pool.get?_nameAndType.mp known
  exact Pool.get?_nameAndType.mpr
    ⟨named, described, more _ _ first, more _ _ second, more _ _ found⟩

theorem Extends.get? (more : pool.Extends later) (known : pool.get? value = some index) :
    later.get? value = some index := by
  cases value with
  | string =>
    obtain ⟨utf8, first, found⟩ := get?_string.mp known
    exact get?_string.mpr ⟨utf8, more _ _ first, more _ _ found⟩
  | classRef => exact more.get?_classRef known
  | nameAndType => exact more.get?_nameAndType known
  | field =>
    obtain ⟨owner, member, first, second, found⟩ := get?_field.mp known
    exact get?_field.mpr
      ⟨owner, member, more.get?_classRef first, more.get?_nameAndType second, more _ _ found⟩
  | method =>
    obtain ⟨owner, member, first, second, found⟩ := get?_method.mp known
    exact get?_method.mpr
      ⟨owner, member, more.get?_classRef first, more.get?_nameAndType second, more _ _ found⟩
  | _ => exact more _ _ known

end Lookups

def Has (pool : Pool) (kind : Constant → Prop) (index : UInt16) : Prop :=
  ∃ constant, pool.indexOf? constant = some index ∧ kind constant

/-- A new constant is added where there is room for it, one of a class together with the type. In
strict growth all that the constant refers to is there. -/
inductive Adds (strict : Prop) : Pool → Pool → Prop
  | push {pool : Pool} {constant : Constant} (fresh : pool.indexOf? constant = none)
      (room : pool.constants.next + constant.width ≤ maxPoolOffset) (ordinary : constant.IsOrdinary)
      (placed : strict → constant.References pool.Has) : Adds strict pool (pool.push constant)
  | note {pool : Pool} {type : RefType} {name : UInt16}
      (named : pool.get? (.utf8 type.constantName) = some name)
      (fresh : pool.indexOf? (.classRef name) = none)
      (room : pool.constants.next + (Constant.classRef name).width ≤ maxPoolOffset) :
      Adds strict pool { pool.push (.classRef name) with classes := pool.classes.push type }

abbrev Grows (strict : Prop) : Pool → Pool → Prop := Relation.ReflTransGen (Adds strict)

theorem Adds.extends (adds : Adds strict pool later) : pool.Extends later := by
  cases adds with
  | push fresh | note _ fresh => exact extends_push fresh

theorem Grows.extends (grows : Grows strict pool later) : pool.Extends later := by
  induction grows with
  | refl => exact .refl pool
  | tail _ adds ih => exact ih.trans adds.extends

/-- From the pool on the action only adds, whether it succeeds or not, and its answer is as the
predicate says. -/
structure Interns (strict : Prop) (pool : Pool) (action : PoolM α) (known : α → Pool → Prop) :
    Prop where
  ok : ∀ ⦃a later⦄, action pool = .ok a later → Grows strict pool later ∧ known a later
  error : ∀ ⦃e later⦄, action pool = .error e later → Grows strict pool later

section Actions

variable {known : α → Pool → Prop} {found : β → Pool → Prop} {x : PoolM α} {f : α → PoolM β}

theorem Interns.imp {fewer : α → Pool → Prop} (interns : Interns strict pool x known)
    (more : ∀ a later, Grows strict pool later → known a later → fewer a later) :
    Interns strict pool x fewer where
  ok a later run := by
    obtain ⟨grows, answer⟩ := interns.ok run
    exact ⟨grows, more a later grows answer⟩
  error := interns.error

theorem Interns.bind (first : Interns strict pool x known)
    (second : ∀ a later, Grows strict pool later → known a later → Interns strict later (f a) found) :
    Interns strict pool (x >>= f) found := by
  constructor
  · intro b last run
    obtain ⟨a, later, ran, run⟩ := estate_bind_ok.mp run
    obtain ⟨grows, knows⟩ := first.ok ran
    obtain ⟨more, answer⟩ := (second a later grows knows).ok run
    exact ⟨grows.trans more, answer⟩
  · intro e last failed
    change EStateM.bind x f pool = _ at failed
    unfold EStateM.bind at failed
    cases ran : x pool with
    | error e' later =>
      rw [ran] at failed
      cases failed
      exact first.error ran
    | ok a later =>
      rw [ran] at failed
      obtain ⟨grows, knows⟩ := first.ok ran
      exact grows.trans ((second a later grows knows).error failed)

theorem Interns.of_get {g : Pool → PoolM β} (rest : Interns strict pool (g pool) found) :
    Interns strict pool (get >>= g) found :=
  ⟨fun _ _ run => rest.ok run, fun _ _ failed => rest.error failed⟩

theorem add_of_room (room : pool.constants.next + constant.width ≤ maxPoolOffset) :
    add constant pool = .ok (UInt16.ofNat pool.constants.next) (pool.push constant) := by
  change (if pool.constants.next + constant.width > maxPoolOffset then _ else _ : PoolM UInt16) pool = _
  rw [if_neg (Nat.not_lt.mpr room)]
  rfl

theorem add_cases (constant : Constant) (pool : Pool) :
    (∃ e, add constant pool = .error e pool) ∨
      pool.constants.next + constant.width ≤ maxPoolOffset ∧
        add constant pool = .ok (.ofNat pool.constants.next) (pool.push constant) := by
  by_cases full : pool.constants.next + constant.width > maxPoolOffset
  · exact .inl ⟨_, (congrFun (if_pos full) pool).trans rfl⟩
  · exact .inr ⟨Nat.le_of_not_lt full, add_of_room (Nat.le_of_not_lt full)⟩

theorem indexOf?_pushed : (pool.push constant).indexOf? constant =
    some (UInt16.ofNat pool.constants.next) := by
  rw [indexOf?_push, if_pos rfl]

theorem interns_error {e : PoolError} (failed : x pool = .error e pool) :
    Interns strict pool x known := by
  refine ⟨fun a later run => ?_, fun e' later run => ?_⟩
  · rw [failed] at run
    cases run
  · rw [failed] at run
    cases run
    exact .refl

theorem interns_ok {a : α} (ran : x pool = .ok a later) (grows : Grows strict pool later)
    (answer : known a later) : Interns strict pool x known := by
  refine ⟨fun b last run => ?_, fun e last run => ?_⟩
  · rw [ran] at run
    cases run
    exact ⟨grows, answer⟩
  · rw [ran] at run
    cases run

theorem interns_pure {a : α} (answer : known a pool) : Interns strict pool (pure a) known :=
  interns_ok rfl .refl answer

theorem interns_add (fresh : pool.indexOf? constant = none) (ordinary : constant.IsOrdinary)
    (placed : strict → constant.References pool.Has) :
    Interns strict pool (add constant) fun index later =>
      later.indexOf? constant = some index := by
  rcases add_cases constant pool with ⟨e, failed⟩ | ⟨room, added⟩
  · exact interns_error failed
  · exact interns_ok added (.single (.push fresh room ordinary placed)) indexOf?_pushed

theorem interns_intern (placed : strict → constant.References pool.Has)
    (ordinary : constant.IsOrdinary) :
    Interns strict pool (intern constant) fun index later =>
      later.indexOf? constant = some index := by
  refine Interns.of_get ?_
  cases known : pool.indexOf? constant with
  | some index => exact interns_pure known
  | none => exact interns_add known ordinary placed

theorem interns_utf8 (text : String) :
    Interns strict pool (utf8 text) fun index later => later.get? (.utf8 text) = some index := by
  refine Interns.of_get ?_
  cases known : pool.indexOf? (.utf8 text) with
  | some index => exact interns_pure known
  | none =>
    dsimp only
    split
    · exact interns_error rfl
    · next short => exact interns_add known (Nat.le_of_not_lt short) fun _ => trivial

theorem interns_classRef (type : RefType) : Interns strict pool (classRef type) fun index later =>
    later.get? (.classRef type) = some index := by
  refine (interns_utf8 type.constantName).bind fun name pool grows named => Interns.of_get ?_
  cases known : pool.indexOf? (.classRef name) with
  | some index => exact interns_pure (get?_classRef.mpr ⟨name, named, known⟩)
  | none =>
    rcases add_cases (.classRef name) pool with ⟨e, failed⟩ | ⟨room, added⟩
    · exact interns_error (estate_bind_error failed)
    · refine interns_ok (estate_bind_eq added) (.single (.note named known room)) ?_
      exact get?_classRef.mpr ⟨name, extends_push known _ _ named, indexOf?_pushed⟩

theorem interns_nameAndType (name descriptor : String) :
    Interns strict pool (nameAndType name descriptor) fun index later =>
      later.get? (.nameAndType name descriptor) = some index := by
  refine (interns_utf8 name).bind fun named pool grows first => ?_
  refine (interns_utf8 descriptor).bind fun described between more second => ?_
  have first := more.extends.get? first
  have placed : (Constant.nameAndType named described).References between.Has :=
    ⟨⟨_, first, trivial⟩, ⟨_, second, trivial⟩⟩
  refine (interns_intern (fun _ => placed) trivial).imp fun index later again found => ?_
  exact get?_nameAndType.mpr
    ⟨named, described, again.extends _ _ first, again.extends _ _ second, found⟩

/-- A reference to a member is added after its owner and its name and type. -/
theorem interns_member (owner : BinaryName) (name descriptor : String)
    (constant : UInt16 → UInt16 → Constant)
    (ordinary : ∀ {owner member : UInt16}, (constant owner member).IsOrdinary)
    (shape : ∀ {holds : (Constant → Prop) → UInt16 → Prop} {owner member : UInt16},
      holds Constant.IsClass owner → holds Constant.IsNameAndType member →
      (constant owner member).References holds) :
    Interns strict pool (do
        let owner ← classRef (.object owner)
        let member ← nameAndType name descriptor
        intern (constant owner member))
      fun index later => ∃ owned member, later.get? (.classRef (.object owner)) = some owned ∧
        later.get? (.nameAndType name descriptor) = some member ∧
        later.indexOf? (constant owned member) = some index := by
  refine (interns_classRef _).bind fun owned pool grows first => ?_
  refine (interns_nameAndType name descriptor).bind fun member between more second => ?_
  have first := more.extends.get? first
  have classed : between.Has Constant.IsClass owned := by
    obtain ⟨named, _, found⟩ := get?_classRef.mp first
    exact ⟨_, found, trivial⟩
  have described : between.Has Constant.IsNameAndType member := by
    obtain ⟨_, _, _, _, found⟩ := get?_nameAndType.mp second
    exact ⟨_, found, trivial⟩
  refine (interns_intern (fun _ => shape classed described) ordinary).imp
    fun index later again found => ?_
  exact ⟨owned, member, again.extends.get? first, again.extends.get? second, found⟩

theorem interns_put (value : PoolValue) :
    Interns strict pool (put value) fun index later => later.get? value = some index := by
  cases value with
  | utf8 text => exact interns_utf8 text
  | string text =>
    refine (interns_utf8 text).bind fun utf8 pool grows first => ?_
    have placed : (Constant.string utf8).References pool.Has := ⟨_, first, trivial⟩
    refine (interns_intern (fun _ => placed) trivial).imp fun index later more found => ?_
    exact get?_string.mpr ⟨utf8, more.extends _ _ first, found⟩
  | classRef type => exact interns_classRef type
  | nameAndType name descriptor => exact interns_nameAndType name descriptor
  | field field =>
    exact (interns_member field.owner field.name.text field.descriptor.render .fieldRef trivial
      fun owner member => ⟨owner, member⟩).imp fun _ _ _ => get?_field.mpr
  | method method =>
    exact (interns_member method.owner method.name.text method.descriptor.render
      (fun owner member => .methodRef owner member method.ownerIsInterface) trivial
      fun owner member => ⟨owner, member⟩).imp fun _ _ _ => get?_method.mpr
  | _ => exact interns_intern (fun _ => trivial) trivial

end Actions

end Pool

end ClassForge
