import ClassForge.Lowering.Unit
import ClassForge.Proofs.ClassBuilding
import ClassForge.Proofs.Rereading
import ClassForge.Proofs.TreeReading

namespace ClassForge

variable {method : MethodDecl} {file : ClassFile} {decl : ClassDecl} {hierarchy : ClassGraph}

/-- How a method stands in a class file. If it has a body, its parameters are within the limits and its
calls of interface methods say how many slots they take. Its code and its exceptions are read back
if and only if the lengths of their lists can be written. -/
structure MethodDecl.Emitted (method : MethodDecl) (file : ClassFile) (info : MemberInfo .ofMethod) :
    Prop where
  few : info.attributes.length ≤ 2
  body : method.body ≠ none → method.WithinLimits ∧ ∃ code : Code, ∃ a ∈ info.attributes,
    a.info = code.encode ∧ CountsSlots code.code file.constants ∧
    code.code.length ≤ maxCodeLength ∧ code.attributes.length ≤ 4 ∧
    (file.payload a = .ok (.code code) ↔
      code.handlers.length ≤ 65535 ∧ ∀ table ∈ code.attributes, table.info.length < 2 ^ 32)
  exceptions : method.exceptions ≠ [] → ∃ classes : List UInt16, ∃ a ∈ info.attributes,
    a.info = Bytes.ofList Bytes.ofWord16 classes ∧ classes.length = method.exceptions.length ∧
    (file.payload a = .ok (.exceptions classes) ↔ method.exceptions.length ≤ 65535)

theorem MethodDecl.Made.emitted {info : MemberInfo .ofMethod} {pool : Pool}
    (made : method.Made info pool) (sound : pool.Sound) (same : file.constants = pool.constants) :
    method.Emitted file info where
  few := made.few
  body some := by
    obtain ⟨within, code, short, few, sourced, a, member, holds⟩ := made.body some
    have written : a.info = code.encode := (Except.ok.inj holds.2).symm
    refine ⟨within, code, a, member, written, same ▸ sourced.countsSlots sound, short, few, ?_⟩
    have limit : maxCodeLength = 65535 := rfl
    rw [holds.payload_eq sound same, written]
    refine Payload.decode_code.trans ⟨fun fits => ⟨fits.handlers, fits.attributes.short⟩, ?_⟩
    rintro ⟨handlers, tables⟩
    exact ⟨by omega, handlers, by omega, tables⟩
  exceptions some := by
    obtain ⟨classes, length, a, member, holds⟩ := made.exceptions some
    have written : a.info = Bytes.ofList Bytes.ofWord16 classes := (Except.ok.inj holds.2).symm
    refine ⟨classes, a, member, written, length, ?_⟩
    rw [holds.payload_eq sound same, written, ← length]
    exact Payload.decode_exceptions

def ClassFile.allAttributes (file : ClassFile) : List Attribute :=
  file.attributes ++ file.fields.flatMap (·.attributes) ++ file.methods.flatMap (·.attributes)

/-- How a declaration stands in a class file. Nothing is left out of a list, and the class file is read
back if and only if the lengths of its lists and of its payloads can be written. -/
structure ClassDecl.Emitted (decl : ClassDecl) (file : ClassFile) : Prop where
  interfaces : file.interfaces.length = decl.interfaces.length
  fields : List.Forall₂ (fun (field : FieldDecl) (info : MemberInfo .ofField) =>
    info.access = field.access ∧ info.attributes.length ≤ 1) decl.fields file.fields
  methods : List.Forall₂ (fun method info => method.Emitted file info) decl.allMethods file.methods
  few : file.attributes.length ≤ 2
  reads : ClassFile.decode file.encode = .ok file ↔
    decl.interfaces.length ≤ 65535 ∧ decl.fields.length ≤ 65535 ∧ decl.allMethods.length ≤ 65535 ∧
      ∀ a ∈ file.allAttributes, a.info.length < 2 ^ 32

structure ClassDecl.KnownFlags (decl : ClassDecl) : Prop where
  access : decl.access.Known
  fields : ∀ field ∈ decl.fields, field.access.Known
  methods : ∀ method ∈ decl.allMethods, method.access.Known

theorem AccessFlags.Known.without {kind : Declared} {flags : AccessFlags kind} (known : flags.Known)
    (mask : UInt16) : (flags.without mask).Known := by
  change flags.bits &&& ~~~mask &&& kind.known = flags.bits &&& ~~~mask
  rw [UInt16.and_assoc, UInt16.and_comm (~~~mask), ← UInt16.and_assoc, known]

theorem Pool.Sound.index_ne_zero {pool : Pool} {type : RefType} {index : UInt16} (sound : pool.Sound)
    (known : pool.get? (.classRef type) = some index) : index ≠ 0 := by
  rintro rfl
  obtain ⟨name, _, found⟩ := Pool.get?_classRef.mp known
  have listed := sound.neat.get?_eq_some.mp ((sound.indexed _ _).mp found)
  have first := sound.packed.start_le listed
  rw [sound.start] at first
  cases first

theorem ClassDecl.Made.emitted {pool : Pool} (made : decl.Made file pool) (known : decl.KnownFlags) :
    decl.Emitted file := by
  have sound : pool.Sound := Pool.sound_empty.grows made.stocked.grows
  have methods := made.methods.imp fun _ _ method => method.emitted sound made.constants
  refine ⟨made.interfaces, made.fields, methods, made.few, fun read => ?_, ?_⟩
  · obtain ⟨fits, _⟩ := ClassFile.gives_decoder _ _ _ (ClassFile.decode_eq_ok.mp read)
    rw [← made.interfaces, made.fields.length_eq, made.methods.length_eq]
    refine ⟨fits.interfaces, fits.fields, fits.methods, fun a member => ?_⟩
    simp only [ClassFile.allAttributes, List.mem_append, List.mem_flatMap] at member
    rcases member with (own | ⟨field, listed, own⟩) | ⟨method, listed, own⟩
    · exact fits.attributes.short a own
    · exact (fits.eachField field listed).attributes.short a own
    · exact (fits.eachMethod method listed).attributes.short a own
  · rintro ⟨interfaces, fields, methodCount, short⟩
    rw [← made.interfaces] at interfaces
    rw [made.fields.length_eq] at fields
    rw [made.methods.length_eq] at methodCount
    simp only [ClassFile.allAttributes, List.forall_mem_append, List.forall_mem_flatMap] at short
    obtain ⟨⟨ownShort, fieldShort⟩, methodShort⟩ := short
    have room := sound.room
    have limit : maxPoolOffset = 65535 := rfl
    refine ClassFile.decode_of_reads (ClassFile.reads_encode ⟨?_, ?_, ?_, interfaces, fields, ?_,
      methodCount, ?_, ?_, ownShort⟩ ?_)
    · rw [made.constants]
      exact made.stocked.fits
    · rw [made.access]
      split
      · exact known.access.without _
      · exact known.access
    · intro zero
      obtain ⟨type, found⟩ := made.superclass 0 zero
      exact sound.index_ne_zero found rfl
    · intro info listed
      obtain ⟨field, declared, access, few⟩ := exists_of_forall₂ made.fields listed
      exact ⟨access ▸ known.fields field declared, by omega, fieldShort info listed⟩
    · intro info listed
      obtain ⟨method, declared, this⟩ := exists_of_forall₂ made.methods listed
      have few := this.few
      exact ⟨this.access ▸ known.methods method declared, by omega, methodShort info listed⟩
    · have := made.few
      omega
    · rw [made.constants]
      omega

theorem ClassDecl.withInitializers_access (decl : ClassDecl) (method : MethodDecl) :
    (decl.withInitializers method).access = method.access := by
  unfold withInitializers
  split
  · split <;> rfl
  · rfl

namespace Lowering

variable {type : FieldType}

theorem fails_checkDimensions (deep : maxDimensions < type.dimensions) :
    Fails (checkDimensions type) := by
  cases type with
  | base type => cases deep
  | ref type =>
    change Fails (if type.dimensions > maxDimensions then throw _ else pure ())
    rw [if_pos (by exact deep)]
    exact fails_throw

theorem fails_declare {var : VarDecl} (deep : maxDimensions < var.type.dimensions) :
    Fails (declare var) := (fails_checkDimensions deep).bind

theorem fails_newArray (deep : maxDimensions < type.dimensions) (dims : Nat)
    (lengths : Lowering Unit) (elems : Option Nat) (store : TypeCode → Lowering Unit) :
    Fails (newArray (some type) dims lengths elems store) := by
  cases type with
  | base type => exact fails_fail _
  | ref type =>
    have create (dims : Nat) : Fails (createArray type dims) := (fails_checkDimensions deep).bind
    have some : ¬type.dimensions = 0 := fun zero => by
      change maxDimensions < type.dimensions at deep
      omega
    unfold newArray
    dsimp only
    rw [if_neg some]
    cases elems with
    | some count =>
      exact answers_bind fun _ => (create 1).bind
    | none =>
      dsimp only
      split
      · exact (fails_fail _).bind
      · exact answers_bind fun _ => (create dims).bind

end Lowering

namespace CompilationUnit

variable {classes : List (BinaryName × ClassFile)} {diagnostics : List Diagnostic}
  {decls : List ClassDecl}
variable {unit : CompilationUnit} {settings : Settings} {result : Compilation}

theorem Valid.knownFlags (valid : unit.Valid) (member : decl ∈ unit.classes) : decl.KnownFlags := by
  have leaf (leaf : Leaf) (own : leaf ∈ decl.allLeaves) : leaf.Valid :=
    valid leaf (List.mem_append_left _ (List.mem_flatMap.mpr ⟨decl, member, own⟩))
  have inside {item : Member} (listed : item ∈ decl.members) (l : Leaf) (own : l ∈ item.allLeaves) :
      l.Valid := by
    refine leaf l ?_
    simp only [ClassDecl.allLeaves, List.mem_cons, List.mem_append, List.mem_flatMap]
    exact .inr (.inr (.inr ⟨item, listed, own⟩))
  refine ⟨leaf (.flags decl.access) (by simp [ClassDecl.allLeaves]), fun field listed => ?_,
    fun method listed => ?_⟩
  · obtain ⟨item, declared, same⟩ := List.mem_filterMap.mp listed
    cases item with
    | field own =>
      cases same
      exact inside declared (.flags field.access) (by simp [Member.allLeaves])
    | _ => cases same
  · rcases List.mem_append.mp listed with own | initializer
    · obtain ⟨source, declared, rfl⟩ := List.mem_map.mp own
      obtain ⟨item, declared, same⟩ := List.mem_filterMap.mp declared
      rw [AccessFlags.Known, ClassDecl.withInitializers_access]
      cases item with
      | method own =>
        cases same
        exact inside declared (.flags source.access) (by simp [Member.allLeaves])
      | _ => cases same
    · unfold ClassDecl.classInitializer? at initializer
      split at initializer
      · cases initializer
      · cases List.mem_singleton.mp initializer
        change AccessFlags.staticBit &&& Declared.known .ofMethod = AccessFlags.staticBit
        decide

/-- Each class, in the order of declaration, is emitted or reported for a limit that it exceeds. -/
inductive Outcome : List ClassDecl → List (BinaryName × ClassFile) → List Diagnostic → Prop where
  | nil : Outcome [] [] []
  | emitted {decl : ClassDecl} {file : ClassFile} {decls classes diagnostics} :
    decl.Emitted file → Outcome decls classes diagnostics →
    Outcome (decl :: decls) ((decl.name, file) :: classes) diagnostics
  | reported {decl : ClassDecl} {method : Option String} {error : Error} {decls classes diagnostics} :
    error.isLimit = true → Outcome decls classes diagnostics →
    Outcome (decl :: decls) classes (⟨decl.name, method, error⟩ :: diagnostics)

theorem outcome_compileFrom {sourceFile : Option String} (known : ∀ decl ∈ decls, decl.KnownFlags)
    (run : compileFrom hierarchy settings sourceFile classes diagnostics decls = .ok result) :
    ∃ files reports, result.classes = classes.reverse ++ files ∧
      result.diagnostics = diagnostics.reverse ++ reports ∧ Outcome decls files reports := by
  induction decls generalizing classes diagnostics with
  | nil =>
    cases run
    exact ⟨[], [], (List.append_nil _).symm, (List.append_nil _).symm, .nil⟩
  | cons decl rest ih =>
    obtain ⟨this, others⟩ := List.forall_mem_cons.mp known
    unfold compileFrom at run
    split at run
    · next file pool built =>
      obtain ⟨files, reports, same, noted, outcome⟩ := ih others run
      refine ⟨(decl.name, file) :: files, reports, ?_, noted,
        .emitted ((ClassBuild.classFileOf_made built).1.emitted this) outcome⟩
      rw [same, List.reverse_cons, List.append_assoc, List.singleton_append]
    · next method error pool built =>
      split at run
      · next limit =>
        obtain ⟨files, reports, same, noted, outcome⟩ := ih others run
        refine ⟨files, ⟨decl.name, method, error⟩ :: reports, same, ?_, .reported limit outcome⟩
        rw [noted, List.reverse_cons, List.append_assoc, List.singleton_append]
      · cases run

theorem Outcome.report (outcome : Outcome decls classes diagnostics) (member : decl ∈ decls)
    (declared : method ∈ decl.allMethods) (body : method.body ≠ none)
    (beyond : ¬method.WithinLimits) :
    ∃ diagnostic ∈ diagnostics, diagnostic.className = decl.name ∧ diagnostic.error.isLimit = true := by
  induction outcome with
  | nil => cases member
  | emitted emitted _ ih =>
    rcases List.mem_cons.mp member with rfl | later
    · obtain ⟨info, _, this⟩ := exists_of_forall₂ emitted.methods.flip declared
      exact absurd (this.body body).1 beyond
    · exact ih later
  | reported limit _ ih =>
    rcases List.mem_cons.mp member with rfl | later
    · exact ⟨_, .head _, rfl, limit⟩
    · obtain ⟨diagnostic, listed, held⟩ := ih later
      exact ⟨diagnostic, List.mem_cons_of_mem _ listed, held⟩

/-- Of a unit that is compiled, each class is emitted with the limits kept or reported for one that is
not. A class is reported if a method with a body takes more slots than a call has, or an array of too
many dimensions. Variables and new arrays of such a type are not lowered. -/
theorem compile_respects_limits (valid : unit.Valid) (run : unit.compile settings = .ok result) :
    Outcome unit.classes result.classes result.diagnostics ∧
    (∀ decl ∈ unit.classes, ∀ method ∈ decl.allMethods, method.body ≠ none → ¬method.WithinLimits →
      ∃ diagnostic ∈ result.diagnostics, diagnostic.className = decl.name ∧
        diagnostic.error.isLimit = true) ∧
    ∀ type : FieldType, maxDimensions < type.dimensions →
      (∀ var : VarDecl, var.type = type → Lowering.Fails (Lowering.declare var)) ∧
      ∀ dims lengths elems store,
        Lowering.Fails (Lowering.newArray (some type) dims lengths elems store) := by
  obtain ⟨files, reports, classes, diagnostics, outcome⟩ :=
    outcome_compileFrom (fun decl member => valid.knownFlags member) run
  rw [classes, diagnostics]
  refine ⟨outcome, fun decl member method declared body beyond =>
    outcome.report member declared body beyond, fun type deep => ⟨?_, Lowering.fails_newArray deep⟩⟩
  rintro var rfl
  exact Lowering.fails_declare deep

end CompilationUnit

namespace Pool

variable {ε α β : Type} {cost more : Nat}

/-- With room for so many constants the action succeeds, and it takes no more of it. -/
def Affords (cost : Nat) (action : EStateM ε Pool α) : Prop :=
  ∀ pool : Pool, pool.constants.next + cost ≤ maxPoolOffset →
    ∃ a later, action pool = .ok a later ∧ later.constants.next ≤ pool.constants.next + cost

theorem affords_pure (a : α) : Affords 0 (pure a : EStateM ε Pool α) :=
  fun pool _ => ⟨a, pool, rfl, le_rfl⟩

theorem Affords.bind {x : EStateM ε Pool α} {f : α → EStateM ε Pool β} (first : Affords cost x)
    (second : ∀ a, Affords more (f a)) : Affords (cost + more) (x >>= f) := by
  intro pool room
  obtain ⟨a, between, ran, within⟩ := first pool (by omega)
  obtain ⟨b, later, rest, small⟩ := second a between (by omega)
  exact ⟨b, later, estate_bind_ok.mpr ⟨a, between, ran, rest⟩, by omega⟩

theorem affords_add (constant : Constant) : Affords constant.width (add constant) :=
  fun _ room => ⟨_, _, add_of_room room, le_rfl⟩

theorem affords_utf8 {text : String} (short : ModifiedUtf8.length text ≤ maxTextLength) :
    Affords 1 (utf8 text) := by
  intro pool room
  cases known : pool.indexOf? (.utf8 text) with
  | some index => exact ⟨index, pool, utf8_of_indexOf? known, Nat.le_add_right _ _⟩
  | none => exact ⟨_, _, utf8_of_fresh known short room, le_rfl⟩

theorem affords_classRef (type : RefType)
    (short : ModifiedUtf8.length type.constantName ≤ maxTextLength) : Affords 2 (classRef type) := by
  suffices Affords (1 + 1) (classRef type) from this
  refine (affords_utf8 short).bind fun name pool room => ?_
  rw [estate_get_bind]
  cases known : pool.indexOf? (.classRef name) with
  | some index => exact ⟨index, pool, rfl, Nat.le_add_right _ _⟩
  | none =>
    obtain ⟨index, later, ran, small⟩ := affords_add (.classRef name) pool room
    exact ⟨index, _, estate_bind_ok.mpr ⟨index, later, ran, rfl⟩, small⟩

end Pool

theorem Build.affords_pool {α : Type} {cost : Nat} {action : PoolM α}
    (affords : Pool.Affords cost action) : Pool.Affords cost (pool action) := by
  intro pool room
  obtain ⟨a, later, ran, small⟩ := affords pool room
  exact ⟨a, later, pool_ok.mpr ran, small⟩

def ClassGraph.names (hierarchy : ClassGraph) : Finset BinaryName :=
  (hierarchy.classes.map (·.1)).toFinset

theorem ClassGraph.mem_of_nesting {name : BinaryName} {nesting : Nesting}
    (known : hierarchy.nesting name = some nesting) :
    ∃ data, (name, data) ∈ hierarchy.classes ∧ data.nesting = some nesting := by
  obtain ⟨data, found, nested⟩ := Option.bind_eq_some_iff.mp known
  obtain ⟨before, after, split, _⟩ := List.lookup_eq_some_iff.mp found
  exact ⟨data, split ▸ List.mem_append_right _ (.head _), nested⟩

namespace Build

section Room

variable {limit : Nat} (fits : limit ≤ maxPoolOffset)
  (each : ∀ name nesting, hierarchy.nesting name = some nesting →
    Pool.Affords 5 (innerClass name nesting))
include fits each

/-- With room for the rows of all classes that have none yet, a round succeeds, and there is room for
those that then have none. -/
theorem affords_round (seen names : List BinaryName) (entries : List InnerClass) (pool : Pool)
    (room : pool.constants.next + 5 * (hierarchy.names \ seen.toFinset).card ≤ limit) :
    ∃ found rows later, addInnerClasses hierarchy seen entries names pool = .ok (found, rows) later ∧
      later.constants.next + 5 * (hierarchy.names \ found.toFinset).card ≤ limit := by
  induction names generalizing seen entries pool with
  | nil => exact ⟨seen, entries, pool, rfl, room⟩
  | cons name names ih =>
    unfold addInnerClasses
    generalize known : (if seen.contains name then none else hierarchy.nesting name) = choice
    cases choice with
    | none => exact ih seen entries pool room
    | some nesting =>
      obtain ⟨fresh, known⟩ : name ∉ seen ∧ hierarchy.nesting name = some nesting := by
        simpa using known
      have unseen : name ∈ hierarchy.names \ seen.toFinset := by
        obtain ⟨data, member, _⟩ := ClassGraph.mem_of_nesting known
        have listed := List.mem_map_of_mem (f := Prod.fst) member
        simp [ClassGraph.names, listed, fresh]
      have fewer := Finset.card_erase_add_one unseen
      rw [← Finset.sdiff_insert, ← List.toFinset_cons] at fewer
      obtain ⟨row, between, ran, small⟩ := each name nesting known pool (by omega)
      obtain ⟨found, rows, later, rest, last⟩ := ih (name :: seen) (row :: entries) between
        (by omega)
      exact ⟨found, rows, later, estate_bind_ok.mpr ⟨row, between, ran, rest⟩, last⟩

/-- The search ends within the room for one row of each class, whichever names the rows bring in. -/
theorem affords_rounds (thisClass : BinaryName) (rounds : Nat) (seen : List BinaryName)
    (entries : List InnerClass) (pool : Pool)
    (room : pool.constants.next + 5 * (hierarchy.names \ seen.toFinset).card ≤ limit) :
    ∃ rows later, innerClassesFrom hierarchy thisClass seen entries rounds pool = .ok rows later ∧
      later.constants.next ≤ limit := by
  induction rounds generalizing seen entries pool with
  | zero => exact ⟨_, pool, rfl, by omega⟩
  | succ rounds ih =>
    obtain ⟨found, rows, between, ran, room'⟩ := affords_round fits each seen
      (thisClass :: pool.referencedClasses) entries pool room
    suffices ∃ all later, (if found.length = seen.length then pure rows.reverse else
        innerClassesFrom hierarchy thisClass found rows rounds) between = .ok all later ∧
          later.constants.next ≤ limit by
      obtain ⟨all, later, rest, small⟩ := this
      exact ⟨all, later, estate_bind_ok.mpr ⟨pool, pool, rfl, estate_bind_ok.mpr
        ⟨(found, rows), between, ran, rest⟩⟩, small⟩
    split
    · exact ⟨_, between, rfl, by omega⟩
    · exact ih found rows between room'

end Room

end Build

namespace ClassBuild

variable {cost : Nat}

theorem affords_within {α : Type} {label : Option String} {action : Build α}
    (affords : Pool.Affords cost action) : Pool.Affords cost (within label action) := by
  intro pool room
  obtain ⟨a, later, ran, small⟩ := affords pool room
  exact ⟨a, later, within_ok.mpr ran, small⟩

theorem affords_header (name : BinaryName) (access : AccessFlags .ofClass)
    (nesting : Option Nesting) (members : List Member)
    (short : ModifiedUtf8.length name.text ≤ maxTextLength) (differs : name ≠ .object) :
    Pool.Affords 4 (header ⟨name, access, none, [], nesting, members⟩) := by
  have object : ModifiedUtf8.length BinaryName.object.text ≤ maxTextLength :=
    short_of_toList (by decide)
  change Pool.Affords (2 + 2) _
  refine (Build.affords_pool (Pool.affords_classRef (.object name) short)).bind fun _ => ?_
  dsimp only
  rw [if_neg differs]
  exact ((Build.affords_pool (Pool.affords_classRef (.object .object) object)).bind fun above =>
    Pool.affords_pure (some above)).bind fun _ => Pool.affords_pure _

/-- A class without fields needs room for its header, its methods, the rows of the nested classes and
the name of their table. -/
theorem affords_classFileOf (hierarchy : ClassGraph) (settings : Settings) (decl : ClassDecl)
    {heading methods : Nat} (titled : Pool.Affords heading (header decl))
    (flat : decl.fields = [])
    (lowered : Pool.Affords methods ((decl.methods.map decl.withInitializers ++
      decl.classInitializer?.toList).mapM fun method =>
        within (some method.label) (Build.methodOf hierarchy settings decl.name method)))
    (each : ∀ name nesting, hierarchy.nesting name = some nesting →
      Pool.Affords 5 (Build.innerClass name nesting)) :
    Pool.Affords (heading + (0 + (methods + (0 + (5 * hierarchy.classes.length + (1 + 0))))))
      (classFileOf hierarchy settings none decl) := by
  have table : ModifiedUtf8.length "InnerClasses" ≤ maxTextLength :=
    short_of_toList (by decide)
  have few : hierarchy.names.card ≤ hierarchy.classes.length := by
    simpa [ClassGraph.names] using List.toFinset_card_le (hierarchy.classes.map (·.1))
  have inner : Pool.Affords (5 * hierarchy.classes.length)
      (Build.innerClasses hierarchy decl.name) := fun pool room =>
    Build.affords_rounds room each _ _ _ _ pool (by simp [few])
  have sourced : Pool.Affords 0 (Build.sourceFileOf settings none) := by
    unfold Build.sourceFileOf
    cases settings.sourceFile <;> exact Pool.affords_pure []
  unfold classFileOf
  rw [flat]
  refine (affords_within titled).bind fun _ => (Pool.affords_pure []).bind fun _ =>
    lowered.bind fun _ => (affords_within sourced).bind fun _ =>
    (affords_within inner).bind fun rows => ?_
  dsimp only
  split
  · exact fun pool _ => ⟨_, pool, rfl, Nat.le_add_right _ _⟩
  · refine Pool.Affords.bind (x := List.singleton <$> within none _) ?_ fun _ pool _ =>
      ⟨_, pool, rfl, le_rfl⟩
    exact (affords_within ((Build.affords_pool (Pool.affords_utf8 table)).bind fun _ =>
      Pool.affords_pure _)).bind fun _ => Pool.affords_pure _

end ClassBuild

namespace CompilationUnit

def crowdedMethod (count : Nat) (body : Option Stmt) : MethodDecl where
  name := ⟨"sum"⟩
  access := ⟨0⟩
  params := .replicate count ⟨0, ⟨"n"⟩, .base .long, none, none⟩
  result := none
  exceptions := []
  body
  endLine := none

def crowdedClass (name : BinaryName) (body : Option Stmt) : ClassDecl :=
  ⟨name, ⟨0⟩, none, [], none, [.method (crowdedMethod 128 body)]⟩

def crowdedUnit : CompilationUnit :=
  ⟨none, [crowdedClass ⟨"Sums"⟩ none, crowdedClass ⟨"Totals"⟩ (some (.mk none .empty))], []⟩

-- The parameters are counted one by one.
set_option maxRecDepth 4096

theorem emits_crowded : ∃ file later, ClassBuild.classFileOf crowdedUnit.hierarchy .default none
    (crowdedClass ⟨"Sums"⟩ none) .empty = .ok file later := by
  have flat (name : BinaryName) (nesting : Nesting)
      (known : crowdedUnit.hierarchy.nesting name = some nesting) :
      Pool.Affords 5 (Build.innerClass name nesting) := by
    have all : ∀ entry ∈ crowdedUnit.hierarchy.classes, entry.2.nesting = none := by decide
    obtain ⟨data, member, nested⟩ := ClassGraph.mem_of_nesting known
    cases (all _ member).symm.trans nested
  have sum : ModifiedUtf8.length "sum" ≤ maxTextLength := short_of_toList (by decide)
  have descriptor : ModifiedUtf8.length (crowdedMethod 128 none).descriptor.render ≤ maxTextLength :=
    short_of_toList (by decide)
  have method : Pool.Affords (0 + (0 + (1 + (1 + 0)))) (Build.methodOf crowdedUnit.hierarchy .default
      ⟨"Sums"⟩ (crowdedMethod 128 none)) :=
    (Pool.affords_pure []).bind fun _ => (Pool.affords_pure []).bind fun _ =>
      (Build.affords_pool (Pool.affords_utf8 sum)).bind fun _ =>
      (Build.affords_pool (Pool.affords_utf8 descriptor)).bind fun _ => Pool.affords_pure _
  obtain ⟨file, later, run, _⟩ := ClassBuild.affords_classFileOf crowdedUnit.hierarchy .default
    (crowdedClass ⟨"Sums"⟩ none)
    (ClassBuild.affords_header _ _ _ _ (short_of_toList (by decide)) (by decide)) rfl
    ((ClassBuild.affords_within method).bind fun _ => (Pool.affords_pure []).bind fun _ => Pool.affords_pure _)
    flat .empty (by decide)
  exact ⟨file, later, run⟩

theorem refuses_crowded : ∃ later, ClassBuild.classFileOf crowdedUnit.hierarchy .default none
    (crowdedClass ⟨"Totals"⟩ (some (.mk none .empty))) .empty =
      .error ⟨some (crowdedMethod 128 none).label, .tooManyParameters 257⟩ later := by
  obtain ⟨⟨own, above, interfaces⟩, p1, headed, small⟩ := ClassBuild.affords_header
    ⟨"Totals"⟩ ⟨0⟩ none (crowdedClass ⟨"Totals"⟩ (some (.mk none .empty))).members
    (short_of_toList (by decide)) (by decide) .empty (by decide)
  have slots : (crowdedMethod 128 (some (.mk none .empty))).parameterSlots = 257 := by decide
  have refused : Build.methodOf crowdedUnit.hierarchy .default ⟨"Totals"⟩
      (crowdedMethod 128 (some (.mk none .empty))) p1 = .error (.tooManyParameters 257) p1 := by
    rw [← slots]
    exact estate_bind_error (estate_bind_error (Build.codeOf_refuses (by rw [slots]; decide) p1))
  have methods : ([crowdedMethod 128 (some (.mk none .empty))].mapM fun method =>
      ClassBuild.within (some method.label)
        (Build.methodOf crowdedUnit.hierarchy .default ⟨"Totals"⟩ method)) p1 =
      .error ⟨some (crowdedMethod 128 none).label, .tooManyParameters 257⟩ p1 := by
    rw [List.mapM_cons]
    refine estate_bind_error ?_
    unfold ClassBuild.within
    rw [refused]
    rfl
  refine ⟨p1, (estate_bind_eq (ClassBuild.within_ok.mpr headed)).trans ?_⟩
  have fields : ClassBuild.within none ([].mapM Build.fieldOf) p1 = .ok [] p1 := rfl
  exact (estate_bind_eq fields).trans (estate_bind_error methods)

theorem compile_crowdedUnit : ∃ file, crowdedUnit.compile .default = .ok ⟨[(⟨"Sums"⟩, file)],
    [⟨⟨"Totals"⟩, some (crowdedMethod 128 none).label, .tooManyParameters 257⟩]⟩ := by
  obtain ⟨file, later, emitted⟩ := emits_crowded
  obtain ⟨last, refused⟩ := refuses_crowded
  refine ⟨file, ?_⟩
  change compileFrom crowdedUnit.hierarchy .default none [] [] [_, _] = _
  unfold compileFrom
  rw [emitted]
  dsimp only
  unfold compileFrom
  rw [refused]
  rfl

theorem valid_crowdedUnit : crowdedUnit.Valid := by decide

/-- One class is emitted, and the other one is reported. -/
theorem compile_respects_limits_crowded : ∃ result, crowdedUnit.Valid ∧
    crowdedUnit.compile .default = .ok result ∧
    Outcome crowdedUnit.classes result.classes result.diagnostics ∧
    ∃ diagnostic ∈ result.diagnostics, diagnostic.className = ⟨"Totals"⟩ ∧
      diagnostic.error.isLimit = true := by
  obtain ⟨file, run⟩ := compile_crowdedUnit
  obtain ⟨outcome, report, _⟩ := compile_respects_limits valid_crowdedUnit run
  refine ⟨_, valid_crowdedUnit, run, outcome, ?_⟩
  refine report (crowdedClass ⟨"Totals"⟩ (some (.mk none .empty))) (by simp [crowdedUnit])
    (crowdedMethod 128 (some (.mk none .empty))) (.head _) nofun fun within => ?_
  exact absurd within.slots (by decide)

/-- A method without a body may take more slots than a call has: the class is emitted and not reported. -/
theorem crowded_method_unreported : ∃ unit : CompilationUnit, unit.Valid ∧ ∃ result,
    unit.compile .default = .ok result ∧ ∃ decl ∈ unit.classes, ∃ method ∈ decl.methods,
      maxParameterSlots < method.parameterSlots ∧ (∃ file, (decl.name, file) ∈ result.classes) ∧
      ∀ diagnostic ∈ result.diagnostics, diagnostic.className ≠ decl.name := by
  obtain ⟨file, run⟩ := compile_crowdedUnit
  refine ⟨crowdedUnit, valid_crowdedUnit, _, run, crowdedClass ⟨"Sums"⟩ none, .head _,
    crowdedMethod 128 none, .head _, by decide, ⟨file, .head _⟩, ?_⟩
  refine List.forall_mem_singleton.mpr ?_
  decide

end CompilationUnit

end ClassForge
