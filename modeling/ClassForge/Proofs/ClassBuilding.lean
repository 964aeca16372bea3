import ClassForge.Proofs.Provenance

namespace ClassForge

variable {method : MethodDecl} {body : Stmt} {code : Code} {file : ClassFile} {start later : Pool}
  {info : MemberInfo .ofMethod} {sourceFile : Option String} {settings : Settings}

def Discipline.stocking (first : Pool) : Discipline := .keeping fun _ b _ _ => first.Stocked b.pool

instance (first : Pool) : (Discipline.stocking first).Lawful :=
  Discipline.lawful_keeping (fun call _ _ _ _ _ _ _ stocked run => stocked.trans (call.onward run).pool)
    (fun _ _ stocked => stocked) (fun _ _ stocked => stocked) fun _ stocked => stocked

namespace Lowering

variable {ctx : Context} {b : Buffer}

theorem stocks_genMethod {mc : MethodContext} {pool : Pool} {y : Unit} {σ : MethodState}
    (run : genMethod method body mc {} ctx (.empty pool) = .ok (y, σ) b) : pool.Stocked b.pool := by
  have whole : SpendsAt (.stocking pool) ctx (.empty pool) ⟨[], []⟩ (Orderly _ [] [])
      (Orderly _ [] []) 0 (genMethod method body) := spendsAt_genMethod method body False.elim
  have start : (Discipline.stocking pool).holds ctx (.empty pool) (0 + 0) ⟨[], []⟩ := .refl
  obtain ⟨_, _, stocked⟩ := (whole mc {} nofun .nil).ok run start
  exact stocked

theorem stocks_attempt {pool : Pool} {found : Option Code}
    (run : attempt settings method body ctx (.empty pool) = .ok found b) : pool.Stocked b.pool := by
  obtain ⟨_, b1, lowered, run⟩ := Asm.bind_ok.mp run
  obtain ⟨⟨y, σ⟩, ran⟩ := Asm.discard_ok.mp lowered
  have stocked := stocks_genMethod ran
  obtain ⟨_, _, looked, run⟩ := Asm.bind_ok.mp run
  obtain ⟨rfl, rfl⟩ := Asm.get_ok.mp looked
  rcases Asm.ite_ok.mp run with ⟨_, run⟩ | ⟨_, run⟩
  · obtain ⟨_, rfl⟩ := Asm.pure_ok.mp run
    exact stocked
  · obtain ⟨_, c, compressed, run⟩ := Asm.bind_ok.mp run
    obtain ⟨code, _, finished, run⟩ := Asm.bind_ok.mp run
    obtain ⟨_, rfl⟩ := Asm.pure_ok.mp run
    obtain ⟨later, rfl, more, _⟩ := Asm.finish_finished finished
    rw [(Asm.compressCatches_ok compressed).1] at more
    exact stocked.trans more

end Lowering

def FieldType.dimensions : FieldType → Nat
  | .base _ => 0
  | .ref type => type.dimensions

/-- The parameters have room in a call, and no parameter is an array of too many dimensions. -/
structure MethodDecl.WithinLimits (method : MethodDecl) : Prop where
  slots : method.parameterSlots ≤ maxParameterSlots
  dimensions : ∀ param ∈ method.params, param.type.dimensions ≤ maxDimensions

namespace Build

variable {hierarchy : ClassGraph} {settings : Settings} {thisClass : BinaryName}

theorem stocks_assemble (context : Context) :
    Stocks (assemble context (Lowering.attempt settings method body)) := by
  intro pool found later run
  unfold assemble at run
  split at run
  · next ran =>
    cases run
    exact Lowering.stocks_attempt ran
  · cases run

theorem forM_ok {α : Type} {f : α → Build Unit} {good : α → Prop}
    (each : ∀ {a pool later}, f a pool = .ok () later → good a ∧ pool = later) {items : List α}
    {pool : Pool} (run : items.forM f pool = .ok () later) :
    (∀ a ∈ items, good a) ∧ pool = later := by
  induction items generalizing pool with
  | nil => exact ⟨List.forall_mem_nil _, (estate_pure_ok.mp run).2⟩
  | cons item rest ih =>
    obtain ⟨_, between, first, run⟩ := estate_bind_ok.mp run
    obtain ⟨this, rfl⟩ := each first
    obtain ⟨others, rfl⟩ := ih run
    exact ⟨List.forall_mem_cons.mpr ⟨this, others⟩, rfl⟩

theorem checkParameters_ok {pool : Pool} (run : checkParameters method pool = .ok () later) :
    method.WithinLimits ∧ pool = later := by
  unfold checkParameters at run
  dsimp only at run
  split at run
  · cases run
  next few =>
  suffices each : (∀ param ∈ method.params, param.type.dimensions ≤ maxDimensions) ∧ pool = later from
    ⟨⟨Nat.le_of_not_lt few, each.1⟩, each.2⟩
  refine forM_ok ?_ run
  intro param pool later run
  cases known : param.type with
  | ref type =>
    rw [known] at run
    dsimp only at run
    split at run
    · cases run
    · next low => exact ⟨Nat.le_of_not_lt low, (estate_pure_ok.mp run).2⟩
  | base type =>
    rw [known] at run
    exact ⟨Nat.zero_le _, (estate_pure_ok.mp run).2⟩

theorem codeOf_within {pool : Pool}
    (run : codeOf hierarchy settings thisClass method body pool = .ok code later) :
    method.WithinLimits ∧ pool.Stocked later := by
  obtain ⟨_, _, checked, run⟩ := estate_bind_ok.mp run
  obtain ⟨within, rfl⟩ := checkParameters_ok checked
  refine ⟨within, (?_ : Stocks _) run⟩
  refine (stocks_assemble _).bind fun first => ?_
  split
  · exact stocks_pure _
  · refine (stocks_assemble _).bind fun second => ?_
    split
    · exact stocks_pure _
    · exact stocks_throw _

theorem codeOf_refuses (many : method.parameterSlots > maxParameterSlots) (pool : Pool) :
    codeOf hierarchy settings thisClass method body pool =
      .error (.tooManyParameters method.parameterSlots) pool := by
  refine estate_bind_error ?_
  unfold checkParameters
  rw [if_pos many]
  rfl

/-- The code of a method is made of what was emitted, and the pool has the constants for it. -/
theorem sourced_codeOf {pool : Pool}
    (run : codeOf hierarchy settings thisClass method body pool = .ok code later) :
    Sourced code.code later ∧ code.code.length ≤ maxCodeLength := by
  obtain ⟨wide, pool1, b, ran, rfl⟩ := codeOf_attempt run
  obtain ⟨s, complete, _, c, rest, _, finished⟩ := Lowering.attempt_ok ran
  obtain ⟨start, course⟩ := complete.course
  have same : code.code = s.buffer.bytes := by
    rw [(Asm.finish_ok finished).2.2, rest]
    rfl
  have stocked : s.buffer.pool.Stocked b.pool := by
    obtain ⟨later, rfl, more, _⟩ := Asm.finish_finished finished
    rw [rest] at more
    exact more
  rw [same, Buffer.length_bytes]
  exact ⟨course.sourced.stocked stocked, complete.small⟩

end Build

theorem Attribute.Holds.payload_eq {a : Attribute} {pool : Pool} {payload : Payload}
    (holds : a.Holds pool payload) (sound : pool.Sound) (same : file.constants = pool.constants) :
    file.payload a = Payload.decode payload.name a.info := by
  have named : file.text? a.name = some payload.name := by
    unfold ClassFile.text? ClassFile.constant?
    rw [same, (sound.indexed _ _).mp holds.1]
  unfold ClassFile.payload
  rw [named]
  rfl

section Lists

variable {ε α β : Type} {f : α → EStateM ε Pool β} (good : α → β → Pool → Prop)

/-- The elements of a list are turned into those of another one by one, and what each of them comes
with is kept to the end. -/
theorem Pool.mapM_ok
    (each : ∀ {a pool b later}, Pool.empty.Stocked pool → f a pool = .ok b later →
      pool.Stocked later ∧ good a b later)
    (keeps : ∀ {a b pool later}, good a b pool → pool.Stocked later → good a b later)
    {items : List α} {made : List β} {pool : Pool} (stocked : Pool.empty.Stocked pool)
    (run : items.mapM f pool = .ok made later) :
    pool.Stocked later ∧ List.Forall₂ (fun a b => good a b later) items made := by
  induction items generalizing pool made with
  | nil =>
    cases run
    exact ⟨.refl, .nil⟩
  | cons item rest ih =>
    rw [List.mapM_cons] at run
    obtain ⟨b, between, first, run⟩ := estate_bind_ok.mp run
    obtain ⟨others, last, ran, run⟩ := estate_bind_ok.mp run
    cases run
    obtain ⟨more, this⟩ := each stocked first
    obtain ⟨most, those⟩ := ih (stocked.trans more) ran
    exact ⟨more.trans most, .cons (keeps this most) those⟩

end Lists

/-- What comes of a method: the attributes hold its code and its exceptions. -/
structure MethodDecl.Made (method : MethodDecl) (info : MemberInfo .ofMethod) (pool : Pool) : Prop where
  access : info.access = method.access
  few : info.attributes.length ≤ 2
  body : method.body ≠ none → method.WithinLimits ∧ ∃ code : Code,
    code.code.length ≤ maxCodeLength ∧ code.attributes.length ≤ 4 ∧ Sourced code.code pool ∧
    ∃ a ∈ info.attributes, a.Holds pool (.code code)
  exceptions : method.exceptions ≠ [] → ∃ classes : List UInt16,
    classes.length = method.exceptions.length ∧
    ∃ a ∈ info.attributes, a.Holds pool (.exceptions classes)

theorem MethodDecl.Made.stocked {pool : Pool} (made : method.Made info pool)
    (stocked : pool.Stocked later) : method.Made info later where
  access := made.access
  few := made.few
  body some := by
    obtain ⟨within, code, short, few, sourced, a, member, holds⟩ := made.body some
    exact ⟨within, code, short, few, sourced.stocked stocked, a, member, holds.stocked stocked⟩
  exceptions some := by
    obtain ⟨classes, length, a, member, holds⟩ := made.exceptions some
    exact ⟨classes, length, a, member, holds.stocked stocked⟩

namespace Build

variable {made : List Attribute} {field : FieldDecl}
variable {hierarchy : ClassGraph} {settings : Settings} {thisClass : BinaryName}

theorem answers_codeOf {pool : Pool}
    (run : codeOf hierarchy settings thisClass method body pool = .ok code later) :
    code.attributes.length ≤ 4 := by
  obtain ⟨wide, pool1, b, ran, rfl⟩ := codeOf_attempt run
  obtain ⟨s, complete, _, c, rest, _, finished⟩ := Lowering.attempt_ok ran
  obtain ⟨_, _, _, made⟩ := Asm.finish_finished finished
  exact made.length_attributes

theorem classRefs_ok {names : List BinaryName} {indices : List UInt16}
    (run : (names.mapM fun name => pool (Pool.classRef (.object name))) start = .ok indices later) :
    start.Stocked later ∧ indices.length = names.length := by
  refine ⟨Stocks.mapM (fun name => stocks_classRef _) names run, ?_⟩
  induction names generalizing start indices with
  | nil =>
    obtain ⟨rfl, _⟩ := estate_pure_ok.mp run
    rfl
  | cons name rest ih =>
    rw [List.mapM_cons] at run
    obtain ⟨index, between, first, run⟩ := estate_bind_ok.mp run
    obtain ⟨others, last, ran, run⟩ := estate_bind_ok.mp run
    cases run
    exact congrArg Nat.succ (ih ran)

theorem bodyOf_made (run : bodyOf hierarchy settings thisClass method start = .ok made later) :
    start.Stocked later ∧ made.length ≤ 1 ∧ (method.body ≠ none → method.WithinLimits ∧
      ∃ code : Code, code.code.length ≤ maxCodeLength ∧ code.attributes.length ≤ 4 ∧
        Sourced code.code later ∧ ∃ a ∈ made, a.Holds later (.code code)) := by
  unfold bodyOf at run
  cases known : method.body with
  | some body =>
    rw [known] at run
    obtain ⟨code, between, ran, run⟩ := estate_bind_ok.mp run
    obtain ⟨a, last, attributed, run⟩ := estate_bind_ok.mp run
    cases run
    obtain ⟨within, stocked⟩ := codeOf_within ran
    obtain ⟨sourced, short⟩ := sourced_codeOf ran
    have more := stocks_attributeOf _ attributed
    exact ⟨stocked.trans more, le_rfl, fun _ => ⟨within, code, short, answers_codeOf ran,
      sourced.stocked more, a, List.mem_singleton_self a, attributeOf_holds attributed⟩⟩
  | none =>
    rw [known] at run
    cases run
    exact ⟨.refl, Nat.zero_le _, absurd rfl⟩

theorem exceptionsOf_made (run : exceptionsOf method start = .ok made later) :
    start.Stocked later ∧ made.length ≤ 1 ∧ (method.exceptions ≠ [] →
      ∃ classes : List UInt16, classes.length = method.exceptions.length ∧
        ∃ a ∈ made, a.Holds later (.exceptions classes)) := by
  unfold exceptionsOf at run
  cases known : method.exceptions with
  | nil =>
    rw [known] at run
    cases run
    exact ⟨.refl, Nat.zero_le _, absurd rfl⟩
  | cons head names =>
    rw [known] at run
    obtain ⟨classes, between, ran, run⟩ := estate_bind_ok.mp run
    obtain ⟨a, last, attributed, run⟩ := estate_bind_ok.mp run
    cases run
    obtain ⟨stocked, length⟩ := classRefs_ok ran
    exact ⟨stocked.trans (stocks_attributeOf _ attributed), le_rfl, fun _ =>
      ⟨classes, length, a, List.mem_singleton_self a, attributeOf_holds attributed⟩⟩

theorem methodOf_made (run : methodOf hierarchy settings thisClass method start = .ok info later) :
    start.Stocked later ∧ method.Made info later := by
  obtain ⟨code, p1, coded, run⟩ := estate_bind_ok.mp run
  obtain ⟨exceptions, p2, listed, run⟩ := estate_bind_ok.mp run
  obtain ⟨name, p3, named, run⟩ := estate_bind_ok.mp run
  obtain ⟨descriptor, p4, described, run⟩ := estate_bind_ok.mp run
  cases run
  obtain ⟨stocked1, one, body⟩ := bodyOf_made coded
  obtain ⟨stocked2, other, thrown⟩ := exceptionsOf_made listed
  have tail : p2.Stocked later := (stocks_utf8 _ named).trans (stocks_utf8 _ described)
  have more := stocked2.trans tail
  refine ⟨stocked1.trans more, rfl, ?_, fun some => ?_, fun some => ?_⟩
  · rw [List.length_append]
    omega
  · obtain ⟨within, found, short, few, sourced, a, member, holds⟩ := body some
    exact ⟨within, found, short, few, sourced.stocked more, a, List.mem_append_left _ member,
      holds.stocked more⟩
  · obtain ⟨classes, length, a, member, holds⟩ := thrown some
    exact ⟨classes, length, a, List.mem_append_right _ member, holds.stocked tail⟩

theorem constantOf_made (run : constantOf field start = .ok made later) :
    start.Stocked later ∧ made.length ≤ 1 := by
  unfold constantOf at run
  cases known : field.constantValue? with
  | some constant =>
    rw [known] at run
    obtain ⟨index, between, put, run⟩ := estate_bind_ok.mp run
    obtain ⟨a, last, attributed, run⟩ := estate_bind_ok.mp run
    cases run
    exact ⟨(stocks_put _ put).trans (stocks_attributeOf _ attributed), le_rfl⟩
  | none =>
    rw [known] at run
    cases run
    exact ⟨.refl, Nat.zero_le _⟩

theorem fieldOf_made {info : MemberInfo .ofField} (run : fieldOf field start = .ok info later) :
    start.Stocked later ∧ info.access = field.access ∧ info.attributes.length ≤ 1 := by
  obtain ⟨name, p1, named, run⟩ := estate_bind_ok.mp run
  obtain ⟨descriptor, p2, described, run⟩ := estate_bind_ok.mp run
  obtain ⟨attributes, p3, valued, run⟩ := estate_bind_ok.mp run
  cases run
  obtain ⟨stocked, few⟩ := constantOf_made valued
  exact ⟨(stocks_utf8 _ named).trans ((stocks_utf8 _ described).trans stocked), rfl, few⟩

theorem stocks_innerClass (name : BinaryName) (nesting : Nesting) :
    Stocks (innerClass name nesting) := by
  refine (stocks_classRef _).bind fun inner => ?_
  split
  · exact (stocks_classRef _).bind fun _ => (stocks_utf8 _).bind fun _ => stocks_pure _
  · exact stocks_pure _

theorem stocks_addInnerClasses (seen : List BinaryName) (entries : List InnerClass)
    (names : List BinaryName) : Stocks (addInnerClasses hierarchy seen entries names) := by
  induction names generalizing seen entries with
  | nil => exact stocks_pure _
  | cons name rest ih =>
    unfold addInnerClasses
    split
    · exact (stocks_innerClass _ _).bind fun _ => ih _ _
    · exact ih _ _

theorem stocks_innerClassesFrom (seen : List BinaryName) (entries : List InnerClass) (rounds : Nat) :
    Stocks (innerClassesFrom hierarchy thisClass seen entries rounds) := by
  induction rounds generalizing seen entries with
  | zero => exact stocks_pure _
  | succ rounds ih =>
    have start : Stocks (get : Build Pool) := fun _ _ _ run => by cases run; exact .refl
    refine start.bind fun pool => (stocks_addInnerClasses _ _ _).bind fun result => ?_
    dsimp only
    split
    · exact stocks_pure _
    · exact ih _ _

theorem sourceFileOf_made (run : sourceFileOf settings sourceFile start = .ok made later) :
    start.Stocked later ∧ made.length ≤ 1 ∧
      ∀ a ∈ made, ∃ index, a.Holds later (.sourceFile index) := by
  unfold sourceFileOf at run
  rcases sourceFile with _ | name
  · cases known : settings.sourceFile <;> rw [known] at run <;>
      obtain ⟨rfl, rfl⟩ := estate_pure_ok.mp run <;> exact ⟨.refl, Nat.zero_le _, nofun⟩
  cases known : settings.sourceFile <;> rw [known] at run
  · cases run
    exact ⟨.refl, Nat.zero_le _, nofun⟩
  · obtain ⟨index, p1, put, run⟩ := estate_bind_ok.mp run
    obtain ⟨a, p2, attributed, run⟩ := estate_bind_ok.mp run
    cases run
    refine ⟨(stocks_utf8 _ put).trans (stocks_attributeOf _ attributed), le_rfl, ?_⟩
    exact List.forall_mem_singleton.mpr ⟨index, attributeOf_holds attributed⟩

end Build

namespace ClassDecl

/-- The methods of the class file: those that are declared, and one that initializes the class. -/
def allMethods (decl : ClassDecl) : List MethodDecl :=
  decl.methods.map decl.withInitializers ++ decl.classInitializer?.toList

/-- What comes of a declaration, with the constants in the pool. -/
structure Made (decl : ClassDecl) (file : ClassFile) (pool : Pool) : Prop where
  stocked : Pool.empty.Stocked pool
  constants : file.constants = pool.constants
  access : file.access = if decl.isInterface then decl.access.without AccessFlags.superBit
    else decl.access
  superclass : ∀ index ∈ file.superclass, ∃ type, pool.get? (.classRef type) = some index
  interfaces : file.interfaces.length = decl.interfaces.length
  fields : List.Forall₂ (fun (field : FieldDecl) (info : MemberInfo .ofField) =>
    info.access = field.access ∧ info.attributes.length ≤ 1) decl.fields file.fields
  methods : List.Forall₂ (fun method info => method.Made info pool) decl.allMethods file.methods
  few : file.attributes.length ≤ 2

end ClassDecl

namespace ClassBuild

variable {decl : ClassDecl}

theorem within_ok {α : Type} {method : Option String} {action : Build α} {a : α} :
    within method action start = .ok a later ↔ action start = .ok a later := by
  unfold within
  cases action start <;> simp

theorem header_made {thisClass : UInt16} {superclass : Option UInt16} {interfaces : List UInt16}
    (run : header decl start = .ok (thisClass, superclass, interfaces) later) :
    start.Stocked later ∧ interfaces.length = decl.interfaces.length ∧
      ∀ index ∈ superclass, ∃ type, later.get? (.classRef type) = some index := by
  obtain ⟨own, p1, named, run⟩ := estate_bind_ok.mp run
  have first := Build.stocks_classRef _ named
  have tail {p : Pool} {found : Option UInt16} (run : (do
      let interfaces ← decl.interfaces.mapM fun name => Build.pool (Pool.classRef (.object name))
      return (own, found, interfaces) : Build _) p = .ok (thisClass, superclass, interfaces) later) :
      found = superclass ∧ p.Stocked later ∧ interfaces.length = decl.interfaces.length := by
    obtain ⟨indices, p', listed, run⟩ := estate_bind_ok.mp run
    obtain ⟨same, rfl⟩ := estate_pure_ok.mp run
    cases same
    exact ⟨rfl, Build.classRefs_ok listed⟩
  by_cases top : decl.name = .object
  · rw [if_pos top] at run
    obtain ⟨_, p2, none, run⟩ := estate_bind_ok.mp run
    cases none
    obtain ⟨rfl, stocked, length⟩ := tail run
    exact ⟨first.trans stocked, length, nofun⟩
  · rw [if_neg top] at run
    obtain ⟨_, p2, above, run⟩ := estate_bind_ok.mp run
    obtain ⟨rfl, stocked, length⟩ := tail run
    obtain ⟨index, p3, ran, made⟩ := estate_bind_ok.mp above
    cases made
    have more := Build.stocks_classRef _ ran
    have known := ((Pool.interns_put (.classRef _)).extends (Build.pool_ok.mp ran)).2
    refine ⟨first.trans (more.trans stocked), length, fun other same => ?_⟩
    cases same
    exact ⟨_, stocked.grows.extends.get? known⟩

/-- The class file of a declaration has all its parts, each made from what is declared. -/
theorem classFileOf_made {hierarchy : ClassGraph}
    (run : classFileOf hierarchy settings sourceFile decl .empty = .ok file later) :
    decl.Made file later ∧ ∃ p1 p2 p3 source rows nested,
      Build.sourceFileOf settings sourceFile p1 = .ok source p2 ∧
      Build.innerClasses hierarchy decl.name p2 = .ok rows p3 ∧
      file.attributes = source ++ nested ∧ (rows = [] ∧ nested = [] ∧ later = p3 ∨
        rows ≠ [] ∧ ∃ a, nested = [a] ∧ Build.attributeOf (.innerClasses rows) p3 = .ok a later) := by
  obtain ⟨⟨thisClass, superclass, interfaces⟩, p1, headed, run⟩ := estate_bind_ok.mp run
  obtain ⟨fields, p2, fielded, run⟩ := estate_bind_ok.mp run
  obtain ⟨methods, p3, compiled, run⟩ := estate_bind_ok.mp run
  obtain ⟨source, p4, sourced, run⟩ := estate_bind_ok.mp run
  obtain ⟨nested, p5, inner, run⟩ := estate_bind_ok.mp run
  obtain ⟨first, length, known⟩ := header_made (within_ok.mp headed)
  obtain ⟨second, eachField⟩ := Pool.mapM_ok
    (fun (field : FieldDecl) (info : MemberInfo .ofField) _ =>
      info.access = field.access ∧ info.attributes.length ≤ 1)
    (fun _ run => Build.fieldOf_made run) (fun good _ => good) first (within_ok.mp fielded)
  obtain ⟨third, eachMethod⟩ := Pool.mapM_ok (fun method info pool => method.Made info pool)
    (fun _ run => Build.methodOf_made (within_ok.mp run)) (fun made more => made.stocked more)
    (first.trans second) compiled
  obtain ⟨fourth, one, _⟩ := Build.sourceFileOf_made (within_ok.mp sourced)
  have fifth := Build.stocks_innerClassesFrom _ _ _ (within_ok.mp inner)
  have tail {p : Pool} {more : List Attribute} (stocked : p3.Stocked p) (few : more.length ≤ 1)
      (run : (do
        return {
          version := settings.version
          constants := (← get).constants
          access := if decl.isInterface then decl.access.without AccessFlags.superBit else decl.access
          thisClass, superclass, interfaces, fields, methods
          attributes := source ++ more } : ClassBuild ClassFile) p = .ok file later) :
      decl.Made file later ∧ file.attributes = source ++ more ∧ later = p := by
    obtain ⟨_, _, got, run⟩ := estate_bind_ok.mp run
    cases got
    cases run
    have after : p1.Stocked later := second.trans (third.trans stocked)
    refine ⟨⟨first.trans after, rfl, rfl, fun index member => ?_, length, eachField,
      eachMethod.imp fun _ _ made => made.stocked stocked, ?_⟩, rfl, rfl⟩
    · obtain ⟨type, found⟩ := known index member
      exact ⟨type, after.grows.extends.get? found⟩
    · rw [List.length_append]
      omega
  have before := fourth.trans fifth
  by_cases empty : nested.isEmpty = true
  · rw [if_pos empty] at run
    obtain ⟨_, _, none, run⟩ := estate_bind_ok.mp run
    cases none
    obtain ⟨made, attributes, rfl⟩ := tail before (Nat.zero_le _) run
    exact ⟨made, _, _, _, source, nested, [], within_ok.mp sourced, within_ok.mp inner, attributes,
      .inl ⟨List.isEmpty_iff.mp empty, rfl, rfl⟩⟩
  · rw [if_neg empty] at run
    obtain ⟨_, p6, listed, run⟩ := estate_bind_ok.mp run
    obtain ⟨a, p7, attributed, made⟩ := estate_bind_ok.mp listed
    cases made
    obtain ⟨whole, attributes, rfl⟩ :=
      tail (before.trans (Build.stocks_attributeOf _ (within_ok.mp attributed))) le_rfl run
    exact ⟨whole, _, _, _, source, nested, [a], within_ok.mp sourced, within_ok.mp inner, attributes,
      .inr ⟨fun none => empty (List.isEmpty_iff.mpr none), a, rfl, within_ok.mp attributed⟩⟩

end ClassBuild

end ClassForge
