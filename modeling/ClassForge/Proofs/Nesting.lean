import ClassForge.Proofs.Limits

namespace ClassForge

namespace Pool

variable {pool later : Pool} {name : BinaryName}

def Listed (pool : Pool) : Prop :=
  ∀ text index, pool.indexOf? (.classRef text) = some index →
    ∃ type ∈ pool.classes, pool.get? (.utf8 type.constantName) = some text

theorem listed_empty : empty.Listed := by
  intro text index known
  rw [indexOf?_empty] at known
  cases known

theorem Listed.adds (listed : pool.Listed) (adds : Adds False pool later) : later.Listed := by
  intro text index known
  cases adds with
  | @push constant fresh _ ordinary =>
    rw [indexOf?_push] at known
    split at known
    · next same => exact (same ▸ ordinary : (Constant.classRef text).IsOrdinary).elim
    · obtain ⟨type, member, named⟩ := listed text index known
      exact ⟨type, member, extends_push fresh _ _ named⟩
  | @note type name named fresh =>
    change (pool.push (.classRef name)).indexOf? _ = _ at known
    rw [indexOf?_push] at known
    split at known
    · next same =>
      cases same
      exact ⟨type, Array.mem_push_self, extends_push fresh _ _ named⟩
    · obtain ⟨type, member, named⟩ := listed text index known
      exact ⟨type, Array.mem_push_of_mem _ member, extends_push fresh _ _ named⟩

theorem Listed.grows (listed : pool.Listed) (grows : Grows False pool later) : later.Listed := by
  induction grows with
  | refl => exact listed
  | tail _ adds ih => exact ih.adds adds

theorem Stocked.isClass_iff (stocked : empty.Stocked pool) (index : UInt16) :
    (∃ text, pool.constants.get? index.toNat = some (.classRef text)) ↔
      ∃ type ∈ pool.classes, pool.get? (.classRef type) = some index := by
  have sound := sound_empty.grows stocked.grows
  constructor
  · rintro ⟨text, here⟩
    have known := (sound.indexed _ _).mpr here
    obtain ⟨type, member, named⟩ := listed_empty.grows stocked.grows text index known
    exact ⟨type, member, get?_classRef.mpr ⟨text, named, known⟩⟩
  · rintro ⟨type, _, known⟩
    obtain ⟨text, _, found⟩ := get?_classRef.mp known
    exact ⟨text, (sound.indexed _ _).mp found⟩

theorem classes_of_utf8 {text : String} {index : UInt16} (run : utf8 text pool = .ok index later) :
    later.classes = pool.classes := by
  rw [utf8, estate_get_bind] at run
  cases known : pool.indexOf? (.utf8 text) with
  | some index =>
    rw [known] at run
    cases run
    rfl
  | none =>
    rw [known] at run
    dsimp only at run
    split at run
    · cases run
    rcases add_cases (.utf8 text) pool with ⟨e, failed⟩ | ⟨_, added⟩
    · rw [failed] at run
      cases run
    · rw [added] at run
      cases run
      rfl

/-- The class is one of those with a class constant, or the class of their elements. -/
def Refers (pool : Pool) (name : BinaryName) : Prop :=
  ∃ type ∈ pool.classes, classOf? type = some name

theorem Refers.stocked (refers : pool.Refers name) (stocked : pool.Stocked later) :
    later.Refers name := by
  have grows := stocked.grows
  clear stocked
  induction grows with
  | refl => exact refers
  | tail _ adds ih =>
    obtain ⟨type, member, found⟩ := ih
    cases adds with
    | push => exact ⟨type, member, found⟩
    | note => exact ⟨type, Array.mem_push_of_mem _ member, found⟩

theorem Stocked.refers (stocked : empty.Stocked pool) {index : UInt16}
    (known : pool.get? (.classRef (.object name)) = some index)
    (plain : name.text.toList.head? ≠ some '[') : pool.Refers name := by
  have sound := sound_empty.grows stocked.grows
  obtain ⟨text, _, found⟩ := get?_classRef.mp known
  obtain ⟨type, member, same⟩ := (stocked.isClass_iff index).mp ⟨text, (sound.indexed _ _).mp found⟩
  have texts := Option.some.inj ((sound.className? same).symm.trans (sound.className? known))
  refine ⟨type, member, ?_⟩
  cases type with
  | object other => exact congrArg (fun text => some (BinaryName.mk text)) texts
  | objectArray _ _ | primitiveArray _ _ =>
    refine absurd ?_ plain
    rw [← show _ = name.text from texts]
    exact congrArg List.head? String.toList_ofList

theorem mem_foldl_classOf? (types : List RefType) (seen : Std.HashSet BinaryName)
    (found : Array BinaryName) (same : ∀ name, name ∈ seen ↔ name ∈ found) :
    name ∈ (types.foldl (fun ((seen, found) : Std.HashSet BinaryName × Array BinaryName) type =>
      match classOf? type with
      | some name =>
        if seen.contains name then (seen, found) else (seen.insert name, found.push name)
      | none => (seen, found)) (seen, found)).2 ↔
    name ∈ found ∨ ∃ type ∈ types, classOf? type = some name := by
  induction types generalizing seen found with
  | nil => simp
  | cons type types ih =>
    rw [List.foldl_cons]
    cases known : classOf? type with
    | none =>
      rw [ih seen found same]
      simp [known]
    | some other =>
      dsimp only
      split
      · next old =>
        rw [ih seen found same]
        have member := (same other).mp old
        grind
      · rw [ih _ _ fun name => by rw [Std.HashSet.mem_insert, Array.mem_push, same, beq_iff_eq,
          or_comm, eq_comm]]
        grind

theorem mem_referencedClasses : name ∈ pool.referencedClasses ↔ pool.Refers name := by
  unfold referencedClasses
  dsimp only
  rw [← Array.foldl_toList, Array.mem_toList_iff]
  refine (mem_foldl_classOf? _ _ _ (by simp)).trans ?_
  simp [Refers]

end Pool

/-- The row says of the class what the hierarchy knows about it. -/
def InnerClass.Describes (hierarchy : ClassGraph) (pool : Pool) (name : BinaryName)
    (row : InnerClass) : Prop :=
  ∃ nesting, hierarchy.nesting name = some nesting ∧ row.access = nesting.access ∧
    pool.get? (.classRef (.object name)) = some row.inner ∧
    match nesting.simpleName with
    | some simpleName => pool.get? (.classRef (.object nesting.outer)) = some row.outer ∧
        pool.get? (.utf8 simpleName.text) = some row.name
    | none => row.outer = 0 ∧ row.name = 0

theorem InnerClass.Describes.stocked {hierarchy : ClassGraph} {pool later : Pool}
    {name : BinaryName} {row : InnerClass} (describes : row.Describes hierarchy pool name)
    (stocked : pool.Stocked later) : row.Describes hierarchy later name := by
  have more := stocked.grows.extends
  obtain ⟨nesting, known, access, inner, outer⟩ := describes
  refine ⟨nesting, known, access, more.get? inner, ?_⟩
  cases simple : nesting.simpleName with
  | none =>
    rw [simple] at outer
    exact outer
  | some simpleName =>
    rw [simple] at outer
    exact ⟨more.get? outer.1, more.get? outer.2⟩

namespace Build

variable {hierarchy : ClassGraph} {thisClass name : BinaryName} {pool later : Pool}
  {seen found names : List BinaryName} {entries rows : List InnerClass}

theorem put_ok (value : PoolValue) {index : UInt16}
    (run : Build.pool (Pool.put value) pool = .ok index later) :
    pool.Stocked later ∧ later.get? value = some index :=
  ⟨stocks_put value run, ((Pool.interns_put value).extends (pool_ok.mp run)).2⟩

theorem innerClass_ok {nesting : Nesting} {row : InnerClass}
    (known : hierarchy.nesting name = some nesting)
    (run : innerClass name nesting pool = .ok row later) :
    pool.Stocked later ∧ row.Describes hierarchy later name := by
  obtain ⟨inner, p1, put, run⟩ := estate_bind_ok.mp run
  obtain ⟨first, named⟩ := put_ok (.classRef _) put
  cases simple : nesting.simpleName with
  | none =>
    rw [simple] at run
    cases run
    exact ⟨first, nesting, known, rfl, named, by rw [simple]; exact ⟨rfl, rfl⟩⟩
  | some simpleName =>
    rw [simple] at run
    obtain ⟨outer, p2, put, run⟩ := estate_bind_ok.mp run
    obtain ⟨text, p3, put', run⟩ := estate_bind_ok.mp run
    cases run
    obtain ⟨second, placed⟩ := put_ok (.classRef _) put
    obtain ⟨third, spelled⟩ := put_ok (.utf8 _) put'
    refine ⟨first.trans (second.trans third), nesting, known, rfl,
      third.grows.extends.get? (second.grows.extends.get? named), ?_⟩
    rw [simple]
    exact ⟨third.grows.extends.get? placed, spelled⟩

/-- The classes that have rows so far, latest first. -/
structure Listing (hierarchy : ClassGraph) (thisClass : BinaryName) (pool : Pool)
    (seen : List BinaryName) (entries : List InnerClass) : Prop where
  nodup : seen.Nodup
  rows : List.Forall₂ (InnerClass.Describes hierarchy pool) seen entries
  used : ∀ name ∈ seen, name = thisClass ∨ pool.Refers name

theorem candidates : ∀ name ∈ thisClass :: pool.referencedClasses,
    name = thisClass ∨ pool.Refers name :=
  fun _ member => (List.mem_cons.mp member).imp_right Pool.mem_referencedClasses.mp

namespace Listing

variable (listing : Listing hierarchy thisClass pool seen entries)
include listing

theorem nested (member : name ∈ seen) : ∃ nesting, hierarchy.nesting name = some nesting := by
  obtain ⟨row, _, nesting, known, _⟩ := exists_of_forall₂ listing.rows.flip member
  exact ⟨nesting, known⟩

theorem length_le : seen.length ≤ hierarchy.classes.length := by
  have subset : seen ⊆ hierarchy.classes.map (·.1) := by
    intro name member
    obtain ⟨nesting, known⟩ := listing.nested member
    obtain ⟨data, listed, _⟩ := ClassGraph.mem_of_nesting known
    exact List.mem_map_of_mem listed
  simpa using (listing.nodup.subperm subset).length_le

theorem round (used : ∀ name ∈ names, name = thisClass ∨ pool.Refers name)
    (run : addInnerClasses hierarchy seen entries names pool = .ok (found, rows) later) :
    Listing hierarchy thisClass later found rows ∧ seen ⊆ found ∧
      (∀ name ∈ names, (hierarchy.nesting name).isSome → name ∈ found) ∧
      (found = seen ∧ rows = entries ∧ later = pool ∨ seen.length < found.length) := by
  induction names generalizing seen entries pool with
  | nil =>
    obtain ⟨same, rfl⟩ := estate_pure_ok.mp run
    cases same
    exact ⟨listing, List.Subset.refl _, nofun, .inl ⟨rfl, rfl, rfl⟩⟩
  | cons name names ih =>
    obtain ⟨own, others⟩ := List.forall_mem_cons.mp used
    unfold addInnerClasses at run
    generalize known : (if seen.contains name then none else hierarchy.nesting name) = choice at run
    cases choice with
    | some nesting =>
      obtain ⟨fresh, known⟩ : name ∉ seen ∧ hierarchy.nesting name = some nesting := by
        simpa using known
      obtain ⟨row, between, ran, run⟩ := estate_bind_ok.mp run
      obtain ⟨stocked, describes⟩ := innerClass_ok known ran
      have more : Listing hierarchy thisClass between (name :: seen) (row :: entries) :=
        ⟨listing.nodup.cons fresh,
          .cons describes (listing.rows.imp fun _ _ old => old.stocked stocked), List.forall_mem_cons.mpr ⟨own.imp_right (·.stocked stocked),
            fun name member => (listing.used name member).imp_right (·.stocked stocked)⟩⟩
      obtain ⟨last, subset, complete, longer⟩ :=
        ih more (fun name member => (others name member).imp_right (·.stocked stocked)) run
      refine ⟨last, fun name member => subset (.tail _ member),
        List.forall_mem_cons.mpr ⟨fun _ => subset (.head _), complete⟩, .inr ?_⟩
      rcases longer with ⟨rfl, _⟩ | longer
      · exact Nat.lt_succ_self _
      · exact (Nat.lt_succ_self _).trans longer
    | none =>
      obtain ⟨last, subset, complete, same⟩ := ih listing others run
      refine ⟨last, subset, List.forall_mem_cons.mpr ⟨fun nested => ?_, complete⟩, same⟩
      by_cases old : name ∈ seen
      · exact subset old
      · simp only [List.contains_eq_mem, old, decide_false, Bool.false_eq_true, if_false] at known
        rw [known] at nested
        cases nested

theorem complete {rounds : Nat} (enough : hierarchy.classes.length < rounds + seen.length)
    (run : innerClassesFrom hierarchy thisClass seen entries rounds pool = .ok rows later) :
    ∃ names, Listing hierarchy thisClass later names rows ∧
      ∀ name, (hierarchy.nesting name).isSome → name = thisClass ∨ later.Refers name →
        name ∈ names := by
  induction rounds generalizing seen entries pool with
  | zero =>
    have := listing.length_le
    omega
  | succ rounds ih =>
    obtain ⟨_, _, got, run⟩ := estate_bind_ok.mp run
    cases got
    obtain ⟨⟨found, rows'⟩, between, ran, rest⟩ := estate_bind_ok.mp run
    obtain ⟨last, _, complete, same⟩ := listing.round candidates ran
    dsimp only at rest
    split at rest
    · next none =>
      obtain ⟨rfl, rfl, rfl⟩ := same.resolve_right (by omega)
      cases rest
      refine ⟨found.reverse, ⟨List.nodup_reverse.mpr last.nodup,
        List.forall₂_reverse_iff.mpr last.rows, fun name member =>
          last.used name (List.mem_reverse.mp member)⟩, fun name nested used => ?_⟩
      refine List.mem_reverse.mpr (complete name (List.mem_cons.mpr ?_) nested)
      exact used.imp_right Pool.mem_referencedClasses.mpr
    · next some =>
      have longer := same.resolve_left fun none => some (none.1 ▸ rfl)
      exact ih last (by omega) rest

theorem settled {rounds : Nat} (enough : hierarchy.classes.length < rounds + seen.length)
    (more : Nat) : innerClassesFrom hierarchy thisClass seen entries (rounds + more) pool =
      innerClassesFrom hierarchy thisClass seen entries rounds pool := by
  induction rounds generalizing seen entries pool with
  | zero =>
    have := listing.length_le
    omega
  | succ rounds ih =>
    rw [Nat.succ_add]
    unfold innerClassesFrom
    refine (estate_bind_eq rfl).trans (Eq.trans ?_ (estate_bind_eq rfl).symm)
    cases ran : addInnerClasses hierarchy seen entries (thisClass :: pool.referencedClasses)
      pool with
    | error e between => exact (estate_bind_error ran).trans (estate_bind_error ran).symm
    | ok result between =>
      obtain ⟨last, _, _, same⟩ := listing.round candidates ran
      refine (estate_bind_eq ran).trans (Eq.trans ?_ (estate_bind_eq ran).symm)
      dsimp only
      split
      · rfl
      · next some =>
        have longer := same.resolve_left fun none => some (none.1 ▸ rfl)
        exact ih last (by omega)

end Listing

theorem classes_of_attributeOf {payload : Payload} {a : Attribute}
    (run : attributeOf payload pool = .ok a later) : later.classes = pool.classes := by
  obtain ⟨name, between, put, run⟩ := estate_bind_ok.mp run
  have same : between.classes = pool.classes := Pool.classes_of_utf8 (pool_ok.mp put)
  cases written : payload.encode with
  | error cause =>
    rw [written] at run
    cases run
  | ok info =>
    rw [written] at run
    obtain ⟨_, rfl⟩ := estate_pure_ok.mp run
    exact same

end Build

namespace ClassBuild

/-- The search for nested classes ends by itself. In the class file it leads to there is a row for
each nested class that is the class itself or that a class constant refers to, as a class or as the
class of the elements of an array, and for no other. -/
theorem innerClasses_complete (hierarchy : ClassGraph) (decl : ClassDecl) :
    (∀ more, Build.innerClassesFrom hierarchy decl.name [] [] (hierarchy.classes.length + 1 + more) =
      Build.innerClasses hierarchy decl.name) ∧
    ∀ settings sourceFile file pool,
      classFileOf hierarchy settings sourceFile decl .empty = .ok file pool →
      ∃ names rows source nested, names.Nodup ∧
        (∀ name, name ∈ names ↔
          (hierarchy.nesting name).isSome ∧ (name = decl.name ∨ pool.Refers name)) ∧
        List.Forall₂ (InnerClass.Describes hierarchy pool) names rows ∧
        file.attributes = source ++ nested ∧
        (∀ a ∈ source, ∃ index, a.Holds pool (.sourceFile index)) ∧
        (names = [] ∧ nested = [] ∨
          names ≠ [] ∧ ∃ a, nested = [a] ∧ a.Holds pool (.innerClasses rows)) ∧
        file.constants = pool.constants ∧
        ∀ index : UInt16, (∃ text, pool.constants.get? index.toNat = some (.classRef text)) ↔
          ∃ type ∈ pool.classes, pool.get? (.classRef type) = some index := by
  have start (pool : Pool) : Build.Listing hierarchy decl.name pool [] [] :=
    ⟨List.nodup_nil, .nil, nofun⟩
  refine ⟨fun more => funext fun pool => (start pool).settled (by simp) more, ?_⟩
  intro settings sourceFile file pool run
  obtain ⟨made, _, p2, p3, source, rows, nested, sourced, inner, attributes, last⟩ :=
    classFileOf_made run
  obtain ⟨names, listing, complete⟩ := (start p2).complete (by simp) inner
  have final : p3.Stocked pool ∧ pool.classes = p3.classes := by
    rcases last with ⟨_, _, rfl⟩ | ⟨_, a, _, attributed⟩
    · exact ⟨.refl, rfl⟩
    · exact ⟨Build.stocks_attributeOf _ attributed, Build.classes_of_attributeOf attributed⟩
  obtain ⟨stocked, classes⟩ := final
  have refers (name : BinaryName) : pool.Refers name ↔ p3.Refers name := by
    unfold Pool.Refers
    rw [classes]
  have none : names = [] ↔ rows = [] := by
    rw [← List.length_eq_zero_iff, listing.rows.length_eq, List.length_eq_zero_iff]
  refine ⟨names, rows, source, nested, listing.nodup, fun name => ?_,
    listing.rows.imp fun _ _ old => old.stocked stocked, attributes, fun a member => ?_, ?_,
    made.constants, made.stocked.isClass_iff⟩
  · rw [refers]
    refine ⟨fun member => ⟨?_, listing.used name member⟩, fun held => complete name held.1 held.2⟩
    obtain ⟨nesting, known⟩ := listing.nested member
    exact Option.isSome_iff_exists.mpr ⟨nesting, known⟩
  · obtain ⟨_, _, holds⟩ := Build.sourceFileOf_made sourced
    obtain ⟨index, held⟩ := holds a member
    exact ⟨index, held.stocked ((Build.stocks_innerClassesFrom _ _ _ inner).trans stocked)⟩
  · rw [none, Ne, none]
    rcases last with ⟨empty, nothing, _⟩ | ⟨some, a, single, attributed⟩
    · exact .inl ⟨empty, nothing⟩
    · exact .inr ⟨some, a, single, Build.attributeOf_holds attributed⟩

/-- A member of a member of a class. -/
def deepHierarchy : ClassGraph :=
  ⟨[(⟨"A$B"⟩, ⟨some .object, [], false, some ⟨⟨"A"⟩, some ⟨"B"⟩, ⟨0⟩⟩⟩),
    (⟨"A$B$C"⟩, ⟨some .object, [], false, some ⟨⟨"A$B"⟩, some ⟨"C"⟩, ⟨0⟩⟩⟩)]⟩

def deepClass : ClassDecl := ⟨⟨"A$B$C"⟩, ⟨0⟩, none, [], none, []⟩

theorem emits_deep : ∃ file pool,
    classFileOf deepHierarchy .default none deepClass .empty = .ok file pool := by
  have short : ∀ text ∈ ["A", "B", "C", "A$B", "A$B$C"], ModifiedUtf8.length text ≤ maxTextLength :=
    fun text member => short_of_toList (by revert text; decide)
  have each (name : BinaryName) (nesting : Nesting)
      (known : deepHierarchy.nesting name = some nesting) :
      Pool.Affords 5 (Build.innerClass name nesting) := by
    obtain ⟨data, member, nested⟩ := ClassGraph.mem_of_nesting known
    simp only [deepHierarchy, List.mem_cons, List.not_mem_nil, or_false, Prod.mk.injEq] at member
    rcases member with ⟨rfl, rfl⟩ | ⟨rfl, rfl⟩ <;> cases nested <;>
      exact (Build.affords_pool (Pool.affords_classRef _ (short _ (by decide)))).bind fun _ =>
        (Build.affords_pool (Pool.affords_classRef _ (short _ (by decide)))).bind fun _ =>
        (Build.affords_pool (Pool.affords_utf8 (short _ (by decide)))).bind fun _ =>
        Pool.affords_pure _
  obtain ⟨file, later, run, _⟩ := affords_classFileOf deepHierarchy .default deepClass
    (affords_header _ _ _ _ (short "A$B$C" (by decide)) (by decide)) rfl
    (Pool.affords_pure []) each .empty (by decide)
  exact ⟨file, later, run⟩

/-- The row of the class names the class around it, which so gets a row as well. -/
theorem innerClasses_complete_deep : ∃ file pool,
    classFileOf deepHierarchy .default none deepClass .empty = .ok file pool ∧
    ∃ rows, (∃ a ∈ file.attributes, a.Holds pool (.innerClasses rows)) ∧
      (∃ row ∈ rows, row.Describes deepHierarchy pool ⟨"A$B$C"⟩) ∧
      ∃ row ∈ rows, row.Describes deepHierarchy pool ⟨"A$B"⟩ := by
  obtain ⟨file, pool, run⟩ := emits_deep
  obtain ⟨names, rows, source, nested, _, exact, describes, attributes, _, last, _⟩ :=
    (innerClasses_complete deepHierarchy deepClass).2 _ _ file pool run
  have row {name : BinaryName} (member : name ∈ names) :
      ∃ row ∈ rows, row.Describes deepHierarchy pool name :=
    exists_of_forall₂ describes.flip member
  have own : ⟨"A$B$C"⟩ ∈ names := (exact _).mpr ⟨by decide, .inl rfl⟩
  have outer : ⟨"A$B"⟩ ∈ names := by
    refine (exact _).mpr ⟨by decide, .inr ?_⟩
    obtain ⟨_, _, nesting, known, _, _, placed⟩ := row own
    cases known
    obtain ⟨made, _⟩ := classFileOf_made run
    exact made.stocked.refers placed.1 (by decide)
  obtain ⟨_, a, rfl, holds⟩ := last.resolve_left fun none => List.ne_nil_of_mem own none.1
  exact ⟨file, pool, run, rows, ⟨a, by simp [attributes], holds⟩, row own, row outer⟩

end ClassBuild

end ClassForge
