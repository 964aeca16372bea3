import ClassForge.Proofs.Interning

namespace ClassForge

namespace Pool

variable {pool later last : Pool} {constant : Constant} {index : UInt16} {value : PoolValue}
  {strict : Prop} {name text : String} {content : Content}

/-- The lookups and the table of constants say the same. -/
structure Sound (pool : Pool) : Prop where
  packed : pool.constants.Packed
  start : pool.constants.start = 1
  room : pool.constants.next ≤ maxPoolOffset
  indexed : ∀ constant index,
    pool.indexOf? constant = some index ↔ pool.constants.get? index.toNat = some constant
  noted : ∀ type ∈ pool.classes, ∃ index, pool.get? (.classRef type) = some index

theorem Sound.neat (sound : pool.Sound) : pool.constants.Neat :=
  sound.packed.neat Constant.width_pos

theorem indexOf?_empty (constant : Constant) : empty.indexOf? constant = none :=
  Std.HashMap.getElem?_empty

theorem sound_empty : empty.Sound where
  packed := SlotSeq.packed_empty 1
  start := rfl
  room := by decide
  indexed constant index := by
    change _ ↔ (SlotSeq.empty 1 : ConstantTable).get? index.toNat = some constant
    rw [indexOf?_empty, (SlotSeq.neat_empty 1).get?_eq_some]
    constructor <;> nofun
  noted type member := absurd member (Array.not_mem_empty type)

theorem toNat_ofNat_next (room : pool.constants.next + constant.width ≤ maxPoolOffset) :
    (UInt16.ofNat pool.constants.next).toNat = pool.constants.next := by
  have limit : maxPoolOffset = 65535 := rfl
  exact UInt16.toNat_ofNat_of_lt' (by change _ < 65536; omega)

section

variable (sound : pool.Sound)

include sound

theorem Sound.push (fresh : pool.indexOf? constant = none)
    (room : pool.constants.next + constant.width ≤ maxPoolOffset) : (pool.push constant).Sound where
  packed := sound.packed.push
  start := sound.start
  room := room
  indexed other index := by
    have place := toNat_ofNat_next room
    change _ ↔ (pool.constants.push constant).get? index.toNat = some other
    rw [indexOf?_push, sound.neat.get?_push constant.width_pos, ← sound.indexed]
    split
    · next same =>
      cases same
      rw [fresh]
      constructor
      · intro given
        cases given
        exact .inr ⟨place, rfl⟩
      · rintro (old | ⟨last, _⟩)
        · cases old
        · rw [← last, UInt16.ofNat_toNat]
    · next differs =>
      constructor
      · exact .inl
      · rintro (old | ⟨_, same⟩)
        · exact old
        · exact absurd same.symm differs
  noted type member := by
    obtain ⟨index, known⟩ := sound.noted type member
    exact ⟨index, (extends_push fresh).get? known⟩

theorem Sound.adds (adds : Adds strict pool later) : later.Sound := by
  cases adds with
  | push fresh room => exact sound.push fresh room
  | note named fresh room =>
    have pushed := sound.push fresh room
    refine ⟨pushed.packed, pushed.start, pushed.room, pushed.indexed, fun type member => ?_⟩
    rcases Array.mem_push.mp member with old | rfl
    · exact pushed.noted type old
    · exact ⟨_, get?_classRef.mpr ⟨_, extends_push fresh _ _ named, indexOf?_pushed⟩⟩

theorem Sound.grows (grows : Grows strict pool later) : later.Sound := by
  induction grows with
  | refl => exact sound
  | tail _ adds ih => exact ih.adds adds

theorem Sound.table_grows (grows : Grows strict pool later)
    (known : pool.constants.get? index.toNat = some constant) :
    later.constants.get? index.toNat = some constant := by
  rw [← (sound.grows grows).indexed]
  exact grows.extends _ _ ((sound.indexed _ _).mpr known)

theorem Sound.nodup : pool.constants.toList.Nodup := by
  refine List.pairwise_map.mpr (sound.neat.sorted.imp_of_mem fun {first second} left right less => ?_)
  intro same
  have small {entry : Nat × Constant} (member : entry ∈ pool.constants.entries.toList) :
      pool.indexOf? entry.2 = some (UInt16.ofNat entry.1) := by
    have below := sound.neat.below entry member
    have room := sound.room
    have limit : maxPoolOffset = 65535 := rfl
    rw [sound.indexed, UInt16.toNat_ofNat_of_lt' (by change _ < 65536; omega)]
    exact sound.neat.get?_eq_some.mpr member
  have known := small left
  rw [same, small right, Option.some.injEq, ← UInt16.toNat_inj] at known
  have below := sound.neat.below _ right
  have room := sound.room
  have limit : maxPoolOffset = 65535 := rfl
  rw [UInt16.toNat_ofNat_of_lt' (by change _ < 65536; omega),
    UInt16.toNat_ofNat_of_lt' (by change _ < 65536; omega)] at known
  omega

end

section Contents

theorem Sound.text? (sound : pool.Sound) (known : pool.indexOf? (.utf8 text) = some index) :
    ConstantTable.text? pool.constants index = some text := by
  unfold ConstantTable.text?
  rw [(sound.indexed _ _).mp known]

theorem Sound.className? (sound : pool.Sound) {type : RefType}
    (known : pool.get? (.classRef type) = some index) :
    ConstantTable.className? pool.constants index = some type.constantName := by
  obtain ⟨name, named, found⟩ := get?_classRef.mp known
  unfold ConstantTable.className?
  rw [(sound.indexed _ _).mp found]
  exact sound.text? named

theorem Sound.nameAndType? (sound : pool.Sound) {descriptor : String}
    (known : pool.get? (.nameAndType name descriptor) = some index) :
    ConstantTable.nameAndType? pool.constants index = some (name, descriptor) := by
  obtain ⟨named, described, first, second, found⟩ := get?_nameAndType.mp known
  unfold ConstantTable.nameAndType?
  rw [(sound.indexed _ _).mp found]
  dsimp only
  rw [sound.text? first, sound.text? second]
  rfl

theorem Sound.content? (sound : pool.Sound) (known : pool.get? value = some index) :
    ConstantTable.content? pool.constants index = some value.content := by
  unfold ConstantTable.content?
  cases value with
  | string text =>
    obtain ⟨utf8, first, found⟩ := get?_string.mp known
    rw [(sound.indexed _ _).mp found]
    dsimp only
    rw [sound.text? first]
    rfl
  | classRef type =>
    obtain ⟨name, named, found⟩ := get?_classRef.mp known
    rw [(sound.indexed _ _).mp found]
    dsimp only
    rw [sound.text? named]
    rfl
  | nameAndType name descriptor =>
    obtain ⟨named, described, first, second, found⟩ := get?_nameAndType.mp known
    rw [(sound.indexed _ _).mp found]
    dsimp only
    rw [sound.text? first, sound.text? second]
    rfl
  | field ref =>
    obtain ⟨owner, member, first, second, found⟩ := get?_field.mp known
    rw [(sound.indexed _ _).mp found]
    dsimp only
    rw [sound.className? first, sound.nameAndType? second]
    rfl
  | method ref =>
    obtain ⟨owner, member, first, second, found⟩ := get?_method.mp known
    rw [(sound.indexed _ _).mp found]
    dsimp only
    rw [sound.className? first, sound.nameAndType? second]
    rfl
  | _ => rw [(sound.indexed _ _).mp known]; rfl

end Contents

/-- All that a constant refers to stands before it and is of the kind that it has to be. -/
def Linked (pool : Pool) : Prop :=
  ∀ entry ∈ pool.constants.entries.toList, entry.2.References (pool.constants.Before entry.1)

theorem linked_empty : empty.Linked := nofun

theorem Linked.push (sound : pool.Sound) (linked : pool.Linked)
    (placed : constant.References pool.Has) : (pool.push constant).Linked := by
  have keeps {offset : Nat} {kind : Constant → Prop} {index : UInt16}
      (before : pool.constants.Before offset kind index) :
      ConstantTable.Before (pool.constants.push constant) offset kind index := by
    obtain ⟨below, found, known, holds⟩ := before
    exact ⟨below, found, (sound.neat.get?_push constant.width_pos).mpr (.inl known), holds⟩
  intro entry member
  change entry ∈ (pool.constants.entries.push (pool.constants.next, constant)).toList at member
  rw [Array.toList_push] at member
  rcases List.mem_append.mp member with old | new
  · exact (linked entry old).imp fun _ _ => keeps
  · cases List.mem_singleton.mp new
    refine placed.imp fun kind index has => keeps ?_
    obtain ⟨found, known, holds⟩ := has
    have here := (sound.indexed _ _).mp known
    exact ⟨sound.neat.below _ (sound.neat.get?_eq_some.mp here), found, here, holds⟩

theorem Linked.adds (sound : pool.Sound) (linked : pool.Linked) (adds : Adds True pool later) :
    later.Linked := by
  cases adds with
  | push _ _ _ placed => exact linked.push sound (placed trivial)
  | note named => exact linked.push sound (show (Constant.classRef _).References _ from ⟨_, named, trivial⟩)

theorem Linked.grows (sound : pool.Sound) (linked : pool.Linked) (grows : Grows True pool later) :
    later.Linked := by
  induction grows with
  | refl => exact linked
  | tail before adds ih => exact ih.adds (sound.grows before) adds

section Again

variable {text name descriptor : String} {type : RefType}

theorem intern_of_indexOf? (known : pool.indexOf? constant = some index) :
    intern constant pool = .ok index pool := by
  rw [intern, estate_get_bind, known]
  rfl

theorem utf8_of_indexOf? (known : pool.indexOf? (.utf8 text) = some index) :
    utf8 text pool = .ok index pool := by
  rw [utf8, estate_get_bind, known]
  rfl

theorem classRef_of_get? (known : pool.get? (.classRef type) = some index) :
    classRef type pool = .ok index pool := by
  obtain ⟨name, named, found⟩ := get?_classRef.mp known
  refine estate_bind_ok.mpr ⟨name, pool, utf8_of_indexOf? named, ?_⟩
  rw [estate_get_bind, found]
  rfl

theorem nameAndType_of_get? (known : pool.get? (.nameAndType name descriptor) = some index) :
    nameAndType name descriptor pool = .ok index pool := by
  obtain ⟨named, described, first, second, found⟩ := get?_nameAndType.mp known
  refine estate_bind_ok.mpr ⟨named, pool, utf8_of_indexOf? first, ?_⟩
  exact estate_bind_ok.mpr ⟨described, pool, utf8_of_indexOf? second, intern_of_indexOf? found⟩

theorem put_of_get? (known : pool.get? value = some index) : put value pool = .ok index pool := by
  cases value with
  | utf8 => exact utf8_of_indexOf? known
  | string =>
    obtain ⟨utf8, first, found⟩ := get?_string.mp known
    exact estate_bind_ok.mpr ⟨utf8, pool, utf8_of_indexOf? first, intern_of_indexOf? found⟩
  | classRef => exact classRef_of_get? known
  | nameAndType => exact nameAndType_of_get? known
  | field =>
    obtain ⟨owner, member, first, second, found⟩ := get?_field.mp known
    refine estate_bind_ok.mpr ⟨owner, pool, classRef_of_get? first, ?_⟩
    exact estate_bind_ok.mpr ⟨member, pool, nameAndType_of_get? second, intern_of_indexOf? found⟩
  | method =>
    obtain ⟨owner, member, first, second, found⟩ := get?_method.mp known
    refine estate_bind_ok.mpr ⟨owner, pool, classRef_of_get? first, ?_⟩
    exact estate_bind_ok.mpr ⟨member, pool, nameAndType_of_get? second, intern_of_indexOf? found⟩
  | _ => exact intern_of_indexOf? known

end Again

/-- What can be asked of a pool. Strings and names with their types can also be asked for by the
indices of their texts. -/
inductive Request where
  | put (value : PoolValue)
  | utf8 (text : String)
  | classNamed (name : BinaryName)
  | field (ref : FieldRef)
  | method (ref : MethodRef)
  | loadable (constant : Loadable)
  | string (text : UInt16)
  | nameAndType (name descriptor : UInt16)

namespace Request

def perform : Request → PoolM UInt16
  | .put value => Pool.put value
  | .utf8 text => Pool.utf8 text
  | .classNamed name => Pool.classRef (.object name)
  | .field ref => Pool.fieldRef ref
  | .method ref => Pool.methodRef ref
  | .loadable constant => Pool.put constant.value
  | .string text => Pool.intern (.string text)
  | .nameAndType name descriptor => Pool.intern (.nameAndType name descriptor)

def after (request : Request) (pool : Pool) : Pool :=
  match request.perform pool with
  | .ok _ later | .error _ later => later

/-- The indices in the request are ones that the pool has given to texts. -/
def Given (pool : Pool) : Request → Prop
  | .string text => pool.Has Constant.IsText text
  | .nameAndType name descriptor =>
    pool.Has Constant.IsText name ∧ pool.Has Constant.IsText descriptor
  | _ => True

end Request

def run (requests : List Request) (pool : Pool) : Pool :=
  requests.foldl (fun pool request => request.after pool) pool

/-- The indices in every request are ones that the pool had given to texts by then. -/
def Given : List Request → Pool → Prop
  | [], _ => True
  | request :: rest, pool => request.Given pool ∧ Given rest (request.after pool)

theorem after_of_ok {request : Request} (ran : request.perform pool = .ok index later) :
    request.after pool = later := by
  unfold Request.after
  rw [ran]

theorem run_append (requests more : List Request) (pool : Pool) :
    run (requests ++ more) pool = run more (run requests pool) :=
  List.foldl_append

theorem has_of_get? (known : pool.get? value = some index) :
    ∃ constant, pool.indexOf? constant = some index := by
  cases value with
  | string =>
    obtain ⟨_, _, found⟩ := get?_string.mp known
    exact ⟨_, found⟩
  | classRef =>
    obtain ⟨_, _, found⟩ := get?_classRef.mp known
    exact ⟨_, found⟩
  | nameAndType =>
    obtain ⟨_, _, _, _, found⟩ := get?_nameAndType.mp known
    exact ⟨_, found⟩
  | field =>
    obtain ⟨_, _, _, _, found⟩ := get?_field.mp known
    exact ⟨_, found⟩
  | method =>
    obtain ⟨_, _, _, _, found⟩ := get?_method.mp known
    exact ⟨_, found⟩
  | _ => exact ⟨_, known⟩

theorem interns_perform (request : Request) (given : strict → request.Given pool) :
    Interns strict pool request.perform fun index later =>
      ∃ constant, later.indexOf? constant = some index := by
  cases request with
  | put value => exact (interns_put value).imp fun _ _ _ => has_of_get?
  | utf8 text => exact (interns_utf8 text).imp fun _ _ _ => has_of_get?
  | classNamed name => exact (interns_classRef _).imp fun _ _ _ => has_of_get?
  | field ref => exact (interns_put (.field ref)).imp fun _ _ _ => has_of_get?
  | method ref => exact (interns_put (.method ref)).imp fun _ _ _ => has_of_get?
  | loadable constant => exact (interns_put constant.value).imp fun _ _ _ => has_of_get?
  | string text =>
    have placed (strictly : strict) : (Constant.string text).References pool.Has := given strictly
    exact (interns_intern placed trivial).imp fun _ _ _ found => ⟨_, found⟩
  | nameAndType name descriptor =>
    have placed (strictly : strict) : (Constant.nameAndType name descriptor).References pool.Has :=
      given strictly
    exact (interns_intern placed trivial).imp fun _ _ _ found => ⟨_, found⟩

theorem grows_after (request : Request) (given : strict → request.Given pool) :
    Grows strict pool (request.after pool) := by
  have interns := interns_perform request given
  unfold Request.after
  cases ran : request.perform pool with
  | ok index later => exact (interns.ok ran).1
  | error e later => exact interns.error ran

theorem grows_run (requests : List Request) (given : strict → Given requests pool) :
    Grows strict pool (run requests pool) := by
  induction requests generalizing pool with
  | nil => exact .refl
  | cons request rest ih =>
    exact (grows_after request fun strictly => (given strictly).1).trans
      (ih fun strictly => (given strictly).2)

theorem sound_run (requests : List Request) : (run requests empty).Sound :=
  sound_empty.grows (grows_run requests False.elim)

section Growth

variable {table more : ConstantTable}

def Keeps (table more : ConstantTable) : Prop :=
  ∀ (index : UInt16) (constant : Constant),
    table.get? index.toNat = some constant → more.get? index.toNat = some constant

section

variable (keeps : Keeps table more)

include keeps

theorem Keeps.text? (known : table.text? index = some text) : more.text? index = some text := by
  unfold ConstantTable.text? at known ⊢
  split at known
  · next found =>
    rw [keeps _ _ found]
    exact known
  · cases known

theorem Keeps.className? (known : table.className? index = some name) :
    more.className? index = some name := by
  unfold ConstantTable.className? at known ⊢
  split at known
  · next found =>
    rw [keeps _ _ found]
    exact keeps.text? known
  · cases known

theorem Keeps.texts? {α : Type} {make : String → String → α} {made : α} {name descriptor : UInt16}
    (known : (do return make (← table.text? name) (← table.text? descriptor)) = some made) :
    (do return make (← more.text? name) (← more.text? descriptor)) = some made := by
  obtain ⟨_, first, known⟩ := Option.bind_eq_some_iff.mp known
  obtain ⟨_, second, known⟩ := Option.bind_eq_some_iff.mp known
  rw [keeps.text? first, keeps.text? second]
  exact known

theorem Keeps.nameAndType? {pair : String × String} (known : table.nameAndType? index = some pair) :
    more.nameAndType? index = some pair := by
  unfold ConstantTable.nameAndType? at known ⊢
  split at known
  · next found =>
    rw [keeps _ _ found]
    exact keeps.texts? known
  · cases known

theorem Keeps.member? (make : String → String → String → Content)
    {owner member : UInt16} (known : (do
      let owner ← table.className? owner
      let (name, descriptor) ← table.nameAndType? member
      return make owner name descriptor) = some content) :
    (do
      let owner ← more.className? owner
      let (name, descriptor) ← more.nameAndType? member
      return make owner name descriptor) = some content := by
  obtain ⟨_, first, known⟩ := Option.bind_eq_some_iff.mp known
  obtain ⟨_, second, known⟩ := Option.bind_eq_some_iff.mp known
  rw [keeps.className? first, keeps.nameAndType? second]
  exact known

theorem Keeps.content? (known : table.content? index = some content) :
    more.content? index = some content := by
  unfold ConstantTable.content? at known ⊢
  cases found : table.get? index.toNat with
  | none =>
    rw [found] at known
    cases known
  | some constant =>
    rw [found] at known
    rw [keeps _ _ found]
    cases constant with
    | string | classRef =>
      obtain ⟨_, first, known⟩ := Option.bind_eq_some_iff.mp known
      dsimp only
      rw [keeps.text? first]
      exact known
    | nameAndType => exact keeps.texts? known
    | fieldRef => exact keeps.member? .field known
    | methodRef owner member interface =>
      exact keeps.member? (fun owner name descriptor => .method owner name descriptor interface) known
    | _ => exact known

end

end Growth

/-- After any requests to a new pool, whether they could be answered or not: all indices can be
written, no constant is there twice, each lookup leads to the constant that it is for, and what was
answered once stays the index of the same constant, which still says the same. If the requests name
texts only by the indices that the pool has given them, each constant refers to constants before it
that are of the right kind. -/
theorem run_keeps (requests : List Request) :
    let pool := run requests empty
    pool.constants.next ≤ 65535 ∧ pool.constants.toList.Nodup ∧
    (∀ constant index, pool.indexOf? constant = some index →
      pool.constants.get? index.toNat = some constant) ∧
    (∀ value index, pool.get? value = some index →
      pool.constants.content? index = some value.content) ∧
    (∀ type ∈ pool.classes, ∃ index, pool.get? (.classRef type) = some index) ∧
    (∀ before request after index later, requests = before ++ request :: after →
      request.perform (run before empty) = .ok index later →
      ∃ constant, later.constants.get? index.toNat = some constant ∧
        pool.constants.get? index.toNat = some constant ∧
        ∀ content, later.constants.content? index = some content →
          pool.constants.content? index = some content) ∧
    (Given requests empty →
      ∀ entry ∈ pool.constants.entries.toList, entry.2.References (pool.constants.Before entry.1)) := by
  have sound := sound_run requests
  refine ⟨sound.room, sound.nodup, fun constant index => (sound.indexed constant index).mp,
    fun value index => sound.content?, sound.noted, ?_, fun given => ?_⟩
  · rintro before request after index later rfl ran
    obtain ⟨grows, constant, known⟩ := (interns_perform request False.elim).ok ran
    have sound' := (sound_run before).grows grows
    have rest : Grows False later (run (before ++ request :: after) empty) := by
      rw [run_append]
      change Grows False later (run after (request.after (run before empty)))
      rw [after_of_ok ran]
      exact grows_run after False.elim
    have here := (sound'.indexed constant index).mp known
    exact ⟨constant, here, sound'.table_grows rest here,
      fun content => Keeps.content? fun _ _ => sound'.table_grows rest⟩
  · exact linked_empty.grows sound_empty (grows_run requests fun _ => given)

section Fresh

variable {text : String}

theorem intern_of_fresh (fresh : pool.indexOf? constant = none)
    (room : pool.constants.next + constant.width ≤ maxPoolOffset) :
    intern constant pool = .ok (UInt16.ofNat pool.constants.next) (pool.push constant) := by
  rw [intern, estate_get_bind, fresh]
  exact add_of_room room

theorem utf8_of_fresh (fresh : pool.indexOf? (.utf8 text) = none)
    (short : ModifiedUtf8.length text ≤ maxTextLength)
    (room : pool.constants.next + (Constant.utf8 text).width ≤ maxPoolOffset) :
    utf8 text pool = .ok (UInt16.ofNat pool.constants.next) (pool.push (.utf8 text)) := by
  rw [utf8, estate_get_bind, fresh]
  dsimp only
  rw [if_neg (Nat.not_lt.mpr short)]
  exact add_of_room room

end Fresh

/-- A string that is asked for by the index of its text finds the text before it. -/
theorem run_keeps_string : Given [.utf8 "hi", .string 1] empty ∧
    ∀ entry ∈ (run [.utf8 "hi", .string 1] empty).constants.entries.toList,
      entry.2.References ((run [.utf8 "hi", .string 1] empty).constants.Before entry.1) := by
  have given : Given [.utf8 "hi", .string 1] empty := by
    have first : (Request.utf8 "hi").after empty = empty.push (.utf8 "hi") := by
      have short : ModifiedUtf8.length "hi" ≤ maxTextLength := by
        simp [ModifiedUtf8.length, maxTextLength, ModifiedUtf8.charLength]
      exact after_of_ok (utf8_of_fresh (indexOf?_empty _) short (by decide))
    refine ⟨trivial, ?_, trivial⟩
    rw [first]
    exact ⟨.utf8 "hi", by rw [indexOf?_push, if_pos rfl]; rfl, trivial⟩
  exact ⟨given, (run_keeps _).2.2.2.2.2.2 given⟩

/-- The pool does not look where a given index leads. -/
theorem unknown_text_dangles : ¬∀ requests,
    ∀ entry ∈ (run requests empty).constants.entries.toList,
      entry.2.References ((run requests empty).constants.Before entry.1) := by
  intro linked
  have run : run [.string 5] empty = empty.push (.string 5) :=
    after_of_ok (intern_of_fresh (indexOf?_empty (.string 5)) (by decide))
  have placed := linked [.string 5] (1, .string 5) (by rw [run]; exact .head _)
  exact absurd placed.1 (by decide)

/-- A value that has been put into a pool once keeps its index whatever is asked of the pool later.
It can be looked up, and to put it there again changes nothing. Another value gets the same index
exactly if it is the same constant. -/
theorem put_deduplicates (before after : List Request) {value : PoolValue} {index : UInt16}
    {pool : Pool} (put : Pool.put value (run before empty) = .ok index pool) :
    (run after pool).get? value = some index ∧
    Pool.put value (run after pool) = .ok index (run after pool) ∧
    ∀ other found later, value.Clear → other.Clear →
      Pool.put other (run after pool) = .ok found later →
      (index = found ↔ value.plain = other.plain) := by
  have interns (pool : Pool) (value : PoolValue) : Interns False pool (Pool.put value) _ :=
    interns_put value
  obtain ⟨grows, known⟩ := (interns _ value).ok put
  have more : Grows False pool (run after pool) := grows_run after False.elim
  have kept := more.extends.get? known
  refine ⟨kept, put_of_get? kept, fun other found later clear clear' put' => ?_⟩
  obtain ⟨again, known'⟩ := (interns _ other).ok put'
  have sound : later.Sound := (sound_run before).grows ((grows.trans more).trans again)
  have still := again.extends.get? kept
  constructor
  · rintro rfl
    have same := sound.content? still
    rw [sound.content? known', Option.some.injEq] at same
    exact PoolValue.plain_eq_of_content clear clear' same.symm
  · intro same
    rw [← get?_plain, same, get?_plain, known', Option.some.injEq] at still
    exact still.symm

/-- A class that is put into an empty pool comes after its name. -/
theorem put_deduplicates_class : ∃ pool, Pool.put (.classRef (.object ⟨"p/A"⟩)) empty = .ok 2 pool ∧
    pool.get? (.classRef (.object ⟨"p/A"⟩)) = some 2 ∧
    Pool.put (.classRef (.object ⟨"p/A"⟩)) pool = .ok 2 pool ∧
    ∀ other found later, other.Clear → Pool.put other pool = .ok found later →
      (2 = found ↔ .classRef (.object ⟨"p/A"⟩) = other.plain) := by
  have short : ModifiedUtf8.length "p/A" ≤ maxTextLength := by
    simp [ModifiedUtf8.length, maxTextLength, ModifiedUtf8.charLength]
  have put : Pool.put (.classRef (.object ⟨"p/A"⟩)) empty = .ok 2
      { (empty.push (.utf8 "p/A")).push (.classRef 1) with classes := #[.object ⟨"p/A"⟩] } := by
    refine estate_bind_ok.mpr ⟨1, empty.push (.utf8 "p/A"),
      utf8_of_fresh (indexOf?_empty _) short (by decide), ?_⟩
    rw [estate_get_bind, indexOf?_push, if_neg (by decide), indexOf?_empty]
    exact estate_bind_ok.mpr ⟨2, _, add_of_room (by decide), rfl⟩
  have valid : BinaryName.Valid ⟨"p/A"⟩ := by
    unfold BinaryName.Valid
    decide
  obtain ⟨known, again, same⟩ := put_deduplicates [] [] put
  exact ⟨_, put, known, again, fun other found later => same other found later valid.clear⟩

end Pool

end ClassForge
