import ClassForge.Descriptor.Parser
import ClassForge.Proofs.DescriptorText

namespace ClassForge

section Characters

variable {p : Char → Bool} {front rest : List Char}

theorem takeWhile_exact (inside : ∀ c ∈ front, p c = true)
    (boundary : ∀ c, rest.head? = some c → p c = false) : (front ++ rest).takeWhile p = front := by
  rw [List.takeWhile_append_of_pos inside]
  cases rest with
  | nil => rw [List.takeWhile_nil, List.append_nil]
  | cons c rest => rw [List.takeWhile_cons_of_neg (by simp [boundary c rfl]), List.append_nil]

theorem dropWhile_exact (inside : ∀ c ∈ front, p c = true)
    (boundary : ∀ c, rest.head? = some c → p c = false) : (front ++ rest).dropWhile p = rest := by
  rw [List.dropWhile_append_of_pos inside]
  cases rest with
  | nil => rfl
  | cons c rest => rw [List.dropWhile_cons_of_neg (by simp [boundary c rfl])]

theorem leading_append (cs : List Char) (c : Char) :
    List.replicate (cs.takeWhile (· == c)).length c ++ cs.dropWhile (· == c) = cs := by
  have leading : cs.takeWhile (· == c) = List.replicate (cs.takeWhile (· == c)).length c := by
    rw [List.eq_replicate_iff]
    refine ⟨rfl, fun d member => ?_⟩
    have all := List.all_eq_true.mp (List.all_takeWhile (p := (· == c)) (l := cs)) d member
    simpa using all
  rw [← leading, List.takeWhile_append_dropWhile]

end Characters

namespace DescriptorReader

variable {α : Type} {read : DescriptorReader α} {valid : α → Prop} {chars : α → List Char}

/-- The reader takes the texts of valid values off the front, and accepts nothing else. -/
def Accepts (read : DescriptorReader α) (valid : α → Prop) (chars : α → List Char) : Prop :=
  ∀ cs a rest, read cs = .ok (a, rest) ↔ valid a ∧ cs = chars a ++ rest

theorem Accepts.run_iff (accepts : read.Accepts valid chars) (text : String) (a : α) :
    read.run text = .ok a ↔ valid a ∧ String.ofList (chars a) = text := by
  have whole : read.run text = .ok a ↔ read text.toList = .ok (a, []) := by
    unfold run
    constructor
    · intro ok
      split at ok
      · cases ok
      · next result =>
        cases ok
        exact result
      · cases ok
    · intro ok
      rw [ok]
  rw [whole, accepts, List.append_nil, and_congr_right_iff]
  intro _
  constructor
  · intro same
    rw [← same, String.ofList_toList]
  · intro same
    rw [← same, String.toList_ofList]

end DescriptorReader

theorem BaseType.ofLetter?_eq_some {c : Char} {type : BaseType} :
    ofLetter? c = some type ↔ c = type.letter := by
  constructor
  · intro found
    unfold ofLetter? at found
    split at found <;> cases found <;> rfl
  · rintro rfl
    cases type <;> rfl

theorem BaseType.read_accepts :
    DescriptorReader.Accepts BaseType.read (fun _ => True) fun type => [type.letter] := by
  intro cs type rest
  constructor
  · intro ok
    unfold BaseType.read at ok
    split at ok
    · cases ok
    · split at ok
      · next found =>
        cases ok
        rw [ofLetter?_eq_some.mp found]
        exact ⟨trivial, rfl⟩
      · cases ok
  · rintro ⟨-, rfl⟩
    simp only [List.cons_append, List.nil_append, BaseType.read, ofLetter?_eq_some.mpr rfl]

theorem BinaryName.descriptor_append (name : BinaryName) (rest : List Char) :
    name.descriptor ++ rest = 'L' :: (name.text.toList ++ ';' :: rest) := by
  simp only [descriptor, List.cons_append, List.append_assoc, List.nil_append]

theorem BinaryName.readDescriptor_accepts :
    DescriptorReader.Accepts BinaryName.readDescriptor BinaryName.Valid BinaryName.descriptor := by
  intro cs name rest
  constructor
  · intro ok
    unfold BinaryName.readDescriptor at ok
    split at ok
    · next tail =>
      dsimp only at ok
      split at ok
      · cases ok
      · next c after split =>
        have separator : c = ';' := by
          have head := List.head?_dropWhile_not (· != ';') tail
          rw [split] at head
          simpa using head
        split at ok
        · cases ok
        · next checked =>
          cases ok
          refine ⟨by rw [Valid, String.toList_ofList]; exact checked, ?_⟩
          rw [separator] at split
          rw [descriptor_append, String.toList_ofList, ← split, List.takeWhile_append_dropWhile]
    · cases ok
  · rintro ⟨valid, rfl⟩
    have inside : ∀ c ∈ name.text.toList, (c != ';') = true := fun c member =>
      bne_iff_ne.mpr (valid.clear c member).1
    have boundary : ∀ c, (';' :: rest).head? = some c → (c != ';') = false := by
      rintro c ⟨⟩
      rfl
    unfold Valid at valid
    simp only [descriptor_append, BinaryName.readDescriptor, takeWhile_exact inside boundary,
      dropWhile_exact inside boundary, valid, String.ofList_toList]

namespace RefType

def Valid : RefType → Prop
  | .object name | .objectArray _ name => name.Valid
  | .primitiveArray _ _ => True

theorem brackets_inside {n : Nat} : ∀ c ∈ List.replicate n '[', (c == '[') = true := by
  intro c member
  simpa using List.eq_of_mem_replicate member

theorem bracket_boundary (type : RefType) (rest : List Char) :
    ∀ c, (type.base ++ rest).head? = some c → (c == '[') = false := by
  intro c first
  rw [beq_eq_false_iff_ne]
  rintro rfl
  exact type.head_base rest first

theorem array_chars_append {type : RefType} {extra : Nat} (array : type.dimensions = extra + 1)
    (rest : List Char) :
    type.chars ++ rest = '[' :: (List.replicate extra '[' ++ (type.base ++ rest)) := by
  rw [chars_eq, array, List.replicate_succ, List.cons_append, List.cons_append, List.append_assoc]

theorem head_chars (type : RefType) (rest : List Char) :
    ∃ c tail, type.chars ++ rest = c :: tail ∧ (c = 'L' ∨ c = '[') := by
  cases type with
  | object name => exact ⟨_, _, rfl, .inl rfl⟩
  | objectArray extra name | primitiveArray extra element => exact ⟨_, _, rfl, .inr rfl⟩

theorem read_accepts : DescriptorReader.Accepts RefType.read Valid chars := by
  intro cs type rest
  constructor
  · intro ok
    unfold RefType.read at ok
    split at ok
    · cases ok
    · next tail =>
      cases named : BinaryName.readDescriptor ('L' :: tail) with
      | error e => simp [named, bind, Except.bind] at ok
      | ok result =>
        simp only [named, bind, Except.bind, pure, Except.pure, Except.ok.injEq, Prod.mk.injEq] at ok
        obtain ⟨rfl, rfl⟩ := ok
        exact (BinaryName.readDescriptor_accepts _ _ _).mp named
    · next tail =>
      have whole : '[' :: tail = List.replicate ((tail.takeWhile (· == '[')).length + 1) '[' ++
          tail.dropWhile (· == '[') := by
        rw [List.replicate_succ, List.cons_append, leading_append]
      split at ok
      · next inner split =>
        cases named : BinaryName.readDescriptor ('L' :: inner) with
        | error e => simp [named, bind, Except.bind] at ok
        | ok result =>
          simp only [named, bind, Except.bind, pure, Except.pure, Except.ok.injEq,
            Prod.mk.injEq] at ok
          obtain ⟨rfl, rfl⟩ := ok
          obtain ⟨valid, text⟩ := (BinaryName.readDescriptor_accepts _ _ _).mp named
          exact ⟨valid, by rw [whole, split, text, chars, List.append_assoc]⟩
      · cases element : BaseType.read (tail.dropWhile (· == '[')) with
        | error e => simp [element, bind, Except.bind] at ok
        | ok result =>
          simp only [element, bind, Except.bind, pure, Except.pure, Except.ok.injEq,
            Prod.mk.injEq] at ok
          obtain ⟨rfl, rfl⟩ := ok
          have text := ((BaseType.read_accepts _ _ _).mp element).2
          exact ⟨trivial, by rw [whole, text, chars, List.append_assoc]⟩
    · cases ok
  · rintro ⟨valid, rfl⟩
    cases type with
    | object name =>
      have named := (BinaryName.readDescriptor_accepts _ _ rest).mpr ⟨valid, rfl⟩
      rw [chars, BinaryName.descriptor_append] at *
      simp only [RefType.read, named, bind, Except.bind, pure, Except.pure]
    | objectArray extra name =>
      have named := (BinaryName.readDescriptor_accepts _ _ rest).mpr ⟨valid, rfl⟩
      have boundary := bracket_boundary (.objectArray extra name) rest
      rw [array_chars_append rfl]
      simp only [RefType.read, takeWhile_exact brackets_inside boundary,
        dropWhile_exact brackets_inside boundary, List.length_replicate]
      rw [base, BinaryName.descriptor_append] at *
      simp only [named, bind, Except.bind, pure, Except.pure]
    | primitiveArray extra element =>
      have found := (BaseType.read_accepts _ element rest).mpr ⟨trivial, rfl⟩
      have boundary := bracket_boundary (.primitiveArray extra element) rest
      rw [array_chars_append rfl]
      simp only [RefType.read, takeWhile_exact brackets_inside boundary,
        dropWhile_exact brackets_inside boundary, List.length_replicate]
      rw [base]
      split
      · next inner split => exact absurd (List.cons.inj split).1 element.letter_ne.1
      · simp only [found, bind, Except.bind, pure, Except.pure]

end RefType

namespace FieldType

def Valid : FieldType → Prop
  | .base _ => True
  | .ref type => type.Valid

theorem read_accepts : DescriptorReader.Accepts FieldType.read Valid chars := by
  intro cs type rest
  constructor
  · intro ok
    unfold FieldType.read at ok
    split at ok
    · cases ok
    · next c tail =>
      split at ok
      · next found =>
        cases ok
        exact ⟨trivial, by rw [BaseType.ofLetter?_eq_some.mp found]; rfl⟩
      · split at ok
        · cases inner : RefType.read (c :: tail) with
          | error e => simp [inner, bind, Except.bind] at ok
          | ok result =>
            simp only [inner, bind, Except.bind, pure, Except.pure, Except.ok.injEq,
              Prod.mk.injEq] at ok
            obtain ⟨rfl, rfl⟩ := ok
            exact (RefType.read_accepts _ _ _).mp inner
        · cases ok
  · rintro ⟨valid, rfl⟩
    cases type with
    | base type =>
      simp only [chars, List.cons_append, List.nil_append, FieldType.read,
        BaseType.ofLetter?_eq_some.mpr rfl]
    | ref type =>
      have inner := (RefType.read_accepts _ type rest).mpr ⟨valid, rfl⟩
      obtain ⟨c, tail, starts, first⟩ := type.head_chars rest
      have letter : BaseType.ofLetter? c = none := by
        rcases first with rfl | rfl <;> rfl
      have opens : (c == 'L' || c == '[') = true := by
        rcases first with rfl | rfl <;> rfl
      rw [starts] at inner
      rw [chars, starts]
      simp only [FieldType.read, letter, opens, if_true, inner, bind, Except.bind, pure, Except.pure]

end FieldType

namespace MethodDescriptor

/-- The class names in the parameters and in the result are valid. -/
structure Valid (descriptor : MethodDescriptor) : Prop where
  parameters : ∀ type ∈ descriptor.parameters, type.Valid
  result : ∀ type ∈ descriptor.result, type.Valid

theorem chars_append (descriptor : MethodDescriptor) (rest : List Char) :
    descriptor.chars ++ rest = '(' :: (descriptor.parameters.flatMap FieldType.chars ++
      ')' :: (descriptor.result.elim ['V'] FieldType.chars ++ rest)) := by
  obtain ⟨types, result⟩ := descriptor
  cases result <;> simp [chars]

theorem readParameters_iff (cs : List Char) (types : List FieldType) (rest : List Char) :
    readParameters cs = .ok (types, rest) ↔
      (∀ type ∈ types, type.Valid) ∧ cs = types.flatMap FieldType.chars ++ ')' :: rest := by
  constructor
  · intro ok
    fun_induction readParameters cs generalizing types with
    | case1 => cases ok
    | case2 rest =>
      cases ok
      exact ⟨fun type member => (List.not_mem_nil member).elim, rfl⟩
    | case3 => cases ok
    | case4 => cases ok
    | case5 c tail _ type after first types' last more ih =>
      cases ok
      obtain ⟨valid, text⟩ := (FieldType.read_accepts _ _ _).mp first
      obtain ⟨others, behind⟩ := ih _ more
      refine ⟨fun other member => ?_, ?_⟩
      · rcases List.mem_cons.mp member with rfl | later
        · exact valid
        · exact others other later
      · rw [text, behind, List.flatMap_cons, List.append_assoc]
  · rintro ⟨valid, rfl⟩
    induction types with
    | nil => rw [List.flatMap_nil, List.nil_append, readParameters]
    | cons type types ih =>
      have first := (FieldType.read_accepts _ type (types.flatMap FieldType.chars ++ ')' :: rest)).mpr
        ⟨valid type (.head _), rfl⟩
      have more := ih fun other member => valid other (.tail _ member)
      rw [List.flatMap_cons, List.append_assoc]
      obtain ⟨c, tail, starts, closing, _⟩ :=
        type.head_chars (types.flatMap FieldType.chars ++ ')' :: rest)
      rw [starts] at first ⊢
      rw [readParameters.eq_3 _ _ closing]
      split
      · next failed => rw [first] at failed; cases failed
      · next found =>
        rw [first] at found
        cases found
        rw [more]

theorem read_accepts : DescriptorReader.Accepts MethodDescriptor.read Valid chars := by
  intro cs descriptor rest
  constructor
  · intro ok
    unfold MethodDescriptor.read at ok
    split at ok
    · next tail =>
      cases listed : readParameters tail with
      | error e => simp [listed, bind, Except.bind] at ok
      | ok result =>
        obtain ⟨types, after⟩ := result
        obtain ⟨valid, text⟩ := (readParameters_iff _ _ _).mp listed
        simp only [listed, bind, Except.bind] at ok
        split at ok
        · cases ok
          exact ⟨⟨valid, fun type member => nomatch member⟩, by rw [text, chars_append]; rfl⟩
        · cases last : FieldType.read after with
          | error e => simp [last] at ok
          | ok result =>
            simp only [last, pure, Except.pure, Except.ok.injEq, Prod.mk.injEq] at ok
            obtain ⟨rfl, rfl⟩ := ok
            obtain ⟨valid', text'⟩ := (FieldType.read_accepts _ _ _).mp last
            refine ⟨⟨valid, fun type member => ?_⟩, by rw [text, text', chars_append]; rfl⟩
            cases member
            exact valid'
    · cases ok
  · rintro ⟨⟨valid, valid'⟩, rfl⟩
    obtain ⟨types, result⟩ := descriptor
    cases result with
    | none =>
      have listed := (readParameters_iff _ types ('V' :: rest)).mpr ⟨valid, rfl⟩
      rw [chars_append]
      simp only [MethodDescriptor.read, Option.elim_none, List.cons_append, List.nil_append, listed,
        bind, Except.bind, pure, Except.pure]
    | some type =>
      have listed := (readParameters_iff _ types (type.chars ++ rest)).mpr ⟨valid, rfl⟩
      have last := (FieldType.read_accepts _ type rest).mpr ⟨valid' type rfl, rfl⟩
      rw [chars_append]
      simp only [MethodDescriptor.read, Option.elim_some, listed, bind, Except.bind]
      -- The result does not start like that of a method without one.
      obtain ⟨c, tail, starts, _, void⟩ := type.head_chars rest
      rw [starts] at last ⊢
      split
      · next same => exact absurd (List.cons.inj same).1 void
      · simp only [last, pure, Except.pure]

end MethodDescriptor

/-- A text is read as a descriptor exactly when it is the descriptor, and the names in it are
valid. -/
theorem parse_eq_ok_iff_render (text : String) :
    (∀ type, FieldType.parse text = .ok type ↔ type.Valid ∧ type.render = text) ∧
    (∀ type, RefType.parse text = .ok type ↔ type.Valid ∧ type.render = text) ∧
    (∀ descriptor, MethodDescriptor.parse text = .ok descriptor ↔
      descriptor.Valid ∧ descriptor.render = text) :=
  ⟨FieldType.read_accepts.run_iff text, RefType.read_accepts.run_iff text,
    MethodDescriptor.read_accepts.run_iff text⟩

end ClassForge
