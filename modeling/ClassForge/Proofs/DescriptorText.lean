import ClassForge.Pool

namespace ClassForge

def BinaryName.Clear (name : BinaryName) : Prop := ∀ c ∈ name.text.toList, c ≠ ';' ∧ c ≠ '['

theorem exists_segment {chars : List Char} {c : Char} (member : c ∈ chars) (inner : c ≠ '/') :
    ∃ part ∈ segments chars, c ∈ part := by
  induction chars with
  | nil => cases member
  | cons first rest ih =>
    rw [segments]
    cases found : segments rest with
    | nil =>
      rcases List.mem_cons.mp member with rfl | later
      · exact ⟨[c], .head _, .head _⟩
      · obtain ⟨part, inside, _⟩ := ih later
        rw [found] at inside
        cases inside
    | cons part parts =>
      dsimp only
      split
      · next slash =>
        rcases List.mem_cons.mp member with rfl | later
        · exact absurd slash inner
        · obtain ⟨other, inside, known⟩ := ih later
          rw [found] at inside
          exact ⟨other, List.mem_cons_of_mem _ inside, known⟩
      · rcases List.mem_cons.mp member with rfl | later
        · exact ⟨c :: part, .head _, .head _⟩
        · obtain ⟨other, inside, known⟩ := ih later
          rw [found] at inside
          rcases List.mem_cons.mp inside with rfl | behind
          · exact ⟨first :: other, .head _, List.mem_cons_of_mem _ known⟩
          · exact ⟨other, List.mem_cons_of_mem _ behind, known⟩

theorem UnqualifiedName.not_reserved {chars : List Char} (ok : check chars = .ok ()) {c : Char}
    (member : c ∈ chars) : isReserved c = false := by
  unfold check at ok
  dsimp only at ok
  split at ok
  · cases ok
  · next none =>
    rw [Bool.not_eq_true, List.any_eq_false] at none
    simpa using none c member

theorem check_of_forM {ε α : Type} {check : α → Except ε Unit} {items : List α}
    (ok : items.forM check = .ok ()) {item : α} (member : item ∈ items) : check item = .ok () := by
  induction items with
  | nil => cases member
  | cons first rest ih =>
    change (check first >>= fun _ => rest.forM check) = _ at ok
    cases head : check first with
    | error e =>
      rw [head] at ok
      cases ok
    | ok _ =>
      rw [head] at ok
      rcases List.mem_cons.mp member with rfl | later
      · exact head
      · exact ih ok later

theorem BinaryName.Valid.clear {name : BinaryName} (valid : name.Valid) : name.Clear := by
  unfold Valid check at valid
  split at valid
  · cases valid
  · split at valid
    · cases valid
    · intro c member
      have plain : c = '/' ∨ isReserved c = false := by
        by_cases slash : c = '/'
        · exact .inl slash
        · obtain ⟨part, inside, known⟩ := exists_segment member slash
          exact .inr (UnqualifiedName.not_reserved (check_of_forM valid inside) known)
      constructor
      · rintro rfl
        revert plain
        decide
      · rintro rfl
        revert plain
        decide

theorem before_separator {c : Char} {front other back rest : List Char} (clear : c ∉ front)
    (clear' : c ∉ other) (same : front ++ c :: back = other ++ c :: rest) :
    front = other ∧ back = rest := by
  induction front generalizing other with
  | nil =>
    cases other with
    | nil =>
      cases same
      exact ⟨rfl, rfl⟩
    | cons first more =>
      cases same
      exact absurd (.head _) clear'
  | cons first front ih =>
    cases other with
    | nil =>
      cases same
      exact absurd (.head _) clear
    | cons first' more =>
      rw [List.cons_append, List.cons_append, List.cons.injEq] at same
      obtain ⟨rfl, same⟩ := same
      obtain ⟨rfl, rfl⟩ := ih (fun member => clear (.tail _ member))
        (fun member => clear' (.tail _ member)) same
      exact ⟨rfl, rfl⟩

theorem brackets_append_inj {n m : Nat} {front other : List Char} (ends : front.head? ≠ some '[')
    (ends' : other.head? ≠ some '[')
    (same : List.replicate n '[' ++ front = List.replicate m '[' ++ other) :
    n = m ∧ front = other := by
  induction n generalizing m with
  | zero =>
    cases m with
    | zero => exact ⟨rfl, same⟩
    | succ m =>
      rw [List.replicate_zero, List.nil_append, List.replicate_succ] at same
      rw [same] at ends
      exact absurd rfl ends
  | succ n ih =>
    cases m with
    | zero =>
      rw [List.replicate_zero, List.nil_append, List.replicate_succ] at same
      rw [← same] at ends'
      exact absurd rfl ends'
    | succ m =>
      rw [List.replicate_succ, List.replicate_succ, List.cons_append, List.cons_append,
        List.cons.injEq] at same
      obtain ⟨rfl, rfl⟩ := ih same.2
      exact ⟨rfl, rfl⟩

namespace BinaryName

variable {name other : BinaryName} {rest more : List Char}

theorem descriptor_append_inj (clear : name.Clear) (clear' : other.Clear)
    (same : name.descriptor ++ rest = other.descriptor ++ more) : name = other ∧ rest = more := by
  unfold descriptor at same
  simp only [List.cons_append, List.append_assoc, List.nil_append, List.cons.injEq, true_and] at same
  obtain ⟨text, rfl⟩ := before_separator (fun member => (clear _ member).1 rfl)
    (fun member => (clear' _ member).1 rfl) same
  rw [String.toList_inj] at text
  cases name
  cases text
  exact ⟨rfl, rfl⟩

theorem descriptor_inj (same : name.descriptor = other.descriptor) : name = other := by
  unfold descriptor at same
  rw [List.cons_append, List.cons_append, List.cons.injEq] at same
  have text := List.append_cancel_right same.2
  rw [String.toList_inj] at text
  cases name
  cases text
  rfl

end BinaryName

theorem BaseType.letter_inj {type other : BaseType} (same : type.letter = other.letter) :
    type = other := by
  have back (type : BaseType) : ofLetter? type.letter = some type := by
    cases type <;> rfl
  exact Option.some.inj (by rw [← back type, same, back other])

theorem BaseType.letter_ne (type : BaseType) : type.letter ≠ 'L' ∧ type.letter ≠ '[' ∧
    type.letter ≠ ')' ∧ type.letter ≠ 'V' := by
  cases type <;> decide

namespace RefType

variable {type other : RefType} {rest more : List Char}

def Clear : RefType → Prop
  | .object name | .objectArray _ name => name.Clear
  | .primitiveArray _ _ => True

def base : RefType → List Char
  | .object name | .objectArray _ name => name.descriptor
  | .primitiveArray _ element => [element.letter]

theorem chars_eq (type : RefType) : type.chars = List.replicate type.dimensions '[' ++ type.base := by
  cases type <;> rfl

theorem head_base (type : RefType) (rest : List Char) : (type.base ++ rest).head? ≠ some '[' := by
  cases type with
  | primitiveArray extra element =>
    intro bracket
    exact element.letter_ne.2.1 (Option.some.inj bracket)
  | _ =>
    intro bracket
    cases bracket

theorem eq_of_base (dimensions : type.dimensions = other.dimensions)
    (named : ∀ name name' : BinaryName, type.base = name.descriptor → other.base = name'.descriptor →
      type.base ++ rest = other.base ++ more → name = name' ∧ rest = more)
    (same : type.base ++ rest = other.base ++ more) : type = other ∧ rest = more := by
  cases type with
  | object name =>
    cases other with
    | object name' =>
      obtain ⟨rfl, rfl⟩ := named name name' rfl rfl same
      exact ⟨rfl, rfl⟩
    | _ => cases dimensions
  | objectArray extra name =>
    cases other with
    | object => cases dimensions
    | objectArray extra' name' =>
      cases dimensions
      obtain ⟨rfl, rfl⟩ := named name name' rfl rfl same
      exact ⟨rfl, rfl⟩
    | primitiveArray extra' element =>
      exact absurd (List.cons.inj same).1.symm element.letter_ne.1
  | primitiveArray extra element =>
    cases other with
    | object => cases dimensions
    | objectArray extra' name' => exact absurd (List.cons.inj same).1 element.letter_ne.1
    | primitiveArray extra' element' =>
      cases dimensions
      obtain ⟨letter, rfl⟩ := List.cons.inj same
      cases BaseType.letter_inj letter
      exact ⟨rfl, rfl⟩

theorem chars_append_inj (clear : type.Clear) (clear' : other.Clear)
    (same : type.chars ++ rest = other.chars ++ more) : type = other ∧ rest = more := by
  rw [chars_eq, chars_eq, List.append_assoc, List.append_assoc] at same
  obtain ⟨dimensions, same⟩ := brackets_append_inj (head_base _ _) (head_base _ _) same
  refine eq_of_base dimensions (fun name name' first second same => ?_) same
  have plain : ∀ {type : RefType} {name : BinaryName}, type.Clear → type.base = name.descriptor →
      name.Clear := by
    intro type name clear bottom
    cases type with
    | primitiveArray extra element =>
      exact absurd (List.cons.inj bottom).1 element.letter_ne.1
    | _ =>
      cases BinaryName.descriptor_inj bottom
      exact clear
  rw [first, second] at same
  exact BinaryName.descriptor_append_inj (plain clear first) (plain clear' second) same

theorem chars_inj (same : type.chars = other.chars) : type = other := by
  rw [chars_eq, chars_eq, ← List.append_nil type.base, ← List.append_nil other.base] at same
  obtain ⟨dimensions, same⟩ := brackets_append_inj (head_base _ _) (head_base _ _) same
  refine (eq_of_base dimensions (fun name name' first second same => ?_) same).1
  rw [first, second, List.append_nil, List.append_nil] at same
  exact ⟨BinaryName.descriptor_inj same, rfl⟩

/-- Class constants of different types have different texts. -/
theorem constantName_inj (clear : type.Clear) (clear' : other.Clear)
    (same : type.constantName = other.constantName) : type = other := by
  have array {name : BinaryName} {chars : List Char} (clear : name.Clear)
      (text : name.text = String.ofList ('[' :: chars)) : False := by
    refine (clear '[' ?_).2 rfl
    rw [text, String.toList_ofList]
    exact .head _
  cases type with
  | object name =>
    cases other with
    | object name' =>
      cases name
      cases name'
      cases same
      rfl
    | _ => exact (array clear same).elim
  | _ =>
    cases other with
    | object name' => exact (array clear' same.symm).elim
    | _ =>
      apply chars_inj
      exact String.ofList_inj.mp same

end RefType

namespace FieldType

variable {type other : FieldType} {rest more : List Char}

def Clear : FieldType → Prop
  | .base _ => True
  | .ref type => type.Clear

theorem head_chars (type : FieldType) (rest : List Char) :
    ∃ c tail, type.chars ++ rest = c :: tail ∧ c ≠ ')' ∧ c ≠ 'V' := by
  cases type with
  | base type => exact ⟨type.letter, rest, rfl, type.letter_ne.2.2⟩
  | ref type => cases type <;> exact ⟨_, _, rfl, by decide, by decide⟩

theorem chars_ne {base : BaseType} {type : RefType} :
    (FieldType.base base).chars ++ rest ≠ (FieldType.ref type).chars ++ more := by
  intro same
  cases type with
  | object name => exact base.letter_ne.1 (List.cons.inj same).1
  | _ => exact base.letter_ne.2.1 (List.cons.inj same).1

theorem chars_append_inj (clear : type.Clear) (clear' : other.Clear)
    (same : type.chars ++ rest = other.chars ++ more) : type = other ∧ rest = more := by
  cases type with
  | base type =>
    cases other with
    | base type' =>
      obtain ⟨letter, rfl⟩ := List.cons.inj same
      cases BaseType.letter_inj letter
      exact ⟨rfl, rfl⟩
    | ref type' => exact absurd same chars_ne
  | ref type =>
    cases other with
    | base type' => exact absurd same.symm chars_ne
    | ref type' =>
      obtain ⟨rfl, rfl⟩ := RefType.chars_append_inj clear clear' same
      exact ⟨rfl, rfl⟩

theorem render_inj (clear : type.Clear) (clear' : other.Clear) (same : type.render = other.render) :
    type = other := by
  have chars : type.chars ++ [] = other.chars ++ [] := by
    rw [render, render, String.ofList_inj] at same
    rw [same]
  exact (chars_append_inj clear clear' chars).1

theorem parameters_inj {types others : List FieldType} (clear : ∀ type ∈ types, type.Clear)
    (clear' : ∀ type ∈ others, type.Clear)
    (same : types.flatMap chars ++ ')' :: rest = others.flatMap chars ++ ')' :: more) :
    types = others ∧ rest = more := by
  induction types generalizing others with
  | nil =>
    cases others with
    | nil =>
      cases same
      exact ⟨rfl, rfl⟩
    | cons type others =>
      rw [List.flatMap_cons, List.append_assoc] at same
      obtain ⟨c, tail, starts, closing, _⟩ := head_chars type (others.flatMap chars ++ ')' :: more)
      rw [starts] at same
      cases same
      exact absurd rfl closing
  | cons type types ih =>
    rw [List.flatMap_cons, List.append_assoc] at same
    cases others with
    | nil =>
      obtain ⟨c, tail, starts, closing, _⟩ := head_chars type (types.flatMap chars ++ ')' :: rest)
      rw [starts] at same
      cases same
      exact absurd rfl closing
    | cons type' others =>
      rw [List.flatMap_cons, List.append_assoc] at same
      obtain ⟨rfl, behind⟩ := chars_append_inj (clear type (.head _))
        (clear' type' (.head _)) same
      obtain ⟨rfl, rfl⟩ := ih (fun type member => clear type (.tail _ member))
        (fun type member => clear' type (.tail _ member)) behind
      exact ⟨rfl, rfl⟩

end FieldType

namespace MethodDescriptor

variable {descriptor other : MethodDescriptor}

structure Clear (descriptor : MethodDescriptor) : Prop where
  parameters : ∀ type ∈ descriptor.parameters, type.Clear
  result : ∀ type ∈ descriptor.result, type.Clear

theorem render_inj (clear : descriptor.Clear) (clear' : other.Clear)
    (same : descriptor.render = other.render) : descriptor = other := by
  obtain ⟨parameters, result⟩ := descriptor
  obtain ⟨parameters', result'⟩ := other
  have chars : (⟨parameters, result⟩ : MethodDescriptor).chars = chars ⟨parameters', result'⟩ := by
    rwa [render, render, String.ofList_inj] at same
  obtain ⟨rfl, same⟩ := FieldType.parameters_inj clear.parameters clear'.parameters
    (List.cons.inj chars).2
  have void {type : FieldType} : ['V'] ≠ type.chars := by
    intro same
    obtain ⟨c, tail, starts, _, other⟩ := type.head_chars []
    rw [List.append_nil, ← same] at starts
    exact other (List.cons.inj starts).1.symm
  cases result with
  | none =>
    cases result' with
    | none => rfl
    | some type => exact absurd same void
  | some type =>
    cases result' with
    | none => exact absurd same.symm void
    | some type' =>
      have ends : type.chars ++ [] = type'.chars ++ [] := by
        rw [List.append_nil, List.append_nil]
        exact same
      cases (FieldType.chars_append_inj (clear.result type rfl) (clear'.result type' rfl) ends).1
      rfl

end MethodDescriptor

end ClassForge
