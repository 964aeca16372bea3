import ClassForge.Descriptor

namespace ClassForge

inductive DescriptorError where
  | leftover (c : Char)
  | unknownBase (c : Char)
  | missingBase
  | expectedClass
  | unterminated (name : String)
  | badName (cause : NameError)
  | unknownReference (c : Char)
  | missingType
  | unknownType (c : Char)
  | expectedOpening
  | expectedClosing
  deriving DecidableEq, Repr

namespace DescriptorError

def isEndOfText : DescriptorError → Bool
  | .missingBase | .unterminated _ | .missingType | .expectedClosing => true
  | _ => false

def message : DescriptorError → String
  | .leftover c => s!"Unexpected leftover input '{c}'"
  | .unknownBase c => s!"Invalid base type character '{c}'"
  | .missingBase => "Missing base type character"
  | .expectedClass => "Expected object type to start with `L`"
  | .unterminated name => s!"Missing terminator for 'L{name}'"
  | .badName cause => cause.message
  | .unknownReference c => s!"Invalid reference type character '{c}'"
  | .missingType => "Missing field type"
  | .unknownType c => s!"Invalid field type character '{c}'"
  | .expectedOpening => "Expected '(' for method"
  | .expectedClosing => "Expected ')' for method"

end DescriptorError

abbrev DescriptorReader (α : Type) := List Char → Except DescriptorError (α × List Char)

def DescriptorReader.run {α : Type} (read : DescriptorReader α) (text : String) :
    Except DescriptorError α :=
  match read text.toList with
  | .error e => .error e
  | .ok (a, []) => .ok a
  | .ok (_, c :: _) => .error (.leftover c)

def BaseType.read : DescriptorReader BaseType
  | [] => .error .missingBase
  | c :: rest =>
    match BaseType.ofLetter? c with
    | some type => .ok (type, rest)
    | none => .error (.unknownBase c)

def BinaryName.readDescriptor : DescriptorReader BinaryName
  | 'L' :: rest =>
    let name := rest.takeWhile (· != ';')
    match rest.dropWhile (· != ';') with
    | [] => .error (.unterminated (String.ofList name))
    | _ :: after =>
      match BinaryName.check name with
      | .error cause => .error (.badName cause)
      | .ok () => .ok (⟨String.ofList name⟩, after)
  | _ => .error .expectedClass

def RefType.read : DescriptorReader RefType
  | [] => .error .missingType
  | 'L' :: rest => do
    let (name, after) ← BinaryName.readDescriptor ('L' :: rest)
    return (.object name, after)
  | '[' :: rest =>
    let extra := (rest.takeWhile (· == '[')).length
    match rest.dropWhile (· == '[') with
    | 'L' :: inner => do
      let (name, after) ← BinaryName.readDescriptor ('L' :: inner)
      return (.objectArray extra name, after)
    | inner => do
      let (type, after) ← BaseType.read inner
      return (.primitiveArray extra type, after)
  | c :: _ => .error (.unknownReference c)

def FieldType.read : DescriptorReader FieldType
  | [] => .error .missingType
  | c :: rest =>
    match BaseType.ofLetter? c with
    | some type => .ok (.base type, rest)
    | none =>
      if c == 'L' || c == '[' then do
        let (type, after) ← RefType.read (c :: rest)
        return (.ref type, after)
      else .error (.unknownType c)

private theorem dropWhile_length_le (p : Char → Bool) (cs : List Char) :
    (cs.dropWhile p).length ≤ cs.length :=
  (List.dropWhile_suffix p).length_le

theorem BinaryName.readDescriptor_length {cs rest : List Char} {name : BinaryName}
    (ok : BinaryName.readDescriptor cs = .ok (name, rest)) : rest.length < cs.length := by
  unfold BinaryName.readDescriptor at ok
  split at ok
  · rename_i tail
    have shrink := dropWhile_length_le (· != ';') tail
    dsimp only at ok
    split at ok
    · cases ok
    · rename_i c after split
      rw [split] at shrink
      split at ok
      · cases ok
      · cases ok
        simp only [List.length_cons] at shrink ⊢
        omega
  · cases ok

theorem BaseType.read_length {cs rest : List Char} {type : BaseType}
    (ok : BaseType.read cs = .ok (type, rest)) : rest.length < cs.length := by
  unfold BaseType.read at ok
  split at ok
  · cases ok
  · split at ok
    · cases ok; simp
    · cases ok

theorem RefType.read_length {cs rest : List Char} {type : RefType}
    (ok : RefType.read cs = .ok (type, rest)) : rest.length < cs.length := by
  unfold RefType.read at ok
  split at ok
  · cases ok
  · rename_i tail
    cases read : BinaryName.readDescriptor ('L' :: tail) with
    | error e => simp [read, bind, Except.bind] at ok
    | ok result =>
      obtain ⟨name, after⟩ := result
      simp only [read, bind, Except.bind, pure, Except.pure, Except.ok.injEq, Prod.mk.injEq] at ok
      obtain ⟨_, rfl⟩ := ok
      exact BinaryName.readDescriptor_length read
  · rename_i tail
    have shrink := dropWhile_length_le (· == '[') tail
    split at ok
    · rename_i inner split
      rw [split] at shrink
      cases read : BinaryName.readDescriptor ('L' :: inner) with
      | error e => simp [read, bind, Except.bind] at ok
      | ok result =>
        obtain ⟨name, after⟩ := result
        simp only [read, bind, Except.bind, pure, Except.pure, Except.ok.injEq,
          Prod.mk.injEq] at ok
        obtain ⟨_, rfl⟩ := ok
        have step := BinaryName.readDescriptor_length read
        simp only [List.length_cons] at *
        omega
    · cases read : BaseType.read (tail.dropWhile (· == '[')) with
      | error e => simp [read, bind, Except.bind] at ok
      | ok result =>
        obtain ⟨type, after⟩ := result
        simp only [read, bind, Except.bind, pure, Except.pure, Except.ok.injEq,
          Prod.mk.injEq] at ok
        obtain ⟨_, rfl⟩ := ok
        have step := BaseType.read_length read
        simp only [List.length_cons]
        omega
  · cases ok

theorem FieldType.read_length {cs rest : List Char} {type : FieldType}
    (ok : FieldType.read cs = .ok (type, rest)) : rest.length < cs.length := by
  unfold FieldType.read at ok
  split at ok
  · cases ok
  · rename_i c tail
    split at ok
    · cases ok; simp
    · split at ok
      · cases read : RefType.read (c :: tail) with
        | error e => simp [read, bind, Except.bind] at ok
        | ok result =>
          obtain ⟨inner, after⟩ := result
          simp only [read, bind, Except.bind, pure, Except.pure, Except.ok.injEq,
            Prod.mk.injEq] at ok
          obtain ⟨_, rfl⟩ := ok
          exact RefType.read_length read
      · cases ok

def MethodDescriptor.readParameters (cs : List Char) :
    Except DescriptorError (List FieldType × List Char) :=
  match cs with
  | [] => .error .expectedClosing
  | ')' :: rest => .ok ([], rest)
  | c :: rest =>
    match _read : FieldType.read (c :: rest) with
    | .error e => .error e
    | .ok (type, after) =>
      match MethodDescriptor.readParameters after with
      | .error e => .error e
      | .ok (types, last) => .ok (type :: types, last)
termination_by cs.length
decreasing_by exact FieldType.read_length (by assumption)

def MethodDescriptor.read : DescriptorReader MethodDescriptor
  | '(' :: rest => do
    let (parameters, after) ← MethodDescriptor.readParameters rest
    match after with
    | 'V' :: last => return (⟨parameters, none⟩, last)
    | _ =>
      let (result, last) ← FieldType.read after
      return (⟨parameters, some result⟩, last)
  | _ => .error .expectedOpening

def BaseType.parse (text : String) : Except DescriptorError BaseType :=
  DescriptorReader.run BaseType.read text

def BinaryName.parseDescriptor (text : String) : Except DescriptorError BinaryName :=
  DescriptorReader.run BinaryName.readDescriptor text

def RefType.parse (text : String) : Except DescriptorError RefType :=
  DescriptorReader.run RefType.read text

def FieldType.parse (text : String) : Except DescriptorError FieldType :=
  DescriptorReader.run FieldType.read text

def MethodDescriptor.parse (text : String) : Except DescriptorError MethodDescriptor :=
  DescriptorReader.run MethodDescriptor.read text

end ClassForge
