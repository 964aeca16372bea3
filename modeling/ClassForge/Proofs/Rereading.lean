import ClassForge.Proofs.ClassFileCoding

namespace ClassForge

-- Powers are the ones of `Nat`, also where a monoid would give others.
attribute [local instance (2000)] instPowNat

variable {count : Nat} {bytes : Bytes} {body : Code}

namespace Decoder

variable {α β : Type} {good : α → Prop} {first item : Decoder α} {second : α → Decoder β}
  {fine : β → Prop}

def Gives (decoder : Decoder α) (good : α → Prop) : Prop :=
  ∀ bytes value rest, decoder bytes = .ok (value, rest) → good value

theorem gives_any (decoder : Decoder α) : Gives decoder fun _ => True := fun _ _ _ _ => trivial

theorem gives_pure {a : α} (this : good a) : Gives (pure a) good := by
  intro bytes value rest read
  cases read
  exact this

theorem gives_fail (e : FormatError) : Gives (fail e) good := by
  intro bytes value rest read
  cases read

theorem Gives.bind (before : Gives first good) (after : ∀ a, good a → Gives (second a) fine) :
    Gives (first >>= second) fine := by
  intro bytes value rest read
  obtain ⟨⟨a, left⟩, early, late⟩ := except_bind_ok.mp read
  exact after a (before _ _ _ early) _ _ _ late

theorem Gives.skip (after : ∀ a, Gives (second a) fine) : Gives (first >>= second) fine :=
  (gives_any first).bind fun a _ => after a

theorem gives_take (count : Nat) : Gives (take count) fun bytes => bytes.length = count := by
  intro bytes value rest read
  unfold take at read
  dsimp only at read
  split at read
  · next full =>
    cases read
    exact full
  · cases read

theorem gives_block : Gives block fun bytes => bytes.length < 2 ^ (32 : Nat) :=
  .skip fun count bytes value rest read => by
    rw [gives_take _ _ _ _ read]
    exact count.toNat_lt

theorem gives_manyOnto (each : Gives item good) {done : List α} (fine : ∀ a ∈ done, good a) :
    Gives (manyOnto item count done) fun items =>
      items.length = done.length + count ∧ ∀ a ∈ items, good a := by
  induction count generalizing done with
  | zero =>
    intro bytes value rest read
    cases read
    exact ⟨List.length_reverse, fun a member => fine a (List.mem_reverse.mp member)⟩
  | succ count ih =>
    intro bytes value rest read
    rw [manyOnto] at read
    dsimp only at read
    split at read
    · cases read
    · next a left first =>
      have more : ∀ other ∈ a :: done, good other :=
        List.forall_mem_cons.mpr ⟨each _ _ _ first, fine⟩
      obtain ⟨length, all⟩ := ih more _ _ _ read
      rw [List.length_cons] at length
      exact ⟨by omega, all⟩

theorem gives_list (each : Gives item good) :
    Gives (list item) fun items => items.length ≤ 65535 ∧ ∀ a ∈ items, good a :=
  .skip fun count bytes value rest read => by
    obtain ⟨length, all⟩ := gives_manyOnto each (List.forall_mem_nil _) _ _ _ read
    have bound := count.toNat_lt
    rw [List.length_nil] at length
    exact ⟨by omega, all⟩

theorem all_ok {leftover : Nat → FormatError} {a : α} :
    item.all leftover bytes = .ok a ↔ item bytes = .ok (a, []) := by
  unfold all
  constructor
  · intro read
    split at read
    · cases read
    · next found =>
      cases read
      exact found
    · cases read
  · intro read
    rw [read]

theorem Reads.whole {a : α} (reads : Reads item bytes a) : item bytes = .ok (a, []) := by
  have whole := reads []
  rwa [List.append_nil] at whole

end Decoder

open Decoder

theorem Constant.gives_decodeText :
    Gives decodeText fun text => (ModifiedUtf8.encode text).length ≤ 65535 := by
  refine .skip fun count => (gives_take count.toNat).bind fun bytes length => ?_
  split
  · next text read =>
    refine gives_pure ?_
    have shorter := ModifiedUtf8.length_encode_le read
    have bound := count.toNat_lt
    omega
  · exact gives_fail _

theorem Constant.gives_decode : Gives decode Fits := by
  refine .skip fun tag => ?_
  split
  · exact gives_decodeText.bind fun text short => gives_pure short
  iterate 6 exact .skip fun _ => gives_pure trivial
  iterate 4 exact .skip fun _ => .skip fun _ => gives_pure trivial
  · exact gives_fail _

namespace ConstantTable

theorem gives_decodeOnto {table : ConstantTable} (fits : table.Fits)
    (reached : table.next ≤ count + 1) :
    Gives (decodeOnto count table) fun table => table.Fits ∧ table.next ≤ count + 1 := by
  intro bytes value rest read
  fun_induction decodeOnto count table bytes with
  | case1 table bytes more e failed => cases read
  | case2 table bytes more constant left first ih =>
    have new := List.forall_mem_singleton.mpr (Constant.gives_decode _ _ _ first)
    refine ih (fits.pushAll new) ?_ read
    have wide : Width.width constant ≤ 2 := by
      change constant.width ≤ 2
      cases constant <;> simp [Constant.width]
    change table.next + Width.width constant ≤ count + 1
    omega
  | case3 table bytes reached =>
    cases read
    exact ⟨fits, by omega⟩

theorem gives_decode : Gives decode fun table => table.Fits ∧ table.next ≤ 65536 := by
  refine .skip fun count bytes value rest read => ?_
  obtain ⟨fits, next⟩ := gives_decodeOnto fits_empty (by change 1 ≤ _; omega) _ _ _ read
  have bound := count.toNat_lt
  exact ⟨fits, by omega⟩

end ConstantTable

theorem AccessFlags.gives_decode (kind : Declared) :
    Gives (decode kind) fun flags => flags.bits &&& kind.known = flags.bits :=
  .skip fun bits => gives_pure (by
    change bits &&& kind.known &&& kind.known = bits &&& kind.known
    rw [UInt16.and_assoc, UInt16.and_self])

theorem Attribute.gives_decode : Gives decode fun a => a.info.length < 2 ^ (32 : Nat) :=
  .skip fun _ => gives_block.bind fun _ short => gives_pure short

theorem Attribute.gives_list : Gives (Decoder.list decode) FitAll :=
  fun _ _ _ read =>
    have ⟨few, short⟩ := Decoder.gives_list Attribute.gives_decode _ _ _ read
    ⟨few, short⟩

theorem MemberInfo.gives_decode (kind : Declared) : Gives (decode kind) Fits :=
  (AccessFlags.gives_decode kind).bind fun _ access => .skip fun _ => .skip fun _ =>
    Attribute.gives_list.bind fun _ attributes => gives_pure ⟨access, attributes⟩

structure Code.Fits (body : Code) : Prop where
  short : body.code.length < 2 ^ (32 : Nat)
  handlers : body.handlers.length ≤ 65535
  attributes : Attribute.FitAll body.attributes

theorem Code.reads_encode (fits : body.Fits) : Reads decode body.encode body := by
  have row (row : ExceptionHandler) : Reads ExceptionHandler.decode row.encode row := by
    have read : Reads ExceptionHandler.decode _ row :=
      (reads_word16 row.start).bind <| (reads_word16 row.stop).bind <|
        (reads_word16 row.handler).bind <| (reads_word16 row.catchType).map _
    simpa only [ExceptionHandler.encode, List.append_assoc] using read
  have read : Reads decode _ body :=
    (reads_word16 body.maxStack).bind <| (reads_word16 body.maxLocals).bind <|
      (reads_block fits.short).bind <| (reads_ofList (fun entry _ => row entry) fits.handlers).bind <|
      (Attribute.reads_list fits.attributes).map _
  simpa only [encode, List.append_assoc] using read

theorem Code.gives_decode : Gives decode Fits :=
  .skip fun _ => .skip fun _ => gives_block.bind fun _ short =>
    (gives_list (gives_any ExceptionHandler.decode)).bind fun _ handlers =>
    Attribute.gives_list.bind fun _ attributes => gives_pure ⟨short, handlers.1, attributes⟩

theorem Payload.decode_code : Payload.decode "Code" body.encode = .ok (.code body) ↔ body.Fits := by
  unfold Payload.decode
  rw [Decoder.all_ok]
  constructor
  · intro read
    obtain ⟨⟨found, left⟩, read, same⟩ := except_bind_ok.mp read
    cases same
    exact Code.gives_decode _ _ _ read
  · intro fits
    exact ((Code.reads_encode fits).map _).whole

theorem Payload.decode_exceptions {classes : List UInt16} :
    Payload.decode "Exceptions" (Bytes.ofList Bytes.ofWord16 classes) = .ok (.exceptions classes) ↔
      classes.length ≤ 65535 := by
  unfold Payload.decode
  rw [Decoder.all_ok]
  constructor
  · intro read
    obtain ⟨⟨found, left⟩, read, same⟩ := except_bind_ok.mp read
    cases same
    exact (gives_list (gives_any word16) _ _ _ read).1
  · intro few
    exact ((reads_ofList (fun index _ => reads_word16 index) few).map _).whole

namespace ClassFile

variable {file : ClassFile}

theorem gives_decoder : Gives decoder fun file => file.Fits ∧ file.constants.next ≤ 65536 := by
  refine .skip fun header => ?_
  dsimp only
  split
  · have never : Gives (fail .missingMagic : Decoder PUnit) fun _ => False := gives_fail _
    exact never.bind fun _ none => none.elim
  refine .skip fun _ => ConstantTable.gives_decode.bind fun _ constants =>
    (AccessFlags.gives_decode .ofClass).bind fun _ access => .skip fun _ => .skip fun above =>
    (gives_list (gives_any word16)).bind fun _ interfaces =>
    (gives_list (MemberInfo.gives_decode .ofField)).bind fun _ fields =>
    (gives_list (MemberInfo.gives_decode .ofMethod)).bind fun _ methods =>
    Attribute.gives_list.bind fun _ attributes => gives_pure ⟨?_, constants.2⟩
  refine ⟨constants.1, access, ?_, interfaces.1, fields.1, fields.2, methods.1, methods.2, attributes⟩
  dsimp only
  split
  · exact (Option.some_ne_none _).symm
  · next indexed => exact fun zero => indexed (Option.some.inj zero)

theorem decode_eq_ok :
    ClassFile.decode bytes = .ok file ↔ decoder bytes = .ok (file, []) := all_ok

theorem constants_of_read {version : Version} {rest : Bytes}
    (read : decoder (magic ++ (version.encode ++ bytes)) = .ok (file, rest)) :
    ∃ left, ConstantTable.decode bytes = .ok (file.constants, left) := by
  -- the magic bytes and the version have fixed lengths, so reading them is a computation
  obtain ⟨⟨table, left⟩, found, read⟩ := except_bind_ok.mp read
  have kept : file.constants = table := by
    refine (Gives.skip fun _ => ?_ : Gives _ fun file => file.constants = table) _ _ _ read
    exact .skip fun _ => .skip fun _ => .skip fun _ => .skip fun _ => .skip fun _ => .skip fun _ =>
      gives_pure rfl
  rw [kept]
  exact ⟨left, found⟩

theorem constants_lost (full : file.constants.next = 65536) :
    ClassFile.decode file.encode ≠ .ok file := by
  intro read
  rw [decode_eq_ok, encode_eq, ConstantTable.encode, full, List.append_assoc] at read
  obtain ⟨left, found⟩ := constants_of_read read
  have none : Reads ConstantTable.decode (Bytes.ofWord16 0 ++ []) (.empty 1) :=
    (reads_word16 0).bind fun _ => ConstantTable.decodeOnto_of_reached (Nat.zero_le _)
  have lost : file.constants = .empty 1 := by
    have same := (none _).symm.trans found
    exact (congrArg Prod.fst (Except.ok.inj same)).symm
  rw [lost] at full
  cases full

/-- Whatever was read, reading it back from its own bytes gives it again, unless the last constant
reaches past the largest count. -/
theorem decode_encode_of_read {bytes : Bytes} {file : ClassFile}
    (read : ClassFile.decode bytes = .ok file) :
    file.Fits ∧ file.constants.next ≤ 65536 ∧
      (ClassFile.decode file.encode = .ok file ↔ file.constants.next ≠ 65536) := by
  obtain ⟨fits, next⟩ := gives_decoder _ _ _ (decode_eq_ok.mp read)
  refine ⟨fits, next, fun again full => constants_lost full again, fun room => ?_⟩
  exact decode_of_reads (reads_encode fits (by omega))

def crowd (count : Nat) : List Constant := .replicate count (.classRef 0) ++ [.long 0]

def crowded (count : Nat) : ClassFile where
  version := .java8
  constants := (SlotSeq.empty 1).pushAll (crowd count)
  access := .none
  thisClass := 0
  superclass := none
  interfaces := []
  fields := []
  methods := []
  attributes := []

theorem slots_classes (count : Nat) :
    SlotSeq.slots (List.replicate count (Constant.classRef 0)) = count := by
  simp [SlotSeq.slots, Width.width, Constant.width]

theorem next_crowded (count : Nat) : (crowded count).constants.next = count + 3 := by
  obtain ⟨packed, start⟩ := (SlotSeq.packed_empty 1).pushAll (crowd count)
  have next := packed.next
  rw [start, SlotSeq.toList_pushAll, crowd] at next
  change _ = 1 + SlotSeq.slots (List.replicate count (Constant.classRef 0) ++ [.long 0]) at next
  rw [SlotSeq.slots_append, slots_classes] at next
  refine Eq.trans next ?_
  change 1 + (count + 2) = count + 3
  omega

theorem read_crowded (count : Nat) (room : count + 2 ≤ 65535) :
    ∃ bytes, ClassFile.decode bytes = .ok (crowded count) := by
  have fit : ∀ constant ∈ crowd count, constant.Fits := by
    intro constant member
    rcases List.mem_append.mp member with many | last
    · rw [List.eq_of_mem_replicate many]
      trivial
    · rw [List.mem_singleton.mp last]
      trivial
  have read : Reads ConstantTable.decode
      (Bytes.ofWord16 (UInt16.ofNat (count + 2)) ++ (crowd count).flatMap Constant.encode)
      (crowded count).constants := by
    refine (reads_word16 _).bind ?_
    rw [UInt16.toNat_ofNat_of_lt' (by change _ < 65536; omega)]
    refine ConstantTable.reads_decodeOnto fit ?_ ?_
    · rw [slots_classes]
      change 1 + count < count + 2
      omega
    · rw [SlotSeq.slots_append, slots_classes]
      change count + 2 ≤ 1 + (count + 2)
      omega
  refine ⟨_, decode_of_reads (reads_of_constants ?_ read)⟩
  exact ⟨ConstantTable.fits_empty.pushAll fit, UInt16.zero_and, (Option.some_ne_none _).symm, Nat.zero_le _, Nat.zero_le _,
    List.forall_mem_nil _, Nat.zero_le _, List.forall_mem_nil _, Nat.zero_le _, List.forall_mem_nil _⟩

theorem decode_encode_of_read_crowded :
    ∃ bytes, ClassFile.decode bytes = .ok (crowded 1) ∧
      ClassFile.decode (crowded 1).encode = .ok (crowded 1) := by
  obtain ⟨bytes, read⟩ := read_crowded 1 (by decide)
  exact ⟨bytes, read, (decode_encode_of_read read).2.2.mpr (by rw [next_crowded]; decide)⟩

/-- With the largest count, the class that is read is not read back from its own bytes. -/
theorem full_table_lost :
    ∃ bytes file, ClassFile.decode bytes = .ok file ∧ ClassFile.decode file.encode ≠ .ok file := by
  obtain ⟨bytes, read⟩ := read_crowded 65533 (by decide)
  exact ⟨bytes, crowded 65533, read, constants_lost (next_crowded 65533)⟩

end ClassFile

end ClassForge
