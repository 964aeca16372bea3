import ClassForge.Proofs.FrameCoding
import ClassForge.Proofs.SlotLayout
import ClassForge.Proofs.TextCoding

namespace ClassForge

-- Powers are the ones of `Nat`, also where a monoid would give others.
attribute [local instance (2000)] instPowNat

variable {bytes : Bytes}

theorem Bytes.toWord64_ofWord64 (n : UInt64) :
    toWord64 (n >>> 32).toUInt32 n.toUInt32 = n := by
  have bound := n.toNat_lt
  have low : n.toUInt32.toNat < 2 ^ 32 := n.toUInt32.toNat_lt
  rw [← UInt64.toNat_inj]
  simp only [toWord64, UInt64.toNat_or, UInt64.toNat_shiftLeft, UInt32.toNat_toUInt64]
  rw [show (32 : UInt64).toNat % 64 = 32 from rfl]
  simp only [UInt64.toNat_toUInt32, UInt64.toNat_shiftRight, Nat.shiftRight_eq_div_pow] at low ⊢
  rw [show (32 : UInt64).toNat % 64 = 32 from rfl,
    Nat.mod_eq_of_lt (by rw [Nat.shiftLeft_eq]; omega), ← Nat.shiftLeft_add_eq_or_of_lt low,
    Nat.shiftLeft_eq]
  omega

namespace Decoder

variable {α β : Type}

theorem reads_word32 (n : UInt32) : Reads word32 (Bytes.ofWord32 n) n := by
  intro rest
  change Except.ok (Bytes.toWord32 (Bytes.toWord16 (n >>> 24).toUInt8 (n >>> 16).toUInt8)
    (Bytes.toWord16 (n >>> 8).toUInt8 n.toUInt8), rest) = _
  rw [Bytes.toWord32_ofWord32]

theorem reads_word64 (n : UInt64) : Reads word64 (Bytes.ofWord64 n) n := by
  have whole : Reads word64 (Bytes.ofWord64 n)
      (Bytes.toWord64 (n >>> 32).toUInt32 n.toUInt32) :=
    (reads_word32 _).bind ((reads_word32 _).map _)
  rwa [Bytes.toWord64_ofWord64] at whole

theorem reads_take (bytes : Bytes) : Reads (take bytes.length) bytes bytes := by
  intro rest
  unfold take
  simp

theorem reads_block (short : bytes.length < 2 ^ (32 : Nat)) : Reads block (Bytes.ofBlock bytes) bytes := by
  refine (reads_word32 _).bind ?_
  rw [UInt32.toNat_ofNat_of_lt' short]
  exact reads_take bytes

theorem reads_ofList {item : Decoder α} {encode : α → Bytes} {items : List α}
    (each : ∀ a ∈ items, Reads item (encode a) a) (short : items.length ≤ 65535) :
    Reads (list item) (Bytes.ofList encode items) items := by
  have written : List.Forall₂ (fun a bytes => Reads item bytes a) items (items.map encode) := by
    rw [List.forall₂_map_right_iff, List.forall₂_same]
    exact each
  have whole := reads_list written (by omega)
  rwa [← List.flatMap_def] at whole

end Decoder

open Decoder

namespace Constant

def Fits : Constant → Prop
  | .utf8 text => (ModifiedUtf8.encode text).length ≤ 65535
  | _ => True

instance : DecidablePred Fits
  | .utf8 text => inferInstanceAs (Decidable ((ModifiedUtf8.encode text).length ≤ 65535))
  | .integer _ | .float _ | .long _ | .double _ | .classRef _ | .string _ | .fieldRef _ _
  | .methodRef _ _ _ | .nameAndType _ _ => isTrue trivial

theorem reads_decodeText {text : String} (short : (ModifiedUtf8.encode text).length ≤ 65535) :
    Reads decodeText (Bytes.ofWord16 (UInt16.ofNat (ModifiedUtf8.encode text).length) ++
      ModifiedUtf8.encode text) text := by
  refine (reads_word16 _).bind ?_
  rw [UInt16.toNat_ofNat_of_lt' (by change _ < 65536; omega)]
  intro rest
  change Except.bind (take (ModifiedUtf8.encode text).length (ModifiedUtf8.encode text ++ rest)) _ = _
  rw [reads_take]
  dsimp only [Except.bind]
  rw [ModifiedUtf8.decode?_encode]
  rfl

theorem reads_encode {constant : Constant} (fits : constant.Fits) :
    Reads decode constant.encode constant := by
  cases constant with
  | utf8 text => exact (reads_byte 1).bind ((reads_decodeText fits).map _)
  | integer value =>
    exact (reads_byte 3).bind ((reads_word32 value.toUInt32).map fun n => Constant.integer n.toInt32)
  | float bits => exact (reads_byte 4).bind ((reads_word32 bits).map _)
  | long value =>
    exact (reads_byte 5).bind ((reads_word64 value.toUInt64).map fun n => Constant.long n.toInt64)
  | double bits => exact (reads_byte 6).bind ((reads_word64 bits).map _)
  | classRef name => exact (reads_byte 7).bind ((reads_word16 name).map _)
  | string text => exact (reads_byte 8).bind ((reads_word16 text).map _)
  | fieldRef owner member =>
    exact (reads_byte 9).bind ((reads_word16 owner).bind ((reads_word16 member).map _))
  | methodRef owner member interface =>
    cases interface with
    | false => exact (reads_byte 10).bind ((reads_word16 owner).bind ((reads_word16 member).map _))
    | true => exact (reads_byte 11).bind ((reads_word16 owner).bind ((reads_word16 member).map _))
  | nameAndType name descriptor =>
    exact (reads_byte 12).bind ((reads_word16 name).bind ((reads_word16 descriptor).map _))

end Constant

namespace ConstantTable

variable {items : List Constant}
variable {table : ConstantTable} {count : Nat}

theorem decodeOnto_of_reached (reached : count ≤ table.next) :
    decodeOnto count table bytes = .ok (table, bytes) := by
  rw [decodeOnto, if_neg (Nat.not_lt.mpr reached)]

theorem reads_decodeOnto {last : Constant} (fits : ∀ constant ∈ items ++ [last], constant.Fits)
    (before : table.next + SlotSeq.slots items < count)
    (reached : count ≤ table.next + SlotSeq.slots (items ++ [last])) :
    Reads (decodeOnto count table) ((items ++ [last]).flatMap Constant.encode)
      (table.pushAll (items ++ [last])) := by
  -- one constant more while the count has not been reached
  have step {table : ConstantTable} {constant : Constant} {bytes : Bytes} {done : ConstantTable}
      (fits : constant.Fits) (more : table.next < count)
      (later : Reads (decodeOnto count (table.push constant)) bytes done) :
      Reads (decodeOnto count table) (constant.encode ++ bytes) done := by
    intro rest
    rw [decodeOnto, if_pos more, List.append_assoc, Constant.reads_encode fits]
    exact later rest
  induction items generalizing table with
  | nil =>
    rw [List.nil_append, List.flatMap_cons, List.flatMap_nil]
    exact step (fits last (by simp)) before fun rest => decodeOnto_of_reached reached
  | cons constant items ih =>
    have wide : 0 < Width.width constant := constant.width_pos
    have pushed : (table.push constant).next = table.next + Width.width constant := rfl
    rw [List.cons_append, SlotSeq.slots_cons] at reached
    rw [SlotSeq.slots_cons] at before
    rw [List.cons_append, List.flatMap_cons]
    refine step (fits constant (by simp)) (by omega) ?_
    refine ih (fun other member => fits other (.tail _ member)) ?_ ?_ <;>
      rw [pushed] <;> omega

/-- The constants are at the indices from 1 on, and each of them can be written. -/
structure Fits (table : ConstantTable) : Prop where
  packed : table.Packed
  start : table.start = 1
  constants : ∀ constant ∈ table.toList, constant.Fits

theorem fits_empty : ConstantTable.Fits (.empty 1) :=
  ⟨SlotSeq.packed_empty 1, rfl, List.forall_mem_nil _⟩

theorem Fits.pushAll (fits : table.Fits) (new : ∀ constant ∈ items, constant.Fits) :
    ConstantTable.Fits (table.pushAll items) := by
  obtain ⟨packed, start⟩ := fits.packed.pushAll items
  refine ⟨packed, start.trans fits.start, ?_⟩
  rw [SlotSeq.toList_pushAll]
  exact List.forall_mem_append.mpr ⟨fits.constants, new⟩

theorem reads_encode (fits : table.Fits) (room : table.next ≤ 65535) :
    Reads decode table.encode table := by
  have next := fits.packed.next
  have whole := fits.packed.eq_pushAll
  have constants := fits.constants
  rw [fits.start] at next whole
  refine (reads_word16 _).bind ?_
  rw [UInt16.toNat_ofNat_of_lt' (by change _ < 65536; omega), next]
  rcases List.eq_nil_or_concat table.toList with none | ⟨items, last, some⟩
  · rw [none] at whole ⊢
    intro rest
    rw [decodeOnto_of_reached (Nat.le_refl 1), ← whole]
    rfl
  · rw [List.concat_eq_append] at some
    rw [some] at whole constants ⊢
    have wide : 0 < Width.width last := last.width_pos
    have before : 1 + SlotSeq.slots items < 1 + SlotSeq.slots (items ++ [last]) := by
      rw [SlotSeq.slots_append, SlotSeq.slots_cons]
      omega
    have read : Reads (decodeOnto _ (.empty 1)) _ _ :=
      reads_decodeOnto constants before (le_rfl)
    rwa [whole] at read

end ConstantTable

theorem AccessFlags.reads_encode {kind : Declared} {flags : AccessFlags kind}
    (known : flags.bits &&& kind.known = flags.bits) : Reads (decode kind) flags.encode flags := by
  have read : Reads (decode kind) flags.encode (ofKnownBits kind flags.bits) :=
    (reads_word16 flags.bits).map _
  unfold ofKnownBits at read
  rwa [known] at read

theorem Attribute.reads_encode {a : Attribute} (short : a.info.length < 2 ^ (32 : Nat)) :
    Reads decode a.encode a :=
  (reads_word16 a.name).bind ((reads_block short).map _)

theorem Version.reads_encode (version : Version) : Reads decode version.encode version :=
  (reads_word16 version.minor).bind ((reads_word16 version.major).map _)

/-- The attributes are not too many, and no payload is too long. -/
structure Attribute.FitAll (attributes : List Attribute) : Prop where
  few : attributes.length ≤ 65535
  short : ∀ a ∈ attributes, a.info.length < 2 ^ (32 : Nat)

theorem Attribute.reads_list {attributes : List Attribute} (fit : FitAll attributes) :
    Reads (Decoder.list decode) (Bytes.ofList encode attributes) attributes :=
  reads_ofList (fun a member => Attribute.reads_encode (fit.short a member)) fit.few

namespace MemberInfo

variable {kind : Declared}

/-- All lengths can be written, and all flags have a meaning. -/
structure Fits (member : MemberInfo kind) : Prop where
  access : member.access.bits &&& kind.known = member.access.bits
  attributes : Attribute.FitAll member.attributes

theorem reads_encode {member : MemberInfo kind} (fits : member.Fits) :
    Reads (decode kind) member.encode member := by
  have read : Reads (decode kind) _ member :=
    (AccessFlags.reads_encode fits.access).bind <| (reads_word16 member.name).bind <|
      (reads_word16 member.descriptor).bind <| (Attribute.reads_list fits.attributes).map _
  simpa only [encode, List.append_assoc] using read

end MemberInfo

namespace ClassFile

variable {file : ClassFile}

/-- All lengths but the number of constants can be written, all flags have a meaning, and the
superclass, if there is one, has an index. -/
structure Fits (file : ClassFile) : Prop where
  constants : file.constants.Fits
  access : file.access.bits &&& Declared.known .ofClass = file.access.bits
  superclass : file.superclass ≠ some 0
  interfaces : file.interfaces.length ≤ 65535
  fields : file.fields.length ≤ 65535
  eachField : ∀ member ∈ file.fields, member.Fits
  methods : file.methods.length ≤ 65535
  eachMethod : ∀ member ∈ file.methods, member.Fits
  attributes : Attribute.FitAll file.attributes

def declarations (file : ClassFile) : Bytes :=
  file.access.encode ++ (Bytes.ofWord16 file.thisClass ++
    (Bytes.ofWord16 (file.superclass.getD 0) ++ (Bytes.ofList Bytes.ofWord16 file.interfaces ++
    (Bytes.ofList MemberInfo.encode file.fields ++ (Bytes.ofList MemberInfo.encode file.methods ++
    Bytes.ofList Attribute.encode file.attributes)))))

theorem encode_eq (file : ClassFile) :
    file.encode = magic ++ (file.version.encode ++ (file.constants.encode ++ file.declarations)) := by
  simp only [encode, declarations, List.append_assoc]

theorem reads_of_constants {table : Bytes} (fits : file.Fits)
    (constants : Reads ConstantTable.decode table file.constants) :
    Reads decoder (magic ++ (file.version.encode ++ (table ++ file.declarations))) file := by
  have superclass : (if file.superclass.getD 0 = 0 then none else some (file.superclass.getD 0)) =
      file.superclass := by
    have indexed := fits.superclass
    cases above : file.superclass with
    | none => rfl
    | some index =>
      rw [above] at indexed
      exact if_neg fun zero => indexed (congrArg some zero)
  have read : Reads decoder _ { file with
      superclass := if file.superclass.getD 0 = 0 then none else some (file.superclass.getD 0) } :=
    (reads_take magic).bind <| (Version.reads_encode file.version).bind <| constants.bind <|
      (AccessFlags.reads_encode fits.access).bind <| (reads_word16 file.thisClass).bind <|
      (reads_word16 (file.superclass.getD 0)).bind <|
      (reads_ofList (fun index _ => reads_word16 index) fits.interfaces).bind <|
      (reads_ofList (fun _ known => MemberInfo.reads_encode (fits.eachField _ known))
        fits.fields).bind <|
      (reads_ofList (fun _ known => MemberInfo.reads_encode (fits.eachMethod _ known))
        fits.methods).bind <|
      (Attribute.reads_list fits.attributes).map _
  rwa [superclass] at read

theorem decode_of_reads (reads : Reads decoder bytes file) : ClassFile.decode bytes = .ok file := by
  have whole := reads []
  rw [List.append_nil] at whole
  unfold ClassFile.decode Decoder.all
  rw [whole]

theorem reads_encode (fits : file.Fits) (room : file.constants.next ≤ 65535) :
    Reads decoder file.encode file := by
  rw [encode_eq]
  exact reads_of_constants fits (ConstantTable.reads_encode fits.constants room)

/-- A class file that can be written is read back from its bytes, and nothing of them is left. -/
theorem decode_encode {file : ClassFile} (fits : file.Fits) (room : file.constants.next ≤ 65535) :
    ClassFile.decode file.encode = .ok file ∧
      ∀ rest, decoder (file.encode ++ rest) = .ok (file, rest) :=
  ⟨decode_of_reads (reads_encode fits room), reads_encode fits room⟩

/-- A class with a field, an attribute with a payload and a constant of two indices. -/
def counter : ClassFile where
  version := .java8
  constants := (SlotSeq.empty 1).pushAll [.utf8 "A", .classRef 1, .long 7, .utf8 "n"]
  access := ⟨AccessFlags.finalBit⟩
  thisClass := 2
  superclass := some 2
  interfaces := [2]
  fields := [⟨⟨AccessFlags.staticBit⟩, 5, 1, [⟨5, [0, 3]⟩]⟩]
  methods := []
  attributes := []

theorem fits_counter : counter.Fits where
  constants := ConstantTable.fits_empty.pushAll (by decide)
  access := by decide
  superclass := by decide
  interfaces := by decide
  fields := by decide
  eachField := List.forall_mem_singleton.mpr
    ⟨by decide, by decide, List.forall_mem_singleton.mpr (by decide)⟩
  methods := by decide
  eachMethod := List.forall_mem_nil _
  attributes := ⟨Nat.zero_le _, List.forall_mem_nil _⟩

theorem decode_encode_counter : ClassFile.decode counter.encode = .ok counter :=
  (decode_encode fits_counter (by decide)).1

end ClassFile

end ClassForge
