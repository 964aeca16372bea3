import ClassForge.Proofs.Finishing
import ClassForge.Proofs.Rereading

namespace ClassForge

open Decoder

section Writes

variable {α β : Type} {good fine : Prop} {result : Except FormatError α}
  {f : α → Except FormatError β}

/-- There is a result exactly under a condition; otherwise the input is to blame. -/
def WritesIf (good : Prop) : Except FormatError α → Prop
  | .ok _ => good
  | .error cause => ¬good ∧ cause.kind = .invalidInput

theorem WritesIf.exists_ok (writes : WritesIf good result) (this : good) : ∃ a, result = .ok a := by
  cases result with
  | ok a => exact ⟨a, rfl⟩
  | error cause => exact absurd this writes.1

theorem WritesIf.exists_error (writes : WritesIf good result) (not : ¬good) :
    ∃ cause, result = .error cause ∧ cause.kind = .invalidInput := by
  cases result with
  | ok a => exact absurd writes not
  | error cause => exact ⟨cause, rfl, writes.2⟩

theorem WritesIf.congr (writes : WritesIf good result) (same : good ↔ fine) : WritesIf fine result := by
  rwa [← same]

theorem WritesIf.bind (first : WritesIf good result) (second : ∀ a, WritesIf fine (f a)) :
    WritesIf (good ∧ fine) (result >>= f) := by
  cases result with
  | ok a => exact (second a).congr (and_iff_right first).symm
  | error cause => exact ⟨fun both => first.1 both.1, first.2⟩

theorem WritesIf.map (first : WritesIf good result) (g : α → β) :
    WritesIf good (do return g (← result)) :=
  (first.bind fun _ => show WritesIf True (.ok _) from trivial).congr (and_iff_left trivial)

theorem WritesIf.mapM {good : α → Prop} (each : ∀ a, WritesIf (good a) (f a)) (items : List α) :
    WritesIf (∀ a ∈ items, good a) (items.mapM f) := by
  induction items with
  | nil => exact List.forall_mem_nil _
  | cons a rest ih =>
    rw [List.mapM_cons]
    exact ((each a).bind fun b => ih.map (b :: ·)).congr List.forall_mem_cons.symm

end Writes

theorem VerificationType.writesIf_encode (type : CType) :
    WritesIf (type ≠ .returnAddress) type.encode := by
  cases type with
  | returnAddress => exact ⟨fun differ => differ rfl, rfl⟩
  | _ => exact nofun

namespace MapFrame

/-- One to three locals are chopped off or appended, and no return address is in the frame. -/
def IsWritable : MapFrame → Prop
  | .same _ => True
  | .sameOne _ entry => entry ≠ .returnAddress
  | .chop _ count => 1 ≤ count ∧ count ≤ 3
  | .append _ locals =>
    (1 ≤ locals.length ∧ locals.length ≤ 3) ∧ ∀ type ∈ locals, type ≠ .returnAddress
  | .full _ locals stack =>
    (∀ type ∈ locals, type ≠ .returnAddress) ∧ ∀ type ∈ stack, type ≠ .returnAddress

theorem writesIf_encodeTypes (types : List CType) :
    WritesIf (∀ type ∈ types, type ≠ .returnAddress) (encodeTypes types) :=
  (WritesIf.mapM VerificationType.writesIf_encode types).map List.flatten

theorem writesIf_encode (frame : MapFrame) : WritesIf frame.IsWritable frame.encode := by
  cases frame with
  | same delta =>
    simp only [encode]
    split <;> trivial
  | sameOne delta entry =>
    have tagged (type : Bytes) : WritesIf True (if delta ≤ 63 then
        .ok ((delta.toUInt8 + 64) :: type) else .ok (247 :: Bytes.ofWord16 delta ++ type)) := by
      split <;> trivial
    exact ((VerificationType.writesIf_encode entry).bind tagged).congr (and_iff_left trivial)
  | chop delta count =>
    simp only [encode]
    split
    · next few => exact few
    · next many => exact ⟨many, rfl⟩
  | append delta locals =>
    simp only [encode]
    split
    · next few => exact ((writesIf_encodeTypes locals).map _).congr (and_iff_right few).symm
    · next many => exact ⟨fun both => many both.1, rfl⟩
  | full delta locals stack =>
    exact (writesIf_encodeTypes locals).bind fun _ => (writesIf_encodeTypes stack).map _

end MapFrame

namespace Frame

variable {frame previous : CFrame} {delta : UInt16}

end Frame

namespace Payload

/-- The payload has a layout of its own, its lengths can be written, and its flags have a meaning. -/
def Fits : Payload → Prop
  | .constantValue _ | .sourceFile _ => True
  | .exceptions classes => classes.length ≤ 65535
  | .lineNumbers rows => rows.length ≤ 65535
  | .localVariables rows | .localVariableTypes rows => rows.length ≤ 65535
  | .stackMap frames => frames.length ≤ 65535 ∧ ∀ frame ∈ frames, frame.IsShort
  | .innerClasses rows => rows.length ≤ 65535 ∧
    ∀ row ∈ rows, row.access.bits &&& Declared.known .ofInner = row.access.bits
  | .code body => body.Fits
  | .other _ _ => False

def IsWritable : Payload → Prop
  | .stackMap frames => ∀ frame ∈ frames, frame.IsWritable
  | _ => True

theorem writesIf_encode (payload : Payload) : WritesIf payload.IsWritable payload.encode := by
  cases payload with
  | stackMap frames => exact (WritesIf.mapM MapFrame.writesIf_encode frames).map _
  | _ => trivial

theorem reads_lineNumber (row : LineNumber) : Reads LineNumber.decode row.encode row :=
  (reads_word16 row.pc).bind ((reads_word16 row.line).map _)

theorem reads_localVariable (row : LocalVariable) : Reads LocalVariable.decode row.encode row := by
  have read : Reads LocalVariable.decode _ row :=
    (reads_word16 row.start).bind <| (reads_word16 row.length).bind <|
      (reads_word16 row.name).bind <| (reads_word16 row.type).bind <|
      (reads_word16 row.register).map _
  simpa only [LocalVariable.encode, List.append_assoc] using read

theorem reads_innerClass {row : InnerClass}
    (known : row.access.bits &&& Declared.known .ofInner = row.access.bits) :
    Reads InnerClass.decode row.encode row := by
  have read : Reads InnerClass.decode _ row :=
    (reads_word16 row.inner).bind <| (reads_word16 row.outer).bind <|
      (reads_word16 row.name).bind <| (AccessFlags.reads_encode known).map _
  simpa only [InnerClass.encode, List.append_assoc] using read

theorem reads_encode {payload : Payload} {info : Bytes} (fits : payload.Fits)
    (written : payload.encode = .ok info) : Reads (decoder payload.name) info payload := by
  cases payload with
  | stackMap frames => exact reads_stackMap fits.2 (Nat.lt_succ_of_le fits.1) written
  | other => exact fits.elim
  | constantValue index | sourceFile index =>
    cases written
    exact (reads_word16 index).map _
  | exceptions classes =>
    cases written
    exact (reads_ofList (fun index _ => reads_word16 index) fits).map _
  | lineNumbers rows =>
    cases written
    exact (reads_ofList (fun row _ => reads_lineNumber row) fits).map _
  | localVariables rows | localVariableTypes rows =>
    cases written
    exact (reads_ofList (fun row _ => reads_localVariable row) fits).map _
  | innerClasses rows =>
    cases written
    exact (reads_ofList (fun row member => reads_innerClass (fits.2 row member)) fits.1).map _
  | code body =>
    cases written
    exact (Code.reads_encode fits).map _

/-- A payload that can be written makes an attribute whenever there is room for its name, and is read
back from it; more bytes are left alone by the reader, but not accepted in an attribute. A frame that
cannot be written is refused, and so is a payload with one. -/
theorem attribute_roundTrip (payload : Payload) :
    (payload.Fits → payload.IsWritable → ∃ info, payload.encode = .ok info ∧
      (∀ pool a later, Build.attributeOf payload pool = .ok a later ↔
        Pool.utf8 payload.name pool = .ok a.name later ∧ a.info = info) ∧
      Payload.decode payload.name info = .ok payload ∧
      ∀ rest, decoder payload.name (info ++ rest) = .ok (payload, rest) ∧
        (rest ≠ [] → Payload.decode payload.name (info ++ rest) =
          .error (.trailingInAttribute payload.name rest.length))) ∧
    (¬payload.IsWritable → ∃ cause, payload.encode = .error cause ∧ cause.kind = .invalidInput) ∧
    ∀ frame : MapFrame, ¬frame.IsWritable →
      ∃ cause, frame.encode = .error cause ∧ cause.kind = .invalidInput := by
  refine ⟨fun fits writable => ?_, (writesIf_encode payload).exists_error,
    fun frame => (MapFrame.writesIf_encode frame).exists_error⟩
  obtain ⟨info, written⟩ := (writesIf_encode payload).exists_ok writable
  have reads := reads_encode fits written
  refine ⟨info, written, fun pool a later => ?_, all_ok.mpr reads.whole, fun rest =>
    ⟨reads rest, fun some => ?_⟩⟩
  · unfold Build.attributeOf
    rw [written]
    constructor
    · intro run
      obtain ⟨name, between, named, made⟩ := estate_bind_ok.mp run
      cases made
      exact ⟨Build.pool_ok.mp named, rfl⟩
    · rintro ⟨named, rfl⟩
      exact estate_bind_ok.mpr ⟨a.name, later, Build.pool_ok.mpr named, rfl⟩
  · unfold Payload.decode Decoder.all
    rw [reads rest]
    cases rest with
    | nil => exact absurd rfl some
    | cons => rfl

def allForms : Payload :=
  .stackMap [.same 63, .sameOne 64 .null, .chop 1 3, .append 7 [.long, .top],
    .full 0 [.uninitializedThis] [.object 2, .uninitialized 3]]

theorem attribute_roundTrip_allForms : allForms.Fits ∧ allForms.IsWritable ∧
    (∃ info a later, Build.attributeOf allForms .empty = .ok a later ∧ a.info = info ∧
      Payload.decode "StackMapTable" info = .ok allForms) ∧
    ∃ cause, (MapFrame.append 0 [.integer, .integer, .integer, .integer]).encode = .error cause := by
  have fits : allForms.Fits := ⟨by decide, by simp [MapFrame.IsShort]⟩
  have writable : allForms.IsWritable := by simp [allForms, IsWritable, MapFrame.IsWritable]
  obtain ⟨info, _, makes, read, _⟩ := (attribute_roundTrip allForms).1 fits writable
  have named : Pool.utf8 "StackMapTable" .empty = .ok 1 (Pool.empty.push (.utf8 "StackMapTable")) :=
    Pool.utf8_of_fresh (Pool.indexOf?_empty _)
      (by simp [ModifiedUtf8.length, maxTextLength, ModifiedUtf8.charLength]) (by decide)
  obtain ⟨cause, refused, _⟩ := (attribute_roundTrip allForms).2.2
    (.append 0 [.integer, .integer, .integer, .integer]) (by simp [MapFrame.IsWritable])
  exact ⟨fits, writable, ⟨info, ⟨1, info⟩, _, (makes _ _ _).mpr ⟨named, rfl⟩, rfl, read⟩, cause, refused⟩

end Payload

end ClassForge
