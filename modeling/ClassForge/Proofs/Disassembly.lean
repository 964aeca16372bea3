import ClassForge.Proofs.DescriptorReading
import ClassForge.Proofs.Stocking
import Mathlib

namespace ClassForge

def RefType.ofConstantName? (text : String) : Option RefType :=
  if text.toList.head? = some '[' then (RefType.parse text).toOption else some (.object ⟨text⟩)

/-- The value of a constant; how a member is accessed is left open. -/
def Content.value? : Content → Option PoolValue
  | .utf8 text => some (.utf8 text)
  | .integer value => some (.integer value)
  | .float bits => some (.float bits)
  | .long value => some (.long value)
  | .double bits => some (.double bits)
  | .string text => some (.string text)
  | .classRef name => (RefType.ofConstantName? name).map .classRef
  | .field owner name descriptor =>
    (FieldType.parse descriptor).toOption.map fun type => .field ⟨⟨owner⟩, ⟨name⟩, type, false⟩
  | .method owner name descriptor ownerIsInterface =>
    (MethodDescriptor.parse descriptor).toOption.map fun type =>
      .method ⟨⟨owner⟩, ⟨name⟩, type, false, ownerIsInterface, false⟩
  | .nameAndType name descriptor => some (.nameAndType name descriptor)

namespace PoolValue

def Valid : PoolValue → Prop
  | .classRef type => type.Valid
  | .field ref => ref.descriptor.Valid
  | .method ref => ref.descriptor.Valid
  | _ => True

theorem constantName_read {type : RefType} (valid : type.Valid) :
    RefType.ofConstantName? type.constantName = some type := by
  have array {type : RefType} (valid : type.Valid) (opens : type.chars.head? = some '[') :
      RefType.ofConstantName? type.render = some type := by
    unfold RefType.ofConstantName?
    rw [if_pos (by rw [RefType.render, String.toList_ofList, opens]), RefType.parse, RefType.render,
      (RefType.read_accepts.run_iff _ type).mpr ⟨valid, rfl⟩]
    rfl
  cases type with
  | object name =>
    refine if_neg fun opens => ?_
    have clear : name.Clear := BinaryName.Valid.clear valid
    exact (clear '[' (List.mem_of_mem_head? opens)).2 rfl
  | objectArray | primitiveArray => exact array valid rfl

theorem value?_content {value : PoolValue} (valid : value.Valid) :
    value.content.value? = some value.plain := by
  cases value with
  | classRef type =>
    simp only [content, Content.value?, constantName_read valid]
    rfl
  | field ref =>
    have read := (FieldType.read_accepts.run_iff _ ref.descriptor).mpr ⟨valid, rfl⟩
    simp only [content, Content.value?, FieldType.parse, FieldType.render, read]
    rfl
  | method ref =>
    have read := (MethodDescriptor.read_accepts.run_iff _ ref.descriptor).mpr ⟨valid, rfl⟩
    simp only [content, Content.value?, MethodDescriptor.parse, MethodDescriptor.render, read]
    rfl
  | _ => rfl

end PoolValue

namespace Instruction

def nums : List NumKind := [.int, .long, .float, .double]

def kinds : List Kind := nums.map .num ++ [.ref]

def elements : List ElementKind := nums.map .num ++ [.ref, .byte, .char, .short]

def conversionsFrom (source : NumKind) : List Instruction :=
  nums.filterMap fun target => (Conversion.between? source target).map .convert

/-- The instructions of one byte. Each row has consecutive opcodes from the given one on. -/
def oneByte : List (UInt8 × List Instruction) :=
  [(0x00, [.nop, .pushNull] ++ (List.finRange 7).map .pushInt ++ (List.finRange 2).map .pushLong ++
      (List.finRange 3).map .pushFloat ++ (List.finRange 2).map .pushDouble),
    (0x1A, kinds.flatMap (fun kind => [0, 1, 2, 3].map (.load kind)) ++ elements.map .arrayLoad),
    (0x3B, kinds.flatMap (fun kind => [0, 1, 2, 3].map (.store kind)) ++ elements.map .arrayStore),
    (0x57, [StackOp.pop, .pop2, .dup, .dupX1, .dupX2, .dup2, .dup2X1, .dup2X2, .swap].map .stack),
    (0x60, [ArithmeticOp.add, .sub, .mul, .div, .rem].flatMap fun op => nums.map (.arithmetic op)),
    (0x74, nums.map .negate),
    (0x78, [ShiftOp.left, .arithmeticRight, .logicalRight].flatMap fun op =>
      [.shift op .int, .shift op .long]),
    (0x7E, [BitOp.and, .or, .xor].flatMap fun op => [.bitwise op .int, .bitwise op .long]),
    (0x85, nums.flatMap conversionsFrom ++ [NarrowKind.byte, .char, .short].map .narrow),
    (0x94, [.compareLong, .compareFloat .float .less, .compareFloat .float .greater,
      .compareFloat .double .less, .compareFloat .double .greater]),
    (0xAC, kinds.map .returnValue ++ [.returnVoid]),
    (0xBE, [.arrayLength, .throwValue]),
    (0xC2, [.monitorEnter, .monitorExit])]

/-- The instructions with a register, which is in one byte or, in the wide form, in two. -/
def withRegister (register : UInt16) : List (UInt8 × List Instruction) :=
  [(0x15, kinds.map (.load · register)), (0x36, kinds.map (.store · register)),
    (0xA9, [.ret register])]

def member? (rows : List (UInt8 × List Instruction)) (opcode : UInt8) : Option Instruction :=
  rows.findSome? fun (first, members) =>
    if first ≤ opcode then members[(opcode - first).toNat]? else none

def elementType? (code : UInt8) : Option BaseType :=
  [BaseType.boolean, .char, .float, .double, .byte, .short, .int, .long][code.toNat - 4]?

def loadable? : PoolValue → Option Loadable
  | .integer value => some (.integer value)
  | .float bits => some (.float bits)
  | .long value => some (.long value)
  | .double bits => some (.double bits)
  | .string text => some (.string text)
  | .classRef type => some (.classRef type)
  | _ => none

def pushed? (wide : Bool) (value : PoolValue) : Option Instruction :=
  match loadable? value with
  | some constant => if constant.isWide = wide then some (.pushConstant constant) else none
  | none => none

def referring? (opcode : UInt8) (value : PoolValue) : Option Instruction :=
  match opcode.toNat, value with
  | 0x13, value => pushed? false value
  | 0x14, value => pushed? true value
  | 0xB2, .field ref => some (.getStatic ref)
  | 0xB3, .field ref => some (.putStatic ref)
  | 0xB4, .field ref => some (.getField ref)
  | 0xB5, .field ref => some (.putField ref)
  | 0xB6, .method ref => some (.invoke .virtual ref)
  | 0xB7, .method ref => some (.invoke .special ref)
  | 0xB8, .method ref => some (.invoke .static ref)
  | 0xBB, .classRef (.object name) => some (.allocate name)
  | 0xBD, .classRef type => some (.newRefArray type)
  | 0xC0, .classRef type => some (.checkCast type)
  | 0xC1, .classRef type => some (.instanceOf type)
  | _, _ => none

/-- The instruction that some bytes are, with the given constants. -/
def read? (table : ConstantTable) : Bytes → Option Instruction
  | [opcode] => member? oneByte opcode
  | [opcode, operand] =>
    if opcode = 0x10 then some (.pushByte operand.toInt8)
    else if opcode = 0x12 then (value? operand.toUInt16).bind (pushed? false)
    else if opcode = 0xBC then (elementType? operand).map .newArray
    else member? (withRegister operand.toUInt16) opcode
  | [opcode, high, low] =>
    if opcode = 0x11 then some (.pushShort (Bytes.toWord16 high low).toInt16)
    else if opcode = 0x84 then some (.increment high.toUInt16 low.toInt8.toInt16)
    else (value? (Bytes.toWord16 high low)).bind (referring? opcode)
  | [opcode, first, second, third] =>
    if opcode = Opcode.wide then member? (withRegister (Bytes.toWord16 second third)) first
    else if opcode = 0xC5 then
      match value? (Bytes.toWord16 first second) with
      | some (.classRef array) => some (.newMultiArray array third)
      | _ => none
    else none
  | [opcode, high, low, slots, zero] =>
    match value? (Bytes.toWord16 high low) with
    | some (.method ref) =>
      if opcode = 0xB9 ∧ slots = UInt8.ofNat (ref.descriptor.parameterSlots + 1) ∧ zero = 0 then
        some (.invoke .interface ref)
      else none
    | _ => none
  | [opcode, first, high, low, high', low'] =>
    if opcode = Opcode.wide ∧ first = 0x84 then
      some (.increment (Bytes.toWord16 high low) (Bytes.toWord16 high' low').toInt16)
    else none
  | _ => none
where
  value? (index : UInt16) : Option PoolValue := (table.content? index).bind Content.value?

def constant? : Instruction → Option PoolValue
  | .pushConstant constant => some constant.value
  | .getStatic ref | .putStatic ref | .getField ref | .putField ref => some (.field ref)
  | .invoke _ ref => some (.method ref)
  | .allocate name => some (.classRef (.object name))
  | .newRefArray type | .checkCast type | .instanceOf type
  | .newMultiArray type _ => some (.classRef type)
  | _ => none

theorem toUInt16_toUInt8 {n : UInt16} (small : n ≤ 255) : n.toUInt8.toUInt16 = n := by
  have bound := UInt16.le_iff_toNat_le.mp small
  apply UInt16.toNat.inj
  simp at bound ⊢
  omega

/-- The instruction without what the pool does not tell about a member. -/
def plain : Instruction → Instruction
  | .getStatic ref => .getStatic { ref with isStatic := false }
  | .putStatic ref => .putStatic { ref with isStatic := false }
  | .getField ref => .getField { ref with isStatic := false }
  | .putField ref => .putField { ref with isStatic := false }
  | .invoke mode ref => .invoke mode { ref with isStatic := false, isPrivate := false }
  | other => other

def Valid (instruction : Instruction) : Prop := ∀ value ∈ instruction.constant?, value.Valid

section Reading

variable {table : ConstantTable} {pool pool' later : Pool} {bytes : Bytes} {opcode : UInt8}
  {instruction : Instruction}

theorem value?_of_put {value : PoolValue} {index : UInt16} (valid : value.Valid)
    (put : Pool.put value pool = .ok index pool') (more : pool'.Extends later) (sound : later.Sound) :
    read?.value? later.constants index = some value.plain := by
  have interned : Pool.Interns False pool (Pool.put value) _ := Pool.interns_put value
  have known := more.get? (interned.ok put).2
  rw [read?.value?, sound.content? known]
  exact PoolValue.value?_content valid

theorem read_ofWord16 (index : UInt16) (same : opcode ≠ 0x11) (other : opcode ≠ 0x84) :
    read? table (opcode :: Bytes.ofWord16 index) =
      (read?.value? table index).bind (referring? opcode) := by
  simp only [Bytes.ofWord16, read?, if_neg same, if_neg other, Bytes.toWord16_ofWord16]

theorem read_withIndex {value : PoolValue} (valid : value.Valid)
    (run : withIndex opcode (Pool.put value) pool = .ok bytes pool') (more : pool'.Extends later)
    (sound : later.Sound) (same : opcode ≠ 0x11) (other : opcode ≠ 0x84) :
    read? later.constants bytes = referring? opcode value.plain := by
  obtain ⟨index, _, put, ran⟩ := estate_bind_ok.mp run
  cases ran
  rw [read_ofWord16 index same other, value?_of_put valid put more sound]
  rfl

theorem read_single (found : member? oneByte opcode = some instruction)
    (run : (pure [opcode] : PoolM Bytes) pool = .ok bytes pool') : read? table bytes = some instruction := by
  cases run
  exact found

theorem read_register (make : UInt16 → Instruction) (register : UInt16)
    (found : ∀ register, member? (withRegister register) opcode = some (make register))
    (apart : opcode ∉ [0x10, 0x12, 0xBC]) :
    read? table (if register ≤ 255 then [opcode, register.toUInt8]
      else Opcode.wide :: opcode :: Bytes.ofWord16 register) = some (make register) := by
  split
  · next small =>
    simp only [List.mem_cons, List.not_mem_nil, or_false, not_or] at apart
    obtain ⟨noByte, noConstant, noArray⟩ := apart
    simp only [read?, if_neg noByte, if_neg noConstant, if_neg noArray, toUInt16_toUInt8 small, found]
  · simp only [read?, Bytes.ofWord16, if_pos, Bytes.toWord16_ofWord16, found]

theorem read_encodeLocal (make : Kind → UInt16 → Instruction) {short normal : UInt8} {kind : Kind}
    (register : UInt16) (direct : ∀ i : Fin 4,
      member? oneByte (Opcode.family short (4 * kind.index) + UInt8.ofNat i) =
        some (make kind (UInt16.ofNat i)))
    (found : ∀ register, member? (withRegister register) (Opcode.family normal kind.index) =
      some (make kind register))
    (apart : Opcode.family normal kind.index ∉ [0x10, 0x12, 0xBC]) :
    read? table (encodeLocal short normal kind register) = some (make kind register) := by
  unfold encodeLocal
  by_cases small : register ≤ 3
  · have bound := UInt16.le_iff_toNat_le.mp small
    have this := direct ⟨register.toNat, by simp at bound; omega⟩
    rw [if_pos small]
    simpa [read?] using this
  · rw [if_neg small]
    exact read_register (make kind) register found apart

theorem read_encodeIncrement (register : UInt16) (delta : Int16) :
    read? table (encodeIncrement register delta) = some (.increment register delta) := by
  unfold encodeIncrement
  split
  · next small =>
    have same : delta.toInt8.toInt16 = delta := by
      obtain ⟨_, lower, upper⟩ := small
      apply Int16.toInt.inj
      have lower := Int16.le_iff_toInt_le.mp lower
      have upper := Int16.le_iff_toInt_le.mp upper
      rw [Int8.toInt_toInt16, Int16.toInt_toInt8]
      exact Int.bmod_eq_of_le (by simpa using lower) (by simpa using Int.lt_add_one_iff.mpr upper)
    simp [read?, toUInt16_toUInt8 small.1, same]
  · simp [read?, Bytes.ofWord16, Bytes.toWord16_ofWord16]

theorem read_encodeConstant {constant : Loadable} {index : UInt16} (valid : constant.value.Valid)
    (put : Pool.put constant.value pool = .ok index pool') (more : pool'.Extends later)
    (sound : later.Sound) :
    read? later.constants (encodeConstant constant index) = some (.pushConstant constant) := by
  have known := value?_of_put valid put more sound
  have same : constant.value.plain = constant.value := by cases constant <;> rfl
  have back (wide : Bool) (form : constant.isWide = wide) :
      pushed? wide constant.value = some (.pushConstant constant) := by
    have found : loadable? constant.value = some constant := by cases constant <;> rfl
    simp only [pushed?, found, form, if_pos]
  rw [same] at known
  unfold encodeConstant
  split
  · next wide =>
    rw [read_ofWord16 index (by decide) (by decide), known]
    exact back true wide
  · next narrow =>
    split
    · next small =>
      simp only [read?, if_pos, toUInt16_toUInt8 small, known]
      exact back false (by simpa using narrow)
    · rw [read_ofWord16 index (by decide) (by decide), known]
      exact back false (by simpa using narrow)

theorem read_encode (valid : instruction.Valid) (run : instruction.encode pool = .ok bytes pool')
    (more : pool'.Extends later) (sound : later.Sound) :
    read? later.constants bytes = some instruction.plain := by
  cases instruction with
  | pushConstant constant =>
    obtain ⟨index, _, put, ran⟩ := estate_bind_ok.mp run
    cases ran
    exact read_encodeConstant (valid _ rfl) put more sound
  | getStatic ref | putStatic ref | getField ref | putField ref
  | allocate name | newRefArray element | checkCast type | instanceOf type =>
    exact read_withIndex (valid _ rfl) run more sound (by decide) (by decide)
  | invoke mode ref =>
    obtain ⟨front, _, indexed, ran⟩ := estate_bind_ok.mp run
    cases mode with
    | interface =>
      obtain ⟨index, _, put, chosen⟩ := estate_bind_ok.mp indexed
      cases chosen
      cases ran
      have known := value?_of_put (valid _ rfl) put more sound
      simp [read?, Bytes.ofWord16, Bytes.toWord16_ofWord16, known, PoolValue.plain, plain,
        InvokeMode.opcode]
    | virtual | special | static =>
      cases ran
      exact read_withIndex (valid _ rfl) indexed more sound (by decide) (by decide)
  | newMultiArray array dimensions =>
    obtain ⟨front, _, indexed, ran⟩ := estate_bind_ok.mp run
    obtain ⟨index, _, put, chosen⟩ := estate_bind_ok.mp indexed
    cases chosen
    cases ran
    have known := value?_of_put (valid _ rfl) put more sound
    simp [read?, Bytes.ofWord16, Bytes.toWord16_ofWord16, known, PoolValue.plain, plain, Opcode.wide]
  | load kind register =>
    cases run
    refine read_encodeLocal .load register ?_ ?_ ?_ <;>
      (rcases kind with (_ | _ | _ | _) | _ <;> first | exact fun _ => rfl | decide)
  | store kind register =>
    cases run
    refine read_encodeLocal .store register ?_ ?_ ?_ <;>
      (rcases kind with (_ | _ | _ | _) | _ <;> first | exact fun _ => rfl | decide)
  | ret register =>
    cases run
    exact read_register .ret register (fun _ => rfl) (by decide)
  | increment register delta =>
    cases run
    exact read_encodeIncrement register delta
  | pushByte value | pushShort value =>
    cases run
    simp [read?, plain, Bytes.ofWord16, Bytes.toWord16_ofWord16]
  | newArray element =>
    cases run
    cases element <;> rfl
  | pushInt value | pushLong value | pushFloat value
  | pushDouble value => exact read_single (by clear run valid; decide +revert) run
  | arrayLoad element | arrayStore element =>
    exact read_single (by rcases element with (_ | _ | _ | _) | _ | _ | _ | _ <;> rfl) run
  | stack op | narrow op => exact read_single (by cases op <;> rfl) run
  | negate kind => exact read_single (by cases kind <;> rfl) run
  | arithmetic op kind | shift op kind | bitwise op kind
  | compareFloat op kind => exact read_single (by cases op <;> cases kind <;> rfl) run
  | convert conversion =>
    obtain ⟨source, target, differ⟩ := conversion
    refine read_single ?_ run
    cases source <;> cases target <;> first | exact absurd rfl differ | (clear run valid; decide +revert)
  | returnValue kind => exact read_single (by rcases kind with (_ | _ | _ | _) | _ <;> rfl) run
  | nop | pushNull | compareLong | returnVoid | throwValue | arrayLength | monitorEnter
  | monitorExit => exact read_single rfl run

end Reading

end Instruction

namespace Bytes

variable {piece : Bytes}

def cut? : Bytes → Option (List Bytes)
  | [] => some []
  | opcode :: rest => do
    let length ← plainLength? (opcode :: rest)
    if length ≤ rest.length + 1 then
      return (opcode :: rest.take (length - 1)) :: (← cut? (rest.drop (length - 1)))
    else none
termination_by bytes => bytes.length
decreasing_by
  simp only [List.length_drop, List.length_cons]
  omega

theorem plainLength?_append (complete : plainLength? piece = some piece.length) (rest : Bytes) :
    plainLength? (piece ++ rest) = some piece.length := by
  rcases piece with _ | ⟨opcode, _ | ⟨modified, tail⟩⟩
  · cases complete
  · by_cases wide : opcode = Opcode.wide
    · simp [plainLength?, wide] at complete
    · simpa only [plainLength?, List.cons_append, if_neg wide] using complete
  · exact complete

theorem cut?_append (complete : plainLength? piece = some piece.length) (rest : Bytes) :
    cut? (piece ++ rest) = (cut? rest).map (piece :: ·) := by
  have measured := plainLength?_append complete rest
  cases piece with
  | nil => cases complete
  | cons opcode tail =>
    rw [List.cons_append] at measured
    rw [List.cons_append, cut?, measured]
    simp [Option.map_eq_bind]

end Bytes

namespace Instruction

variable {instructions : List Instruction} {pieces : List Bytes} {pool pool' later : Pool}

theorem grows_encodeAll (run : instructions.mapM encode pool = .ok pieces pool') :
    Pool.Grows False pool pool' := by
  induction instructions generalizing pool pieces with
  | nil =>
    cases (estate_pure_ok.mp run).2
    exact .refl
  | cons instruction rest ih =>
    rw [List.mapM_cons] at run
    obtain ⟨piece, between, encoded, run⟩ := estate_bind_ok.mp run
    obtain ⟨others, _, ran, run⟩ := estate_bind_ok.mp run
    cases (estate_pure_ok.mp run).2
    exact (stocked_encode encoded).grows.trans (ih ran)

theorem read_encodeAll (valid : ∀ instruction ∈ instructions, instruction.Valid)
    (run : instructions.mapM encode pool = .ok pieces later) (sound : later.Sound) :
    Bytes.cut? pieces.flatten = some pieces ∧
      pieces.mapM (read? later.constants) = some (instructions.map plain) := by
  induction instructions generalizing pool pieces with
  | nil =>
    cases (estate_pure_ok.mp run).1
    exact ⟨by rw [List.reverse_nil, List.flatten_nil, Bytes.cut?], rfl⟩
  | cons instruction rest ih =>
    rw [List.mapM_cons] at run
    obtain ⟨piece, between, encoded, run⟩ := estate_bind_ok.mp run
    obtain ⟨others, _, ran, run⟩ := estate_bind_ok.mp run
    cases run
    obtain ⟨cut, read⟩ := ih (fun i member => valid i (.tail _ member)) ran
    -- The constants of the first instruction are still there after the others.
    have first := read_encode (valid _ (.head _)) encoded (grows_encodeAll ran).extends sound
    constructor
    · rw [List.flatten_cons, Bytes.cut?_append (isPlain_encode encoded).complete, cut]
      rfl
    · rw [List.mapM_cons, first, read]
      rfl

/-- Encoded instructions can be read back. Their bytes are cut where each of them ends, and every piece
gives, with the constants of the final pool, the instruction that it was made of, but for the flags of
members that the pool does not keep. So no other instructions have these bytes with this pool. -/
theorem encoding_uniquely_decodable (requests : List Pool.Request)
    (valid : ∀ instruction ∈ instructions, instruction.Valid)
    (run : instructions.mapM encode (Pool.run requests .empty) = .ok pieces later) :
    Bytes.cut? pieces.flatten = some pieces ∧
    pieces.mapM (read? later.constants) = some (instructions.map plain) ∧
    ∀ (before : List Pool.Request) (others : List Instruction) (parts : List Bytes) (last : Pool),
      (∀ instruction ∈ others, instruction.Valid) →
      others.mapM encode (Pool.run before .empty) = .ok parts last →
      parts.flatten = pieces.flatten → last.constants = later.constants →
      others.map plain = instructions.map plain := by
  have whole {requests : List Pool.Request} {instructions : List Instruction} {pieces : List Bytes}
      {later : Pool} (valid : ∀ instruction ∈ instructions, instruction.Valid)
      (run : instructions.mapM encode (Pool.run requests .empty) = .ok pieces later) :
      Bytes.cut? pieces.flatten = some pieces ∧
      pieces.mapM (read? later.constants) = some (instructions.map plain) :=
    read_encodeAll valid run ((Pool.sound_run requests).grows (grows_encodeAll run))
  obtain ⟨cut, read⟩ := whole valid run
  refine ⟨cut, read, fun before others parts last valid' run' bytes constants => ?_⟩
  obtain ⟨cut', read'⟩ := whole valid' run'
  rw [bytes, cut] at cut'
  cases cut'
  rw [constants, read] at read'
  exact (Option.some.inj read').symm

/-- A wide load, a wide constant, a wide increment and a call of an interface method. -/
def wideForms : List Instruction :=
  [.load (.num .long) 300, .pushConstant (.long 7), .increment 3 (-200),
    .invoke .interface ⟨⟨"p/A"⟩, ⟨"f"⟩, ⟨[.base .long], none⟩, false, true, true⟩]

theorem encoding_uniquely_decodable_wide : ∃ pieces later,
    wideForms.mapM encode (Pool.run [] .empty) = .ok pieces later ∧ pieces =
      [[0xC4, 0x16, 1, 44], [0x14, 0, 1], [0xC4, 0x84, 0, 3, 255, 56], [0xB9, 0, 8, 3, 0]] ∧
    Bytes.cut? pieces.flatten = some pieces ∧
    pieces.mapM (read? later.constants) = some (wideForms.map plain) := by
  have found : seen? (fun pieces _ => pieces) (wideForms.mapM encode (Pool.run [] .empty)) =
      some [[0xC4, 0x16, 1, 44], [0x14, 0, 1], [0xC4, 0x84, 0, 3, 255, 56], [0xB9, 0, 8, 3, 0]] := by
    cbv
  have valid : ∀ instruction ∈ wideForms, instruction.Valid := by
    simp [wideForms, Valid, constant?, Loadable.value, PoolValue.Valid]
    exact ⟨by simp [FieldType.Valid], by simp⟩
  obtain ⟨pieces, later, run, same⟩ := ok_of_seen? found
  obtain ⟨cut, read, _⟩ := encoding_uniquely_decodable [] valid run
  exact ⟨pieces, later, run, same, cut, read⟩

end Instruction

end ClassForge
