import ClassForge.Proofs.StackMap
import ClassForge.Proofs.Progress

namespace ClassForge

variable {instruction : Instruction}

/-- The bytes are those of an instruction, written when the pool had not more constants than now. -/
def Instruction.Written (instruction : Instruction) (pool : Pool) (bytes : Bytes) : Prop :=
  ∃ before later, instruction.encode before = .ok bytes later ∧ later.Stocked pool

namespace Instruction.Written

variable {instruction : Instruction} {pool later : Pool} {bytes : Bytes}

theorem isPlain (written : instruction.Written pool bytes) : bytes.IsPlain := by
  obtain ⟨_, _, encoded, _⟩ := written
  exact isPlain_encode encoded

theorem stocked (written : instruction.Written pool bytes) (stocked : pool.Stocked later) :
    instruction.Written later bytes := by
  obtain ⟨before, after, encoded, more⟩ := written
  exact ⟨before, after, encoded, more.trans stocked⟩

end Instruction.Written

/-- Every instruction in the code is a jump or a switch, or it has been emitted as it is. -/
def Sourced (code : Bytes) (pool : Pool) : Prop :=
  ∀ pc opcode, Boundary code 0 pc → code[pc]? = some opcode →
    Opcode.isJump opcode = true ∨ Opcode.isSwitch opcode = true ∨
      ∃ instruction bytes, Instruction.Written instruction pool bytes ∧ code.StandAt pc bytes

namespace Sourced

variable {opcode : UInt8} {chain : Chain} {pc : Nat}
variable {code other bytes : Bytes} {pool later : Pool}

theorem empty (pool : Pool) : Sourced [] pool := fun _ _ _ found => nomatch found

section

variable (sourced : Sourced code pool)

include sourced

theorem stocked (stocked : pool.Stocked later) : Sourced code later := by
  intro pc opcode boundary found
  refine (sourced pc opcode boundary found).imp_right (Or.imp_right ?_)
  rintro ⟨instruction, bytes, written, stands⟩
  exact ⟨instruction, bytes, written.stocked stocked, stands⟩

theorem layout (same : SameLayout 0 code other) : Sourced other pool := by
  intro pc opcode boundary found
  have start := same.back pc boundary
  rw [same.opcode pc start] at found
  refine (sourced pc opcode start found).imp_right (Or.imp_right ?_)
  rintro ⟨instruction, bytes, written, stands⟩
  exact ⟨instruction, bytes, written, (same.plain pc bytes start written.isPlain).mpr stands⟩

theorem take {count : Nat} (last : Boundary code 0 count) : Sourced (code.take count) pool := by
  intro pc opcode boundary found
  have inside := (List.getElem?_eq_some_iff.mp found).1
  rw [List.length_take] at inside
  have before : pc < count := by omega
  rw [List.getElem?_take_of_lt before] at found
  have start := boundary.of_take
  refine (sourced pc opcode start found).imp_right (Or.imp_right ?_)
  rintro ⟨instruction, bytes, written, stands⟩
  refine ⟨instruction, bytes, written, fun i less => ?_⟩
  obtain ⟨length, known, fits⟩ := start.instruction_le last before
  rw [stands.instructionLength? written.isPlain.complete] at known
  cases known
  rw [List.getElem?_take_of_lt (by omega)]
  exact stands i less

section

variable (tiled : Boundary code 0 code.length)

include tiled

theorem append (complete : (code ++ bytes).instructionLength? code.length = some bytes.length)
    (new : ∀ opcode ∈ bytes.head?, Opcode.isJump opcode = true ∨ Opcode.isSwitch opcode = true ∨
      ∃ instruction, Instruction.Written instruction pool bytes) :
    Sourced (code ++ bytes) pool := by
  intro pc opcode boundary found
  rcases tiled.append_cases complete boundary found with ⟨_, start, found⟩ | ⟨rfl, head⟩
  · refine (sourced pc opcode start found).imp_right (Or.imp_right ?_)
    rintro ⟨instruction, text, written, stands⟩
    refine ⟨instruction, text, written, fun i less => ?_⟩
    have there := stands i less
    rw [List.getElem?_eq_getElem less] at there
    rw [List.getElem?_append_left (List.getElem?_eq_some_iff.mp there).1, there,
      List.getElem?_eq_getElem less]
  · refine (new opcode head).imp_right (Or.imp_right ?_)
    rintro ⟨instruction, written⟩
    exact ⟨instruction, bytes, written, Bytes.standAt_append code bytes⟩

theorem appendJump {rest : Bytes} (jumps : Opcode.isJump opcode = true)
    (size : rest.length + 1 = Opcode.jumpLength opcode) : Sourced (code ++ opcode :: rest) pool :=
  sourced.append tiled (Bytes.instructionLength?_of_jump code jumps size) fun _ found => by
    cases found
    exact .inl jumps

theorem appendJumps {wide : Bool} {back : Nat} (valid : IsShortJump opcode)
    (chosen : Asm.jumpBytes wide opcode = some (bytes, back)) : Sourced (code ++ bytes) pool := by
  rcases Asm.jumpBytes_cases chosen with ⟨_, rfl, _⟩ | ⟨_, _, ⟨rfl, _⟩ | ⟨rfl, _⟩⟩ |
    ⟨_, _, _, _, negated, known, rfl⟩
  · exact sourced.appendJump tiled valid.isJump valid.short.symm
  · exact sourced.appendJump tiled rfl rfl
  · exact sourced.appendJump tiled rfl rfl
  · obtain ⟨isJump, short, _⟩ := valid.opposite negated known
    have first : Sourced (code ++ [negated, 0, 8]) pool :=
      sourced.appendJump tiled isJump short.symm
    have complete : (code ++ [negated, 0, 8]).instructionLength? code.length = some 3 :=
      Bytes.instructionLength?_of_jump code isJump short.symm
    rw [show code ++ [negated, 0, 8, Opcode.gotoWide, 0, 0, 0, 0] =
      (code ++ [negated, 0, 8]) ++ Opcode.gotoWide :: [0, 0, 0, 0] by simp]
    exact first.appendJump (tiled.append_instruction complete) rfl rfl

end

end

theorem trims {ctx : Context} {target : Nat} {b b' : Buffer} (sourced : Sourced b.bytes pool)
    (trims : Asm.Trims ctx 0 target chain b b') : Sourced b'.bytes pool := by
  cases trims with
  | keep _ same _ => exact sourced.layout same
  | drop _ _ last same _ => exact (sourced.take last.boundary).layout same

variable {ctx : Context} {b b' : Buffer} {rest : Multiset Nat} {log written : List (Nat × Nat)}

theorem flushes {b1 : Buffer} (sourced : Sourced b.bytes pool)
    (carries : b.core.Carries ctx.wide 0 rest written) (flushes : Asm.Flushes ctx b b1 log) :
    Sourced b1.bytes pool ∧ Boundary b1.bytes 0 b1.bytes.length :=
  ⟨sourced.trims (flushes.trims carries), (carries.flushes flushes).wired.tiled⟩

theorem fits {wide : Bool} {new : Addition} (sourced : Sourced code pool)
    (tiled : Boundary code 0 code.length) (fits : new.Fits wide code pool) (whole : new.whole) :
    Sourced (code ++ new.bytes) new.pool := by
  cases fits with
  | plain encoded =>
    refine (sourced.stocked (Instruction.stocked_encode encoded)).append tiled
      ((Instruction.isPlain_encode encoded).isNext code).complete ?_
    exact fun _ _ => .inr (.inr ⟨_, _, _, encoded, .refl⟩)
  | switch table operands =>
    refine sourced.append tiled (SwitchOperands.isNext code whole).complete fun opcode found =>
      .inr (.inl ?_)
    cases table <;> (cases found; rfl)
  | jump valid chosen => exact sourced.appendJumps tiled valid chosen

end Sourced

namespace Session

variable {ctx : Context} {s : Session} {b : Buffer}

theorem Accounted.sourced {α : Type} {call : Call α} {answer : α} (accounted : s.Accounted ctx 0)
    (permits : s.Permits call) (sourced : Sourced s.buffer.bytes s.buffer.pool)
    (run : call.perform ctx s.buffer = .ok answer b) : Sourced b.bytes b.pool := by
  obtain ⟨_, logs⟩ := call.exists_logs run
  have carries := accounted.carries
  have later := sourced.stocked (call.onward run).pool
  cases call.does_of_perform run logs with
  | still _ stays =>
    cases call with
    | putWord pc value => exact later.layout (accounted.sameLayout_putWord permits run)
    | _ =>
      rw [List.ext_getElem? fun i => stays i (by simp [Call.fills])]
      exact later
  | flush _ before flushes core =>
    rw [← before.core_eq] at carries
    rw [← show _ = s.buffer.bytes from congrArg Buffer.Core.bytes before.core_eq] at later
    rw [show b.bytes = _ from congrArg Buffer.Core.bytes core]
    exact (later.flushes carries flushes).1
  | @append c _ _ kept taken flushes adds _ _ split _ _ whole =>
    obtain ⟨before, tiled⟩ := Sourced.flushes (b := { s.buffer with pending := kept }) sourced
      (carries.split split) flushes
    have same : c.pool = s.buffer.pool := flushes.pool_eq
    rw [← same] at before
    rw [adds.bytes_eq, adds.pool]
    exact before.fits tiled adds.fits (whole permits.complete)
  | land lands _ _ takes =>
    obtain ⟨rest, held⟩ := Multiset.le_iff_exists_add.mp permits.owns
    rw [held, add_assoc, takes] at carries
    exact later.trims (lands.trims carries)

/-- Every instruction in the code is a jump, a switch or the encoding of an emitted one. -/
theorem Course.sourced {pool : Pool} (course : s.Course ctx pool) :
    Sourced s.buffer.bytes s.buffer.pool := by
  induction course with
  | start => exact .empty pool
  | next call course permits legal run logs ih =>
    exact course.sound.accounted.sourced permits ih run

end Session

namespace Instruction

variable {pool later : Pool} {bytes : Bytes}

theorem interface_of_head (run : instruction.encode pool = .ok bytes later)
    (head : bytes.head? = some 0xB9) :
    ∃ ref index, instruction = .invoke .interface ref ∧
      bytes = 0xB9 :: (Bytes.ofWord16 index ++ [UInt8.ofNat (ref.descriptor.parameterSlots + 1), 0]) ∧
      later.get? (.method ref) = some index := by
  have calls : instruction.callsInterface = true := (ordinary_encode run).ordinary 0xB9 head
  obtain ⟨method, rfl⟩ : ∃ method, instruction = .invoke .interface method := by
    unfold callsInterface at calls
    split at calls
    · exact ⟨_, rfl⟩
    · cases calls
  obtain ⟨front, _, indexed, result⟩ := estate_bind_ok.mp run
  obtain ⟨index, middle, put, made⟩ := estate_bind_ok.mp indexed
  cases made
  cases result
  have known : Pool.Interns False pool _ _ := Pool.interns_put (.method method)
  exact ⟨method, index, rfl, rfl, (known.ok put).2⟩

end Instruction

/-- A call of an interface method in the code says how many slots its arguments take, as far as one byte
can say it. -/
def CountsSlots (code : Bytes) (table : ConstantTable) : Prop :=
  ∀ pc, IsStart code pc → code[pc]? = some 0xB9 → ∃ (ref : MethodRef) (index : UInt16),
    table.content? index = some (PoolValue.method ref).content ∧
    code.StandAt pc (0xB9 :: (Bytes.ofWord16 index ++
      [UInt8.ofNat (ref.descriptor.parameterSlots + 1), 0]))

theorem Sourced.countsSlots {code : Bytes} {pool : Pool} (sourced : Sourced code pool)
    (sound : pool.Sound) : CountsSlots code pool.constants := by
  intro pc start found
  rcases sourced pc 0xB9 start.boundary found with jump | switch | ⟨instruction, bytes, written, stands⟩
  · cases jump
  · cases switch
  obtain ⟨before, later, encoded, stocked⟩ := written
  have head : bytes.head? = some 0xB9 := by
    cases bytes with
    | nil => cases (Instruction.isPlain_encode encoded).complete
    | cons opcode rest => exact (stands 0 (Nat.zero_lt_succ _)).symm.trans found
  obtain ⟨ref, index, rfl, rfl, known⟩ := Instruction.interface_of_head encoded head
  exact ⟨ref, index, sound.content? (stocked.grows.extends.get? known), stands⟩

end ClassForge
