import ClassForge.Proofs.Bounded
import ClassForge.Proofs.CodeArray

namespace ClassForge

namespace Frame

variable {previous : CFrame} {offset : Nat} {rows : List (Nat × CFrame)}

theorem length_compressFrom : (compressFrom previous offset rows).length = rows.length := by
  induction rows generalizing previous offset with
  | nil => rfl
  | cons row rest ih => exact congrArg Nat.succ ih

theorem isShort_compressFrom (small : ∀ row ∈ rows,
    row.2.locals.size < 0x10000 ∧ row.2.stack.size < 0x10000) :
    ∀ change ∈ compressFrom previous offset rows, change.IsShort := by
  induction rows generalizing previous offset with
  | nil => exact List.forall_mem_nil _
  | cons row rest ih =>
    obtain ⟨here, others⟩ := List.forall_mem_cons.mp small
    exact List.forall_mem_cons.mpr ⟨isShort_compress _ here.1 here.2, ih others⟩

end Frame

namespace Asm

variable {ctx : Context} {b b' : Buffer}

/-- The attribute is a stack map, and read with the pool it gives the recorded frames. -/
def Restores (b : Buffer) (built : Attribute) : Prop :=
  b.pool.get? (.utf8 "StackMapTable") = some built.name ∧
    ∃ table initial rows, Payload.decode "StackMapTable" built.info = .ok (.stackMap table) ∧
      b.pool.classFrame? b.initialFrame = some initial ∧
      Frame.decompress initial table = .ok rows ∧ b.pool.Tabulates b.frames.toList rows

/-- Read with the pool, the attribute is not a stack map. -/
def IsOther (pool : Pool) (built : Attribute) : Prop :=
  ∃ payload : Payload, built.Holds pool payload ∧ payload.name ≠ "StackMapTable"

/-- The recorded frames are in order, and they can be written. -/
structure Orderly (b : Buffer) : Prop where
  sorted : b.frames.toList.Pairwise (·.1 < ·.1)
  fits : ∀ row ∈ b.frames.toList, row.1 < 0xFFFF
  small : ∀ row ∈ b.frames.toList, row.2.locals.size < 0x10000 ∧ row.2.stack.size < 0x10000

theorem Finished.stackMap {code : Code} {pool : Pool} (finished : Finished ctx b code pool)
    (orderly : Orderly b) (maps : ctx.settings.stackMaps = true) (recorded : b.frames ≠ #[]) :
    ∃ others built, code.attributes = others ++ [built] ∧ (∀ other ∈ others, IsOther pool other) ∧
      Restores { b with pool } built := by
  obtain ⟨lines, locals, found, same, first, ⟨_, _, second⟩, third⟩ := finished.attributes
  rw [MapsFrames, if_pos (by simpa [maps] using recorded)] at third
  obtain ⟨initial, rows, known, tabulates, lists⟩ := third
  cases lists with
  | @cons _ built _ _ holds rest =>
  cases rest
  have here := tabulates.positions
  have count : rows.length = b.frames.toList.length := tabulates.length_eq.symm
  have few := length_le_of_sorted orderly.sorted orderly.fits
  refine ⟨lines ++ locals, built, same, fun other member => ?_, holds.1,
    Frame.compressFrom initial 0 rows, initial, rows, ?_, known, ?_, tabulates⟩
  · rcases List.mem_append.mp member with line | table
    · obtain ⟨payload, listed, line⟩ := first.each line
      cases List.mem_singleton.mp listed
      exact ⟨_, line, by simp [Payload.name]⟩
    · obtain ⟨payload, listed, table⟩ := second.each table
      refine ⟨payload, table, ?_⟩
      simp only [List.mem_cons, List.not_mem_nil, or_false] at listed
      rcases listed with rfl | rfl <;> simp [Payload.name]
  · refine Payload.decode_stackMap (Frame.isShort_compressFrom fun row member => ?_) ?_ holds.2
    · obtain ⟨frame, listed, _, made⟩ := exists_of_forall₂ tabulates member
      rw [(Pool.size_classFrame? made).1, (Pool.size_classFrame? made).2]
      exact orderly.small frame listed
    · rw [Frame.length_compressFrom, count]
      omega
  · exact (Frame.decompressFrom_compressFrom (Pool.classFrame?_eq_some.mp known).2.2
      tabulates.laidOut (here ▸ List.pairwise_map.mpr orderly.sorted)
      (fun _ _ => Nat.zero_le _) (here ▸ List.forall_mem_map.mpr fun row member =>
        Nat.lt_succ_of_lt (orderly.fits row member))).1

end Asm

namespace Session.Complete

variable {ctx : Context} {s : Session}

theorem fits (complete : s.Complete ctx) {α : Type} {rows : Array (Nat × α)}
    (table : Rows s.buffer.alive s.buffer.bytes rows) : ∀ row ∈ rows.toList, row.1 < 0xFFFF := by
  intro row member
  have inside := (complete.isStart (table.inside row member)).inside
  rw [Buffer.length_bytes] at inside
  exact Nat.lt_of_lt_of_le inside complete.small

end Session.Complete

theorem Lowering.attempt_stackMap {settings : Settings} {ctx : Context} {method : MethodDecl}
    {body : Stmt} {pool : Pool} {code : Code} {b' : Buffer}
    (run : attempt settings method body ctx (.empty pool) = .ok (some code) b') :
    Asm.Orderly b' ∧ (b'.frames ≠ #[] → ∃ others built, code.attributes = others ++ [built] ∧
      (∀ other ∈ others, Asm.IsOther b'.pool other) ∧ Asm.Restores b' built) := by
  obtain ⟨y, σ, b1, ran, short, b, rest, _, finished⟩ := attempt_run run
  obtain ⟨within, resolved, _⟩ := Asm.finish_ok finished
  rw [rest] at resolved within
  obtain ⟨s, rfl, complete⟩ := genMethod_complete ran short resolved
  have upright := complete.sound.stands.upright
  have frames : b.frames = s.buffer.frames := by rw [rest]
  have recordedWell : ∀ row ∈ b.frames.toList, ctx.settings.stackMaps = true ∧
      row.2.locals.size ≤ maxLocalCount ∧ row.2.stack.size ≤ s.buffer.maxStack := by
    rw [frames]
    exact bounded_genMethod ran
  have orderly : Asm.Orderly b := by
    refine ⟨frames ▸ upright.frames.sorted, frames ▸ complete.fits upright.frames, ?_⟩
    intro row member
    obtain ⟨_, locals, stack⟩ := recordedWell row member
    exact ⟨Nat.lt_succ_of_le locals, Nat.lt_succ_of_le (stack.trans within.2.2)⟩
  obtain ⟨pool, rfl, _, made⟩ := Asm.finish_finished finished
  refine ⟨⟨orderly.sorted, orderly.fits, orderly.small⟩, fun recorded => ?_⟩
  have maps : ctx.settings.stackMaps = true := by
    obtain ⟨row, member⟩ := Array.exists_mem_of_ne_empty _ recorded
    exact (recordedWell row (Array.mem_toList_iff.mpr member)).1
  exact made.stackMap orderly maps recorded

/-- The frames of a method are recorded at increasing positions that fit in 16 bits. If there are any,
then the last attribute of its code, and no other, is a stack map; it can be decoded, and decompressed
from the frame on entry it gives exactly the recorded frames at their positions. -/
theorem stackMap_restores_frames {hierarchy : ClassGraph} {settings : Settings}
    {thisClass : BinaryName} {method : MethodDecl} {body : Stmt} {pool pool' : Pool} {code : Code}
    (run : Build.codeOf hierarchy settings thisClass method body pool = .ok code pool') :
    ∃ wide pool1 b, Lowering.attempt settings method body
        ⟨hierarchy, thisClass, settings.code, wide⟩ (.empty pool1) = .ok (some code) b ∧
      b.pool = pool' ∧ b.frames.toList.Pairwise (·.1 < ·.1) ∧
      (∀ row ∈ b.frames.toList, row.1 < 0x10000) ∧
      (b.frames ≠ #[] → ∃ others built, code.attributes = others ++ [built] ∧
        (∀ other ∈ others, Asm.IsOther b.pool other) ∧ Asm.Restores b built) := by
  obtain ⟨wide, pool1, b, ran, same⟩ := Build.codeOf_attempt run
  obtain ⟨orderly, restores⟩ := Lowering.attempt_stackMap ran
  exact ⟨wide, pool1, b, ran, same, orderly.sorted,
    fun row member => Nat.lt_succ_of_lt (orderly.fits row member), restores⟩

/-- The loop has a frame at its test and one behind it, and both are the frame on entry. -/
theorem stackMap_restores_frames_loop : ∃ code pool,
    Build.codeOf .empty .default ⟨"Gate"⟩ awaiting awaitingBody .empty = .ok code pool ∧
    (code.attributes.map (·.info)).getLast? = some [0, 2, 0, 6] ∧
    ∃ wide pool1 b, Lowering.attempt .default awaiting awaitingBody
        ⟨.empty, ⟨"Gate"⟩, Settings.default.code, wide⟩ (.empty pool1) = .ok (some code) b ∧
      b.pool = pool ∧ b.frames.toList.Pairwise (·.1 < ·.1) ∧
      (∀ row ∈ b.frames.toList, row.1 < 0x10000) ∧
      (b.frames ≠ #[] → ∃ others built, code.attributes = others ++ [built] ∧
        (∀ other ∈ others, Asm.IsOther b.pool other) ∧ Asm.Restores b built) := by
  have found : seen? (fun code _ => (code.attributes.map (·.info)).getLast?)
      (Build.codeOf .empty .default ⟨"Gate"⟩ awaiting awaitingBody .empty) = some (some [0, 2, 0, 6]) := by
    cbv
  obtain ⟨code, pool, run, last⟩ := ok_of_seen? found
  exact ⟨code, pool, run, last, stackMap_restores_frames run⟩

theorem Buffer.Served.hasFrame_of_isStart {b : Buffer} {due : Bool} {p : Nat} (served : b.Served due p)
    (start : IsStart b.bytes p) : b.HasFrame p := by
  have inside := start.inside
  rw [length_bytes] at inside
  exact served.hasFrame (Nat.ne_of_lt inside)

namespace Session.Complete

variable {ctx : Context} {s : Session} {p pc : Nat} {opcode : UInt8} (complete : s.Complete ctx) (maps : ctx.settings.stackMaps = true)

include complete maps

theorem hasFrame_entered (entered : p ∈ s.entries) : s.buffer.HasFrame p := by
  have upright := complete.sound.stands.upright
  exact ((upright.framed maps).entered p entered).hasFrame_of_isStart
    (complete.isStart (upright.entered p entered))

theorem hasFrame_target (start : IsStart s.buffer.bytes pc)
    (leads : (p : Int) ∈ s.buffer.bytes.targets pc) : s.buffer.HasFrame p := by
  obtain ⟨q, known, same⟩ := complete.leads_known start p leads
  obtain rfl : p = q := by omega
  rcases known with entered | ⟨entry, written, rfl⟩
  · exact complete.hasFrame_entered maps entered
  · have upright := complete.sound.stands.upright
    exact ((upright.framed maps).landed entry written).hasFrame_of_isStart
      (complete.isStart (upright.landed entry written))

theorem hasFrame_behind {length : Nat} (start : IsStart s.buffer.bytes pc)
    (found : s.buffer.bytes[pc]? = some opcode)
    (leaves : Opcode.isExit opcode = true ∨ Opcode.isSwitch opcode = true)
    (known : s.buffer.bytes.instructionLength? pc = some length)
    (next : IsStart s.buffer.bytes (pc + length)) : s.buffer.HasFrame (pc + length) := by
  rcases leaves with exits | switches
  · have inside := next.inside
    rw [Buffer.length_bytes] at inside
    have stops : Stops s.buffer.bytes pc (pc + length) :=
      ⟨start.boundary, ⟨opcode, found, exits⟩, length, known, rfl⟩
    rcases (complete.sound.stands.upright.framed maps).resumed pc _ stops with served | ⟨last, _⟩
    · exact served.hasFrame_of_isStart next
    · omega
  · have form : s.buffer.bytes[pc]? = some Opcode.tableSwitch ∨
        s.buffer.bytes[pc]? = some Opcode.lookupSwitch := by
      simpa [found, Opcode.isSwitch] using switches
    obtain ⟨place, member, rfl, inCode⟩ := complete.switchPlace start form
    have after := inCode.start_lt
    rw [inCode.length] at known
    cases known
    rw [Nat.add_sub_cancel' (by omega)]
    exact complete.hasFrame_entered maps (complete.closed place member).entered

end Session.Complete

/-- Where a frame is needed: where a jump, a switch or an exception leads, and where an instruction
starts behind one that does not go on to it. -/
inductive Code.NeedsFrame (code : Code) : Nat → Prop
  | target {pc p : Nat} : IsStart code.code pc → (p : Int) ∈ code.code.targets pc →
      NeedsFrame code p
  | handler {row : ExceptionHandler} : row ∈ code.handlers → NeedsFrame code row.handler.toNat
  | behind {pc length : Nat} {opcode : UInt8} : IsStart code.code pc →
      code.code[pc]? = some opcode → Opcode.isExit opcode = true ∨ Opcode.isSwitch opcode = true →
      code.code.instructionLength? pc = some length → IsStart code.code (pc + length) →
      NeedsFrame code (pc + length)

/-- The code and the frames that are left after an attempt are those of a complete session, and the
handlers have been entered in it. -/
theorem Lowering.attempt_complete {settings : Settings} {ctx : Context} {method : MethodDecl}
    {body : Stmt} {code : Code} {b' : Buffer} {pool : Pool}
    (run : attempt settings method body ctx (.empty pool) = .ok (some code) b') :
    ∃ s : Session, s.Complete ctx ∧ code.code = s.buffer.bytes ∧ b'.frames = s.buffer.frames ∧
      ∀ row ∈ code.handlers, row.handler.toNat ∈ s.entries := by
  obtain ⟨s, complete, _, b, rest, fewer, finished⟩ := attempt_ok run
  have upright := complete.sound.stands.upright
  have frames : b.frames = s.buffer.frames := by rw [rest]
  obtain ⟨_, same, _, made⟩ := Asm.finish_finished finished
  refine ⟨s, complete, ?_, ?_, fun row member => ?_⟩
  · rw [(Asm.finish_ok finished).2.2, rest]
    rfl
  · rw [same]
    exact frames
  · obtain ⟨entry, listed, _, _, handler⟩ := exists_of_forall₂ made.handlers member
    rw [handler]
    exact (upright.covered entry (fewer entry listed)).2.2.1

/-- If stack maps are wanted, exactly one frame is recorded wherever the code of a method needs one,
and no two frames are recorded at one position. -/
theorem stackMap_covers_targets {hierarchy : ClassGraph} {settings : Settings}
    {thisClass : BinaryName} {method : MethodDecl} {body : Stmt} {pool pool' : Pool} {code : Code}
    (maps : settings.code.stackMaps = true)
    (run : Build.codeOf hierarchy settings thisClass method body pool = .ok code pool') :
    ∃ wide pool1 b, Lowering.attempt settings method body
        ⟨hierarchy, thisClass, settings.code, wide⟩ (.empty pool1) = .ok (some code) b ∧
      b.pool = pool' ∧ (b.frames.toList.map Prod.fst).Nodup ∧
      ∀ p, code.NeedsFrame p → (b.frames.toList.map Prod.fst).count p = 1 := by
  obtain ⟨wide, pool1, b, ran, same⟩ := Build.codeOf_attempt run
  obtain ⟨s, complete, bytes, frames, entered⟩ := Lowering.attempt_complete ran
  have distinct : (b.frames.toList.map Prod.fst).Nodup := by
    rw [frames]
    refine List.Pairwise.map Prod.fst ?_ complete.sound.stands.upright.frames.sorted
    intro row later less
    exact Nat.ne_of_lt less
  refine ⟨wide, pool1, b, ran, same, distinct, fun p needs => ?_⟩
  have recorded : s.buffer.HasFrame p := by
    cases needs with
    | target start leads => exact complete.hasFrame_target maps (bytes ▸ start) (bytes ▸ leads)
    | handler listed => exact complete.hasFrame_entered maps (entered _ listed)
    | behind start found leaves known next =>
      exact complete.hasFrame_behind maps (bytes ▸ start) (bytes ▸ found) leaves (bytes ▸ known)
        (bytes ▸ next)
  obtain ⟨row, member, rfl⟩ := recorded
  exact List.count_eq_one_of_mem distinct (List.mem_map_of_mem (frames ▸ member))

/-- The loop needs frames at its test, where it jumps back to, and behind it. -/
theorem stackMap_covers_targets_loop : ∃ code pool,
    Build.codeOf .empty .default ⟨"Gate"⟩ awaiting awaitingBody .empty = .ok code pool ∧
    code.NeedsFrame 0 ∧ code.NeedsFrame 7 ∧
    ∃ wide pool1 b, Lowering.attempt .default awaiting awaitingBody
        ⟨.empty, ⟨"Gate"⟩, Settings.default.code, wide⟩ (.empty pool1) = .ok (some code) b ∧
      b.pool = pool ∧ (b.frames.toList.map Prod.fst).Nodup ∧
      ∀ p, code.NeedsFrame p → (b.frames.toList.map Prod.fst).count p = 1 := by
  obtain ⟨code, pool, run, bytes⟩ := codeOf_awaiting
  have zero : Boundary code.code 0 0 := .start (Nat.zero_le _)
  have one : Boundary code.code 0 (0 + 1) := .next zero (by rw [bytes]; decide) (by simp [bytes])
  have four : Boundary code.code 0 (1 + 3) := .next one (by rw [bytes]; decide) (by simp [bytes])
  exact ⟨code, pool, run, .target ⟨four, by simp [bytes]⟩ (by rw [bytes]; decide),
    .target ⟨one, by simp [bytes]⟩ (by rw [bytes]; decide), stackMap_covers_targets rfl run⟩

end ClassForge
