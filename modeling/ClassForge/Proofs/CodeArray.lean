import ClassForge.Proofs.Methods
import Mathlib

namespace ClassForge

variable {code : Code} {p : Nat} {pool pool' : Pool} {method : MethodDecl} {body : Stmt}
  {settings : Settings} {hierarchy : ClassGraph} {thisClass : BinaryName}

/-- An instruction of the code starts at the position. -/
structure IsStart (code : Bytes) (p : Nat) : Prop where
  boundary : Boundary code 0 p
  inside : p < code.length

theorem Inside.isStart {code : Bytes} (inside : Inside false code p) : IsStart code p where
  boundary := inside.boundary
  inside := by
    refine Nat.lt_of_le_of_ne inside.le_length fun last => ?_
    cases inside.reached last

namespace Session

variable {ctx : Context} {s : Session}

theorem Reach.base_pos (reach : Reach ctx pool s) : ∀ place ∈ s.switches, 0 < place.base := by
  induction reach with
  | start => exact fun place member => absurd member List.not_mem_nil
  | next _ step ih =>
    obtain ⟨call, permits, run, logs⟩ := step
    intro place member
    rcases List.mem_append.mp member with new | old
    · cases call with
      | switch table operands =>
        obtain ⟨b1, _, _, ⟨_, _, rfl⟩ | ⟨_, rfl, _⟩⟩ := Asm.placeSwitch_ok run
        · cases new
        · cases List.mem_singleton.mp new
          have after := Bytes.lt_switchBase b1.code.size
          exact Nat.lt_of_le_of_lt (Nat.zero_le _) after
      | _ => cases new
    · exact ih place old

/-- A session at its end: nothing waits for a target, and the code does not run into its end. -/
structure Ended (ctx : Context) (s : Session) : Prop where
  course : ∃ pool, s.Course ctx pool
  dead : s.buffer.alive = false
  resolved : s.buffer.unresolved = 0
  short : s.buffer.needsWide = false
  small : s.buffer.code.size ≤ maxCodeLength

/-- A session at its end, with every switch complete. -/
structure Complete (ctx : Context) (s : Session) : Prop extends s.Ended ctx where
  closed : ∀ place ∈ s.switches, s.Closed place

namespace Ended

variable {pc : Nat}

variable (ended : s.Ended ctx)

include ended

theorem sound : s.Sound ctx := by
  obtain ⟨pool, course⟩ := ended.course
  exact course.sound

theorem reach : ∃ pool, s.Reach ctx pool := by
  obtain ⟨pool, course⟩ := ended.course
  exact ⟨pool, course.reach⟩

theorem wired : Wired ctx.wide false 0 0 s.written s.buffer.bytes := by
  have carries := ended.sound.accounted.carries
  have none : Multiset.card s.sites = 0 := carries.count.symm.trans ended.resolved
  have wired : Wired ctx.wide s.buffer.needsWide 0 s.sites s.written s.buffer.bytes := carries.wired
  rwa [ended.short, Multiset.card_eq_zero.mp none] at wired

theorem isStart (inside : Inside s.buffer.alive s.buffer.bytes p) : IsStart s.buffer.bytes p := by
  rw [ended.dead] at inside
  exact inside.isStart

theorem aimed {entry : Nat × Nat} (written : entry ∈ s.written) :
    s.buffer.bytes.targets entry.1 = [(entry.2 : Int)] := by
  have small := ended.small
  have limit : maxCodeLength = 65535 := rfl
  have upright := ended.sound.stands.upright
  refine upright.aims.aimed entry written fun _ => ?_
  obtain ⟨opcode, jump⟩ := ended.wired.logged entry written (Nat.zero_le _)
  have first := jump.lt_length
  have second := (ended.isStart (upright.landed entry written)).inside
  rw [Buffer.length_bytes] at first second
  omega

theorem written_once {opcode : UInt8} (jump : JumpAt s.buffer.bytes 0 pc opcode) :
    writeCount s.written pc = 1 := by
  rcases ended.wired.settled pc opcode jump (Multiset.notMem_zero pc) with once | ⟨wide, _⟩
  · exact once
  · cases wide

end Ended

namespace Complete

variable {pc : Nat} (complete : s.Complete ctx)

include complete

section

variable (start : IsStart s.buffer.bytes pc)
  (form : s.buffer.bytes[pc]? = some Opcode.tableSwitch ∨ s.buffer.bytes[pc]? = some Opcode.lookupSwitch)

include start form

theorem switchPlace : ∃ place ∈ s.switches, place.start = pc ∧ place.InCode 0 s.buffer.bytes := by
  obtain ⟨place, member, rfl⟩ :=
    complete.sound.stands.upright.aims.listed pc start.boundary form
  obtain ⟨pool, reach⟩ := complete.reach
  have based := reach.base_pos place member
  exact ⟨place, member, rfl,
    (complete.sound.accounted.slotted place member).resolve_left (by omega)⟩

theorem leads_switch :
    ∀ target ∈ s.buffer.bytes.targets pc, ∃ p ∈ s.entries, target = (p : Nat) := by
  intro target leads
  obtain ⟨place, member, rfl, inCode⟩ := complete.switchPlace start form
  obtain ⟨pos, offset, isOffset, found, rfl⟩ := inCode.mem_targets leads
  obtain ⟨offset', p, entered, found', _, same⟩ :=
    complete.sound.stands.upright.aims.closed place member pos isOffset
      ((complete.closed place member).filled pos isOffset)
  rw [found] at found'
  cases found'
  exact ⟨p, entered, same⟩

end

/-- Every instruction leads to positions that have been entered or that have been written into a
jump. -/
theorem leads_known (start : IsStart s.buffer.bytes pc) :
    ∀ target ∈ s.buffer.bytes.targets pc, ∃ p,
      (p ∈ s.entries ∨ ∃ entry ∈ s.written, entry.2 = p) ∧ target = (p : Nat) := by
  obtain ⟨opcode, found⟩ : ∃ opcode, s.buffer.bytes[pc]? = some opcode :=
    ⟨_, List.getElem?_eq_getElem start.inside⟩
  intro target leads
  by_cases table : opcode = Opcode.tableSwitch
  · obtain ⟨p, entered, same⟩ := complete.leads_switch start (.inl (table ▸ found)) target leads
    exact ⟨p, .inl entered, same⟩
  by_cases lookup : opcode = Opcode.lookupSwitch
  · obtain ⟨p, entered, same⟩ := complete.leads_switch start (.inr (lookup ▸ found)) target leads
    exact ⟨p, .inl entered, same⟩
  by_cases jumps : Opcode.isJump opcode = true
  · have once := complete.written_once ⟨start.boundary, found, jumps⟩
    have logged : pc ∈ s.written.map Prod.fst := by
      rw [← List.count_pos_iff]
      unfold writeCount at once
      omega
    obtain ⟨entry, written, rfl⟩ := List.mem_map.mp logged
    rw [complete.aimed written] at leads
    exact ⟨entry.2, .inr ⟨entry, written, rfl⟩, List.mem_singleton.mp leads⟩
  · simp only [Bytes.targets, found, if_neg table, if_neg lookup, if_neg jumps] at leads
    cases leads

theorem leads (start : IsStart s.buffer.bytes pc) :
    ∀ target ∈ s.buffer.bytes.targets pc, ∃ p, IsStart s.buffer.bytes p ∧ target = (p : Nat) := by
  intro target leads
  have upright := complete.sound.stands.upright
  obtain ⟨p, known, same⟩ := complete.leads_known start target leads
  refine ⟨p, complete.isStart ?_, same⟩
  rcases known with entered | ⟨entry, written, rfl⟩
  · exact upright.entered p entered
  · exact upright.landed entry written

end Complete

end Session

namespace Lowering

variable {ctx : Context} {b' : Buffer}

theorem genMethod_complete {mc : MethodContext} {y : Unit} {σ : MethodState} {b : Buffer}
    (run : genMethod method body mc {} ctx (.empty pool) = .ok (y, σ) b)
    (short : b.needsWide = false) (resolved : b.unresolved = 0) :
    ∃ s : Session, s.buffer = b ∧ s.Complete ctx := by
  obtain ⟨s, grows, holds, dead, small, _⟩ := genMethod_ok run
  obtain rfl := holds.owns.buffer
  refine ⟨s, rfl, ⟨holds.owns.course, ?_, resolved, short, small⟩, fun place member => ?_⟩
  · simpa [Buffer.isAlive] using (Bool.or_eq_false_iff.mp dead).1
  · exact (grows.closed place member).resolve_left List.not_mem_nil

section

variable (run : attempt settings method body ctx (.empty pool) = .ok (some code) b')

include run

/-- The code of a body is finished once it is lowered, with fewer rows in the exception table. -/
theorem attempt_run :
    ∃ y σ b1, genMethod method body ⟨settings, .ofResult method.result⟩ {} ctx (.empty pool) =
        .ok (y, σ) b1 ∧ b1.needsWide = false ∧ ∃ b, b = { b1 with catches := b.catches } ∧
      (∀ row ∈ b.catches.toList, row ∈ b1.catches.toList) ∧ Asm.finish ctx b = .ok code b' := by
  obtain ⟨_, b1, lowered, run⟩ := Asm.bind_ok.mp run
  obtain ⟨⟨y, σ⟩, ran⟩ := Asm.discard_ok.mp lowered
  obtain ⟨_, _, looked, run⟩ := Asm.bind_ok.mp run
  obtain ⟨rfl, rfl⟩ := Asm.get_ok.mp looked
  rcases Asm.ite_ok.mp run with ⟨_, run⟩ | ⟨short, run⟩
  · cases (Asm.pure_ok.mp run).1
  · obtain ⟨_, b2, compressed, run⟩ := Asm.bind_ok.mp run
    obtain ⟨rest, fewer⟩ := Asm.compressCatches_ok compressed
    obtain ⟨found, _, finished, run⟩ := Asm.bind_ok.mp run
    obtain ⟨same, rfl⟩ := Asm.pure_ok.mp run
    cases same
    exact ⟨y, σ, b1, ran, by simpa using short, b2, rest, fewer, finished⟩

theorem attempt_ok :
    ∃ s : Session, s.Complete ctx ∧ (∃ σ, genMethod method body ⟨settings, .ofResult method.result⟩ {}
        ctx (.empty pool) = .ok ((), σ) s.buffer) ∧
      ∃ b, b = { s.buffer with catches := b.catches } ∧
        (∀ row ∈ b.catches.toList, row ∈ s.buffer.catches.toList) ∧
        Asm.finish ctx b = .ok code b' := by
  obtain ⟨y, σ, b1, ran, short, b, rest, fewer, finished⟩ := attempt_run run
  obtain ⟨_, resolved, _⟩ := Asm.finish_ok finished
  rw [rest] at resolved
  obtain ⟨s, rfl, complete⟩ := genMethod_complete ran short resolved
  exact ⟨s, complete, ⟨σ, ran⟩, b, rest, fewer, finished⟩

end

end Lowering

theorem Build.codeOf_attempt
    (run : Build.codeOf hierarchy settings thisClass method body pool = .ok code pool') :
    ∃ wide pool1 b, Lowering.attempt settings method body
      ⟨hierarchy, thisClass, settings.code, wide⟩ (.empty pool1) = .ok (some code) b ∧
      b.pool = pool' := by
  have attempted {wide : Bool} {found : Option Code} {before after : Pool}
      (ran : Build.assemble ⟨hierarchy, thisClass, settings.code, wide⟩
        (Lowering.attempt settings method body) before = .ok found after) :
      ∃ b, Lowering.attempt settings method body ⟨hierarchy, thisClass, settings.code, wide⟩
        (.empty before) = .ok found b ∧ b.pool = after := by
    unfold Build.assemble at ran
    split at ran
    · rename_i b answered
      cases ran
      exact ⟨b, answered, rfl⟩
    · cases ran
  obtain ⟨_, pool1, _, run⟩ := estate_bind_ok.mp run
  obtain ⟨first, pool2, tried, run⟩ := estate_bind_ok.mp run
  cases first with
  | some found =>
    cases run
    obtain ⟨b, ran⟩ := attempted tried
    exact ⟨false, pool1, b, ran⟩
  | none =>
    obtain ⟨second, pool3, retried, run⟩ := estate_bind_ok.mp run
    cases second with
    | some found =>
      cases run
      obtain ⟨b, ran⟩ := attempted retried
      exact ⟨true, pool2, b, ran⟩
    | none => cases run

/-- The code is not empty and splits into complete instructions. Every jump and every switch leads to
the start of an instruction, and the exception table, the line numbers and the stack map speak of
such positions; only the end of a protected range may be the end of the code. -/
structure Code.WellFormed (pool : Pool) (code : Code) : Prop where
  nonempty : code.code ≠ []
  tiled : Boundary code.code 0 code.code.length
  jumps : ∀ pc, IsStart code.code pc → ∀ target ∈ code.code.targets pc,
    ∃ p, IsStart code.code p ∧ target = (p : Nat)
  handlers : ∀ row ∈ code.handlers, IsStart code.code row.start.toNat ∧
    IsStart code.code row.handler.toNat ∧
    (IsStart code.code row.stop.toNat ∨ row.stop.toNat = code.code.length)
  tables : ∀ built ∈ code.attributes, ∃ payload positions, built.Holds pool payload ∧
    payload.positions? = some positions ∧ ∀ p ∈ positions, IsStart code.code p

/-- The buffer has been assembled by calls, and whichever calls have led to it, they have written the
offset of every jump once. The offset leads to the position that was meant, so none has been cut
off. -/
def Buffer.Untruncated (ctx : Context) (b : Buffer) : Prop :=
  (∃ s : Session, s.buffer = b ∧ ∃ pool, s.Course ctx pool) ∧
    ∀ s : Session, s.buffer = b → (∃ pool, s.Course ctx pool) →
      (∀ pc opcode, JumpAt b.bytes 0 pc opcode → writeCount s.written pc = 1) ∧
        ∀ entry ∈ s.written, b.bytes.targets entry.1 = [(entry.2 : Int)]

theorem Session.Ended.untruncated {ctx : Context} {s : Session} (ended : s.Ended ctx) :
    s.buffer.Untruncated ctx := by
  refine ⟨⟨s, rfl, ended.course⟩, fun other same course => ?_⟩
  have also : other.Ended ctx :=
    ⟨course, same ▸ ended.dead, same ▸ ended.resolved, same ▸ ended.short, same ▸ ended.small⟩
  rw [← same]
  exact ⟨fun pc opcode => also.written_once, fun entry => also.aimed⟩

/-- The code of a method body is well formed. It is what lowering the body has left in the buffer, and
every jump there goes where it is meant to go. -/
theorem codeOf_wellFormed {hierarchy : ClassGraph} {settings : Settings} {thisClass : BinaryName}
    {method : MethodDecl} {body : Stmt} {pool pool' : Pool} {code : Code}
    (run : Build.codeOf hierarchy settings thisClass method body pool = .ok code pool') :
    code.WellFormed pool' ∧ ∃ wide start σ b, Lowering.genMethod method body
        ⟨settings, .ofResult method.result⟩ {} ⟨hierarchy, thisClass, settings.code, wide⟩
        (.empty start) = .ok ((), σ) b ∧ code.code = b.bytes ∧
      b.Untruncated ⟨hierarchy, thisClass, settings.code, wide⟩ := by
  obtain ⟨wide, pool1, b', ran, last⟩ := Build.codeOf_attempt run
  obtain ⟨s, complete, ⟨σ, lowered⟩, b, rest, fewer, finished⟩ := Lowering.attempt_ok ran
  have upright := complete.sound.stands.upright
  have small := complete.small
  have same : code.code = s.buffer.bytes := by
    rw [(Asm.finish_ok finished).2.2, rest]
    rfl
  have frames : b.frames = s.buffer.frames := by rw [rest]
  have lines : b.lines = s.buffer.lines := by rw [rest]
  have starts {α : Type} {rows : Array (Nat × α)} (table : Rows s.buffer.alive s.buffer.bytes rows) :
      ∀ row ∈ rows.toList, IsStart s.buffer.bytes row.1 :=
    fun row member => complete.isStart (table.inside row member)
  have fits {α : Type} {rows : Array (Nat × α)} (table : Rows s.buffer.alive s.buffer.bytes rows) :
      ∀ row ∈ rows.toList, row.1 < 0x10000 := by
    intro row member
    have inside := (starts table row member).inside
    rw [Buffer.length_bytes] at inside
    exact Nat.lt_of_lt_of_le inside (Nat.le_succ_of_le small)
  obtain ⟨_, rfl, _, made⟩ := Asm.finish_finished finished
  refine ⟨?_, wide, pool1, σ, s.buffer, lowered, same, complete.untruncated⟩
  rw [← last]
  constructor <;> rw [same]
  case tiled => exact complete.wired.tiled
  case jumps => exact fun pc start => complete.leads start
  case nonempty =>
    intro none
    have size : s.buffer.code.size = 0 := by rw [← Buffer.length_bytes, none]; rfl
    have alive := upright.started size
    rw [complete.dead] at alive
    cases alive
  case handlers =>
    intro row member
    obtain ⟨entry, listed, start, stop, handler⟩ := exists_of_forall₂ made.handlers member
    rw [start, stop, handler]
    obtain ⟨known, ends, entered, ordered⟩ := upright.covered entry (fewer entry listed)
    have here := complete.isStart (upright.entered _ entered)
    refine ⟨⟨upright.known _ known, Nat.lt_of_le_of_lt ordered here.inside⟩, here, ?_⟩
    have boundary := upright.known _ ends
    rcases Nat.lt_or_eq_of_le boundary.le_length with inside | last
    · exact .inl ⟨boundary, inside⟩
    · exact .inr last
  case tables =>
    intro built member
    obtain ⟨payload, positions, holds, known, listed⟩ := made.tables (frames ▸ upright.frames.sorted)
      (frames ▸ fits upright.frames) (lines ▸ fits upright.lines) member
    refine ⟨payload, positions, holds, known, fun p inside => ?_⟩
    rcases listed p inside with line | frame
    · obtain ⟨row, member, rfl⟩ := List.mem_map.mp line
      exact starts upright.lines row (lines ▸ member)
    · obtain ⟨row, member, rfl⟩ := List.mem_map.mp frame
      exact starts upright.frames row (frames ▸ member)

/-- A method that waits while its parameter is set. -/
def awaiting : MethodDecl where
  name := ⟨"await"⟩
  access := ⟨AccessFlags.staticBit⟩
  params := [⟨0, ⟨"flag"⟩, .base .boolean, none, none⟩]
  result := none
  exceptions := []
  body := none
  endLine := none

def awaitingBody : Stmt :=
  .mk (some 1) (.whileLoop (.mk (some (.base .boolean)) none (.localVar 0)) (.mk none .empty))

theorem codeOf_awaiting : ∃ code pool,
    Build.codeOf .empty .default ⟨"Gate"⟩ awaiting awaitingBody .empty = .ok code pool ∧
    code.code = [0x1A, 0x99, 0, 6, 0xA7, 0xFF, 0xFC, 0xB1] := by
  have found : seen? (fun code _ => code.code)
      (Build.codeOf .empty .default ⟨"Gate"⟩ awaiting awaitingBody .empty) =
      some [0x1A, 0x99, 0, 6, 0xA7, 0xFF, 0xFC, 0xB1] := by
    cbv
  exact ok_of_seen? found

/-- The loop jumps back to its test, and the test jumps to the return. -/
theorem codeOf_wellFormed_loop : ∃ code pool,
    Build.codeOf .empty .default ⟨"Gate"⟩ awaiting awaitingBody .empty = .ok code pool ∧
    code.code = [0x1A, 0x99, 0, 6, 0xA7, 0xFF, 0xFC, 0xB1] ∧ code.WellFormed pool ∧
    ∃ wide start σ b, Lowering.genMethod awaiting awaitingBody
        ⟨.default, .ofResult awaiting.result⟩ {} ⟨.empty, ⟨"Gate"⟩, Settings.default.code, wide⟩
        (.empty start) = .ok ((), σ) b ∧ code.code = b.bytes ∧
      b.Untruncated ⟨.empty, ⟨"Gate"⟩, Settings.default.code, wide⟩ := by
  obtain ⟨code, pool, run, bytes⟩ := codeOf_awaiting
  exact ⟨code, pool, run, bytes, codeOf_wellFormed run⟩

end ClassForge
