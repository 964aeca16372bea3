import ClassForge.Proofs.Resolution

namespace ClassForge

namespace Asm

variable {ctx : Context} {b b' b1 b2 : Buffer} {y : Unit} {register : UInt16}
  {instruction : Instruction} {opcode : UInt8} {pops pc back : Nat} {jump : Jump} {chain : Chain}
  {wide : Bool} {bytes : Bytes}

def framed (ctx : Context) (b : Buffer) : Buffer :=
  if ctx.settings.stackMaps then
    let earlier := match b.frames.back? with
      | some (last, _) => if last = b.code.size then b.frames.pop else b.frames
      | none => b.frames
    { b with frames := earlier.push (b.code.size, b.state.frame) }
  else b

theorem recordFrame_ok : recordFrame ctx b = .ok y b' ↔ framed ctx b = b' := by
  unfold recordFrame framed
  simp only [bind_ok, read_ok, ite_ok, modify_ok, pure_ok]
  constructor
  · rintro ⟨_, _, ⟨rfl, rfl⟩, ⟨maps, rfl⟩ | ⟨plain, _, rfl⟩⟩
    · exact if_pos maps
    · exact if_neg plain
  · intro same
    refine ⟨ctx, b, ⟨rfl, rfl⟩, ?_⟩
    by_cases maps : ctx.settings.stackMaps = true
    · rw [if_pos maps] at same
      exact .inl ⟨maps, same⟩
    · rw [if_neg maps] at same
      exact .inr ⟨maps, trivial, same⟩

def begun (ctx : Context) (b : Buffer) : Buffer :=
  if b.frameDue then framed ctx { marked ctx b with frameDue := false } else marked ctx b

theorem marked_frameDue (ctx : Context) (b : Buffer) : (marked ctx b).frameDue = b.frameDue := by
  rw [marked_eq]

theorem begun_eq (ctx : Context) (b : Buffer) : begun ctx b = { b with
    lines := (begun ctx b).lines, pendingLine := (begun ctx b).pendingLine
    frames := (begun ctx b).frames, frameDue := (begun ctx b).frameDue } := by
  unfold begun framed
  rw [marked_eq]
  split
  · split <;> rfl
  · rfl

@[simp] theorem core_begun (ctx : Context) (b : Buffer) : (begun ctx b).core = b.core := by
  rw [begun_eq]
  rfl

theorem begin_ok {α : Type} {x y : Asm α} {answer : α}
    (run : (do if ← beginInstruction then x else y) ctx b = .ok answer b') :
    ∃ b1 log, Flushes ctx b b1 log ∧ (b1.alive = false ∧ y ctx b1 = .ok answer b' ∨
      b1.alive = true ∧ x ctx (begun ctx b1) = .ok answer b') := by
  obtain ⟨goes, between, began, run⟩ := bind_ok.mp run
  obtain ⟨_, b1, flushed, began⟩ := bind_ok.mp began
  obtain ⟨log, flushes⟩ := resolvePending_ok flushed
  refine ⟨b1, log, flushes, ?_⟩
  simp only [bind_ok, get_ok] at began
  obtain ⟨_, _, ⟨rfl, rfl⟩, began⟩ := began
  rcases ite_ok.mp began with ⟨alive, began⟩ | ⟨dead, began⟩
  · simp only [bind_ok, markLine_ok, get_ok] at began
    obtain ⟨_, _, rfl, _, _, ⟨rfl, rfl⟩, began⟩ := began
    refine .inr ⟨alive, ?_⟩
    unfold begun
    rcases ite_ok.mp began with ⟨due, began⟩ | ⟨notDue, began⟩
    · simp only [bind_ok, modify_ok, recordFrame_ok, pure_ok] at began
      obtain ⟨_, _, rfl, _, _, rfl, rfl, rfl⟩ := began
      rw [marked_frameDue] at due
      rw [if_pos due]
      exact run
    · obtain ⟨rfl, rfl⟩ := pure_ok.mp began
      rw [marked_frameDue] at notDue
      rw [if_neg notDue]
      exact run
  · obtain ⟨rfl, rfl⟩ := pure_ok.mp began
    exact .inl ⟨by simpa using dead, run⟩

def assigned (register : UInt16) (b : Buffer) : Buffer :=
  match b.locals.getD register.toNat none with
  | some var =>
    let start := match var.start with
      | none => if b.code.size < maxCodeLength then some b.code.size else none
      | start => start
    { b with
      state := b.state.setLocal register var.type
      locals := b.locals.setIfInBounds register.toNat (some { var with start }) }
  | none => b

theorem setDefined_ok : setDefined register ctx b = .ok y b' ↔ assigned register b = b' :=
  modify_ok

/-- What an instruction changes besides the code and the stack. -/
def concluded (instruction : Instruction) (b : Buffer) : Buffer :=
  match instruction with
  | .store _ register => assigned register b
  | other => if other.isTerminal then { b with alive := false } else b

theorem markDead_ok : markDead ctx b = .ok y b' ↔ { b with alive := false } = b' :=
  modify_ok

theorem concluded_ok (run : (match instruction with
      | .store _ register => setDefined register
      | _ => if instruction.isTerminal then markDead else pure ()) ctx b = .ok y b') :
    concluded instruction b = b' := by
  by_cases terminal : instruction.isTerminal = true
  · cases instruction <;> first | exact markDead_ok.mp run | cases terminal
  · cases instruction <;>
      first | exact absurd rfl terminal | exact setDefined_ok.mp run | exact (pure_ok.mp run).2

theorem concluded_eq (instruction : Instruction) (b : Buffer) : concluded instruction b = { b with
    state := (concluded instruction b).state, locals := (concluded instruction b).locals
    alive := b.alive && !instruction.isTerminal } := by
  cases instruction with
  | store kind register =>
    simp only [concluded, assigned, Instruction.isTerminal, Bool.not_false, Bool.and_true]
    split <;> rfl
  | _ =>
    simp only [concluded, Instruction.isTerminal, Bool.not_false, Bool.and_true, Bool.not_true,
      Bool.and_false, if_true, Bool.false_eq_true, if_false]

theorem emit_ok (run : emit instruction ctx b = .ok () b') :
    ∃ b1 log, Flushes ctx b b1 log ∧
      ((b1.alive = false ∧ b' = b1) ∨
        (b1.alive = true ∧ ∃ bytes pool state,
          instruction.encode (begun ctx b1).pool = .ok bytes pool ∧
          (begun ctx b1).state.apply ctx.thisClass (begun ctx b1).code.size instruction = .ok state ∧
          b' = concluded instruction (({ (begun ctx b1).append bytes with pool }).withState state))) := by
  obtain ⟨b1, log, flushes, ⟨dead, run⟩ | ⟨alive, run⟩⟩ := begin_ok run
  · exact ⟨b1, log, flushes, .inl ⟨dead, (pure_ok.mp run).2.symm⟩⟩
  · refine ⟨b1, log, flushes, .inr ⟨alive, ?_⟩⟩
    simp only [bind_ok, length_ok, pool_ok, modify_ok, read_ok, changeState_ok] at run
    obtain ⟨_, _, ⟨rfl, rfl⟩, bytes, _, ⟨pool, encoded, rfl⟩, _, _, rfl, _, _, ⟨rfl, rfl⟩, _, _,
      ⟨state, applied, rfl⟩, _, _, noted, run⟩ := run
    cases modify_ok.mp noted
    exact ⟨bytes, pool, state, encoded, applied, (concluded_ok run).symm⟩

def jumped (ctx : Context) (opcode : UInt8) (b : Buffer) : Buffer :=
  if opcode = Opcode.goto then { b with alive := false }
  else if ctx.wide && opcode != Opcode.jsr then { b with frameDue := ctx.settings.stackMaps }
  else b

theorem jumped_eq (ctx : Context) (opcode : UInt8) (b : Buffer) : jumped ctx opcode b = { b with
    alive := b.alive && decide (opcode ≠ Opcode.goto)
    frameDue := (jumped ctx opcode b).frameDue } := by
  unfold jumped
  split
  · rename_i isGoto
    simp [isGoto]
  · rename_i noGoto
    split <;> simp [noGoto]

theorem emitJump_ok (run : emitJump opcode pops ctx b = .ok pc b') :
    ∃ b1 log, Flushes ctx b b1 log ∧
      ((b1.alive = false ∧ b' = b1) ∨
        (b1.alive = true ∧ ∃ bytes back state, jumpBytes ctx.wide opcode = some (bytes, back) ∧
          popValues pops (begun ctx b1).state = .ok state ∧
          b' = jumped ctx opcode ({ (begun ctx b1) with
            unresolved := (begun ctx b1).unresolved + 1, state }.append bytes) ∧
          pc = b'.code.size - back)) := by
  obtain ⟨b1, log, flushes, ⟨dead, run⟩ | ⟨alive, run⟩⟩ := begin_ok run
  · exact ⟨b1, log, flushes, .inl ⟨dead, (length_ok.mp run).2.symm⟩⟩
  · refine ⟨b1, log, flushes, .inr ⟨alive, ?_⟩⟩
    simp only [bind_ok, modify_ok, length_ok, read_ok, changeState_ok] at run
    obtain ⟨_, _, rfl, _, _, ⟨rfl, rfl⟩, _, _, ⟨state, popped, rfl⟩, _, _, ⟨rfl, rfl⟩, run⟩ := run
    cases chosen : jumpBytes ctx.wide opcode with
    | none => simp only [chosen, bind_ok, fault_ok, and_false, exists_false] at run
    | some pair =>
      obtain ⟨bytes, back⟩ := pair
      refine ⟨bytes, back, state, rfl, popped, ?_⟩
      simp only [chosen, bind_ok, modify_ok] at run
      obtain ⟨_, _, rfl, run⟩ := run
      unfold jumped
      rcases ite_ok.mp run with ⟨isGoto, run⟩ | ⟨noGoto, run⟩
      · simp only [bind_ok, markDead_ok, length_ok, pure_ok] at run
        obtain ⟨_, _, rfl, _, _, ⟨rfl, rfl⟩, rfl, rfl⟩ := run
        rw [if_pos isGoto]
        exact ⟨rfl, rfl⟩
      · rw [if_neg noGoto]
        rcases ite_ok.mp run with ⟨widened, run⟩ | ⟨narrow, run⟩
        · simp only [bind_ok, modify_ok, length_ok, pure_ok] at run
          obtain ⟨_, _, rfl, _, _, ⟨rfl, rfl⟩, rfl, rfl⟩ := run
          rw [if_pos widened]
          exact ⟨rfl, rfl⟩
        · simp only [bind_ok, length_ok, pure_ok] at run
          obtain ⟨_, _, ⟨rfl, rfl⟩, rfl, rfl⟩ := run
          rw [if_neg narrow]
          exact ⟨rfl, rfl⟩

def absorbed (jump : Jump) (b : Buffer) : Chain := if jump = .goto then b.pending else []

def relieved (jump : Jump) (b : Buffer) : Buffer :=
  if jump = .goto then { b with pending := [] } else b

/-- A jump after the pending ones have been taken along. -/
theorem branch_after_ok {taken : Chain} (run : (match jump.opcode? with
      | some opcode => do
        if ← isAlive then
          let pc ← emitJump opcode jump.pops
          let chain ← mergeChains [⟨pc, (← get).state⟩] taken
          let wide := (← read).wide
          modify ({ · with fixed := wide })
          return chain
        else return taken
      | none => return taken : Asm Chain) ctx b = .ok chain b') :
    (b' = b ∧ chain = taken ∧ (jump = .never ∨ b.isAlive = false)) ∨
    ∃ opcode pc b1, jump.opcode? = some opcode ∧ b.isAlive = true ∧
      emitJump opcode jump.pops ctx b = .ok pc b1 ∧
      Chain.merge [⟨pc, b1.state⟩] taken = .ok chain ∧ b' = { b1 with fixed := ctx.wide } := by
  cases known : jump.opcode? with
  | none =>
    simp only [known, pure_ok] at run
    obtain ⟨rfl, rfl⟩ := run
    refine .inl ⟨rfl, rfl, .inl ?_⟩
    cases jump <;> first | rfl | cases known
  | some opcode =>
    simp only [known, bind_ok, isAlive_ok] at run
    obtain ⟨_, _, ⟨rfl, rfl⟩, run⟩ := run
    rcases ite_ok.mp run with ⟨alive, run⟩ | ⟨dead, run⟩
    · simp only [bind_ok, get_ok, read_ok, modify_ok, pure_ok] at run
      obtain ⟨pc, _, jumped, _, _, ⟨rfl, rfl⟩, merged, _, found, _, _, ⟨rfl, rfl⟩, _, _, rfl, rfl,
        rfl⟩ := run
      obtain ⟨same, rfl⟩ := mergeChains_ok found
      exact .inr ⟨opcode, pc, _, rfl, alive, jumped, same, rfl⟩
    · obtain ⟨rfl, rfl⟩ := pure_ok.mp run
      exact .inl ⟨rfl, rfl, .inr (by simpa using dead)⟩

theorem branch_ok (run : branch jump ctx b = .ok chain b') :
    (b' = relieved jump b ∧ chain = absorbed jump b ∧
      (jump = .never ∨ (relieved jump b).isAlive = false)) ∨
    ∃ opcode pc b1, jump.opcode? = some opcode ∧ (relieved jump b).isAlive = true ∧
      emitJump opcode jump.pops ctx (relieved jump b) = .ok pc b1 ∧
      Chain.merge [⟨pc, b1.state⟩] (absorbed jump b) = .ok chain ∧
      b' = { b1 with fixed := ctx.wide } := by
  unfold branch at run
  rcases ite_ok.mp run with ⟨isGoto, run⟩ | ⟨noGoto, run⟩
  · obtain ⟨taken, between, first, run⟩ := bind_ok.mp run
    cases modifyGet_ok.mp first
    simp only [absorbed, relieved, if_pos isGoto]
    exact branch_after_ok run
  · obtain ⟨taken, between, first, run⟩ := bind_ok.mp run
    obtain ⟨rfl, rfl⟩ := pure_ok.mp first
    simp only [absorbed, relieved, if_neg noGoto]
    exact branch_after_ok run

theorem jsr_ok (run : jsr ctx b = .ok chain b') :
    (b.isAlive = false ∧ b' = b ∧ chain = []) ∨
    ∃ pc, b.isAlive = true ∧ emitJump Opcode.jsr 0 ctx b = .ok pc b' ∧
      chain = [⟨pc, b'.state.push .returnAddress⟩] := by
  unfold jsr at run
  simp only [bind_ok, isAlive_ok] at run
  obtain ⟨_, _, ⟨rfl, rfl⟩, run⟩ := run
  rcases ite_ok.mp run with ⟨alive, run⟩ | ⟨dead, run⟩
  · simp only [bind_ok, get_ok, pure_ok] at run
    obtain ⟨pc, b1, jumped, _, _, ⟨rfl, rfl⟩, rfl, rfl⟩ := run
    exact .inr ⟨pc, alive, jumped, rfl⟩
  · obtain ⟨rfl, rfl⟩ := pure_ok.mp run
    exact .inl ⟨by simpa using dead, rfl, rfl⟩

/-- Code is appended to that of a buffer, with new jumps that wait and a new pool. -/
structure Grows (ctx : Context) (b b' : Buffer) (bytes : Bytes) (pool : Pool) (goes : Bool)
    (jumps : Nat) : Prop where
  alive : b.alive = true
  core : b'.core = { b.core with
    bytes := b.bytes ++ bytes, alive := goes, fixed := b'.fixed, unresolved := b.unresolved + jumps }
  tables : b'.tables = (begun ctx b).tables
  pool : b'.pool = pool

theorem Grows.bytes_eq {pool : Pool} {goes : Bool} {jumps : Nat}
    (grows : Grows ctx b b' bytes pool goes jumps) : b'.bytes = b.bytes ++ bytes :=
  congrArg Buffer.Core.bytes grows.core

theorem Grows.size_eq {pool : Pool} {goes : Bool} {jumps : Nat}
    (grows : Grows ctx b b' bytes pool goes jumps) : b'.code.size = b.code.size + bytes.length := by
  rw [← Buffer.length_bytes, ← Buffer.length_bytes, ← List.length_append, grows.bytes_eq]

theorem Flushes.of_dead {log : List (Nat × Nat)} (flushes : Flushes ctx b b' log)
    (dead : b'.alive = false) : b.isAlive = false ∧ b' = b ∧ log = [] := by
  have dead := flushes.alive_eq.symm.trans dead
  exact ⟨dead, flushes.of_nil (pending_nil_of_dead dead)⟩

/-- An instruction is appended after the pending jumps have been resolved, unless the code is
dead. -/
theorem emit_core (run : emit instruction ctx b = .ok () b') :
    (b.isAlive = false ∧ b' = b) ∨ ∃ c log bytes later, Flushes ctx b c log ∧
      instruction.encode c.pool = .ok bytes later ∧
      Grows ctx c b' bytes later (!instruction.isTerminal) 0 := by
  obtain ⟨c, log, flushes, ⟨dead, rfl⟩ | ⟨alive, bytes, pool, state, encoded, _, rfl⟩⟩ := emit_ok run
  · exact .inl ((flushes.of_dead dead).imp_right And.left)
  have began : (begun ctx c).pool = c.pool := by rw [begun_eq]
  refine .inr ⟨c, log, bytes, pool, flushes, began ▸ encoded, alive, ?_, ?_, ?_⟩
  · rw [concluded_eq]
    change { ((begun ctx c).append bytes).core with
      alive := ((begun ctx c).append bytes).core.alive && !instruction.isTerminal } = _
    rw [Buffer.core_append, core_begun]
    simp only [Buffer.core, alive, Bool.true_and]
    congr 1
    exact (congrArg Buffer.Core.fixed (core_begun ctx c)).symm
  · rw [concluded_eq]
    rfl
  · rw [concluded_eq]
    rfl

/-- The jump instruction at the end of emitted jump bytes waits for its target; a wide conditional
jump has a jump over it before. -/
theorem jumpBytes_cases (chosen : jumpBytes wide opcode = some (bytes, back)) :
    (wide = false ∧ bytes = [opcode, 0, 0] ∧ back = 3) ∨
    (wide = true ∧ back = 5 ∧ (bytes = [Opcode.gotoWide, 0, 0, 0, 0] ∧ opcode = Opcode.goto ∨
      bytes = [Opcode.jsrWide, 0, 0, 0, 0] ∧ opcode = Opcode.jsr)) ∨
    (wide = true ∧ back = 5 ∧ opcode ≠ Opcode.goto ∧ opcode ≠ Opcode.jsr ∧ ∃ negated, Opcode.negate? opcode = some negated ∧
      bytes = [negated, 0, 8, Opcode.gotoWide, 0, 0, 0, 0]) := by
  unfold jumpBytes at chosen
  cases wide with
  | false =>
    cases chosen
    exact .inl ⟨rfl, rfl, rfl⟩
  | true =>
    right
    simp only [Bool.not_true, Bool.false_eq_true, if_false] at chosen
    split at chosen
    · rename_i isGoto
      cases chosen
      exact .inl ⟨rfl, rfl, .inl ⟨rfl, isGoto⟩⟩
    rename_i noGoto
    split at chosen
    · rename_i isJsr
      cases chosen
      exact .inl ⟨rfl, rfl, .inr ⟨rfl, isJsr⟩⟩
    rename_i noJsr
    obtain ⟨negated, known, same⟩ := Option.map_eq_some_iff.mp chosen
    cases same
    exact .inr ⟨rfl, rfl, noGoto, noJsr, negated, known, rfl⟩

theorem length_of_jumpBytes (chosen : jumpBytes wide opcode = some (bytes, back)) :
    back ≤ bytes.length := by
  rcases jumpBytes_cases chosen with ⟨_, rfl, rfl⟩ | ⟨_, rfl, ⟨rfl, _⟩ | ⟨rfl, _⟩⟩ |
    ⟨_, rfl, _, _, _, _, rfl⟩ <;> simp

theorem length_of_jsrBytes (chosen : jumpBytes wide Opcode.jsr = some (bytes, back)) :
    bytes.length = back := by
  rcases jumpBytes_cases chosen with ⟨_, rfl, rfl⟩ | ⟨_, rfl, ⟨rfl, _⟩ | ⟨rfl, _⟩⟩ |
    ⟨_, _, _, isJsr, _⟩
  · rfl
  · rfl
  · rfl
  · exact absurd rfl isJsr

theorem emitJump_core (alive : b.isAlive = true) (run : emitJump opcode pops ctx b = .ok pc b') :
    ∃ c log bytes back, Flushes ctx b c log ∧ jumpBytes ctx.wide opcode = some (bytes, back) ∧
      pc = c.code.size + bytes.length - back ∧
      Grows ctx c b' bytes c.pool (decide (opcode ≠ Opcode.goto)) 1 ∧
      (bytes.length ≠ back → b'.frameDue = ctx.settings.stackMaps) := by
  obtain ⟨c, log, flushes, ⟨dead, rfl⟩ | ⟨goes, bytes, back, state, chosen, _, rfl, rfl⟩⟩ :=
    emitJump_ok run
  · rw [flushes.alive_eq, alive] at dead
    cases dead
  have size : (begun ctx c).code.size = c.code.size := by rw [begun_eq]
  refine ⟨c, log, bytes, back, flushes, chosen, ?_, ⟨goes, ?_, ?_, ?_⟩, fun long => ?_⟩
  · rw [jumped_eq]
    change ((Buffer.append _ bytes).code.size) - back = _
    rw [Buffer.size_append, ← size]
  · rw [jumped_eq]
    change { (({ (begun ctx c) with
      unresolved := (begun ctx c).unresolved + 1, state }.append bytes).core) with
      alive := (begun ctx c).alive && decide (opcode ≠ Opcode.goto) } = _
    rw [Buffer.core_append, begun_eq]
    simp only [Buffer.core, Buffer.bytes, goes, Bool.true_and]
    rfl
  · rw [jumped_eq]
    rfl
  · rw [jumped_eq]
    change (begun ctx c).pool = c.pool
    rw [begun_eq]
  · rcases jumpBytes_cases chosen with ⟨_, rfl, rfl⟩ | ⟨_, rfl, ⟨rfl, _⟩ | ⟨rfl, _⟩⟩ |
      ⟨wide, _, noGoto, noJsr, _⟩
    · exact absurd rfl long
    · exact absurd rfl long
    · exact absurd rfl long
    · rw [jumped, if_neg noGoto, if_pos (by simp [wide, noJsr])]

/-- Two buffers that differ only in what they say about registers. -/
def RegistersOnly (b b' : Buffer) : Prop :=
  b' = { b with
    state := b'.state, nextRegister := b'.nextRegister, maxLocals := b'.maxLocals
    locals := b'.locals, ranges := b'.ranges }

theorem RegistersOnly.trans (first : RegistersOnly b b1) (second : RegistersOnly b1 b2) :
    RegistersOnly b b2 := by
  unfold RegistersOnly at *
  rw [first] at second
  exact second

theorem RegistersOnly.core_eq (only : RegistersOnly b b') : b'.core = b.core := by
  rw [only]
  rfl

theorem registersOnly_assigned (register : UInt16) (b : Buffer) :
    RegistersOnly b (assigned register b) := by
  unfold assigned
  split <;> rfl

/-- Scopes end. Either only the registers change, or the position is asked for in between. -/
def ScopesEnd (ctx : Context) (b b' : Buffer) (log : List (Nat × Nat)) : Prop :=
  (RegistersOnly b b' ∧ log = []) ∨
  ∃ b0 b1, RegistersOnly b b0 ∧ Flushes ctx b0 b1 log ∧
    RegistersOnly { marked ctx b1 with fixed := true } b'

theorem ScopesEnd.trans {log more : List (Nat × Nat)} (first : ScopesEnd ctx b b1 log)
    (second : ScopesEnd ctx b1 b2 more) : ScopesEnd ctx b b2 (log ++ more) := by
  rcases first with ⟨only, rfl⟩ | ⟨c, d, before, flushes, after⟩
  · rcases second with ⟨only', rfl⟩ | ⟨c, d, before, flushes, after⟩
    · exact .inl ⟨only.trans only', rfl⟩
    · exact .inr ⟨c, d, only.trans before, flushes, after⟩
  · rcases second with ⟨only', rfl⟩ | ⟨c', d', before', flushes', after'⟩
    · rw [List.append_nil]
      exact .inr ⟨c, d, before, flushes, after.trans only'⟩
    · -- Once the position has been asked for, asking again changes nothing.
      have same := after.trans before'
      have noPending : c'.pending = [] := by
        rw [same]
        change (marked ctx d).core.pending = []
        rw [core_marked]
        exact flushes.pending_eq
      obtain ⟨rfl, rfl⟩ := flushes'.of_nil noPending
      have noLine : d'.pendingLine = none := by
        rw [same]
        exact marked_pendingLine ctx d
      have pinned : d'.fixed = true := by rw [same]
      rw [marked_of_none noLine] at after'
      rw [List.append_nil]
      refine .inr ⟨c, d, before, flushes, same.trans ?_⟩
      have unchanged : { d' with fixed := true } = d' := by
        rw [← pinned]
      rwa [unchanged] at after'

theorem endScope_eq (run : endScope register ctx b = .ok () b') : ∃ c,
    (c = { b with locals := b.locals.setIfInBounds register.toNat none } ∨ ∃ pc d ranges,
      position ctx { b with locals := b.locals.setIfInBounds register.toNat none } = .ok pc d ∧
      c = { d with ranges }) ∧ b' = { c with state := c.state.undefine register } := by
  unfold endScope at run
  simp only [bind_ok, get_ok, modify_ok] at run
  obtain ⟨_, _, ⟨rfl, rfl⟩, _, _, rfl, run⟩ := run
  generalize b.locals.getD register.toNat none = var at run
  rcases var with _ | ⟨type, _ | debug, _ | start⟩
  · exact ⟨_, .inl rfl, (modify_ok.mp run).symm⟩
  · exact ⟨_, .inl rfl, (modify_ok.mp run).symm⟩
  · exact ⟨_, .inl rfl, (modify_ok.mp run).symm⟩
  · exact ⟨_, .inl rfl, (modify_ok.mp run).symm⟩
  · obtain ⟨pc, d, asked, run⟩ := bind_ok.mp run
    rcases ite_ok.mp run with ⟨_, run⟩ | ⟨_, run⟩
    · simp only [bind_ok, modify_ok] at run
      obtain ⟨_, _, rfl, rfl⟩ := run
      exact ⟨_, .inr ⟨pc, d, _, asked, rfl⟩, rfl⟩
    · exact ⟨d, .inr ⟨pc, d, d.ranges, asked, rfl⟩, (modify_ok.mp run).symm⟩

theorem endScope_ok (run : endScope register ctx b = .ok () b') :
    ∃ log, ScopesEnd ctx b b' log := by
  obtain ⟨c, rfl | ⟨pc, d, ranges, asked, rfl⟩, rfl⟩ := endScope_eq run
  · exact ⟨[], .inl ⟨rfl, rfl⟩⟩
  · obtain ⟨b1, log, flushes, rfl, rfl⟩ := position_ok asked
    exact ⟨log, .inr ⟨_, b1, by rfl, flushes, rfl⟩⟩

theorem endScopesFrom_ok {register count : Nat}
    (run : endScopesFrom register count ctx b = .ok () b') : ∃ log, ScopesEnd ctx b b' log := by
  induction count generalizing register b with
  | zero => exact ⟨[], .inl ⟨(pure_ok.mp run).2 ▸ rfl, rfl⟩⟩
  | succ count ih =>
    obtain ⟨_, _, first, rest⟩ := bind_ok.mp run
    obtain ⟨log, ended⟩ := endScope_ok first
    obtain ⟨more, others⟩ := ih rest
    exact ⟨log ++ more, ended.trans others⟩

theorem endScopes_ok {first : UInt16} (run : endScopes first ctx b = .ok () b') :
    ∃ log, ScopesEnd ctx b b' log := by
  unfold endScopes at run
  simp only [bind_ok, get_ok, modify_ok] at run
  obtain ⟨_, _, ⟨rfl, rfl⟩, _, _, rfl, run⟩ := run
  obtain ⟨log, ended⟩ := endScopesFrom_ok run
  have freed : RegistersOnly b { b with nextRegister := first.toNat } := rfl
  exact ⟨log, ScopesEnd.trans (.inl ⟨freed, rfl⟩) ended⟩

theorem newLocal_eq {type : VType} {debug : Option LocalDebug}
    (run : newLocal type debug ctx b = .ok register b') :
    b.nextRegister + type.width ≤ maxLocalCount ∧ register = .ofNat b.nextRegister ∧
      b' = { b with
        nextRegister := b.nextRegister + type.width
        maxLocals := max b.maxLocals (b.nextRegister + type.width)
        locals := (b.locals ++ Array.replicate (b.nextRegister + type.width - b.locals.size)
          none).setIfInBounds b.nextRegister (some ⟨type, debug, none⟩)
        state := b.state.undefine (.ofNat b.nextRegister) } := by
  unfold newLocal at run
  simp only [bind_ok, get_ok, modify_ok] at run
  obtain ⟨_, _, ⟨rfl, rfl⟩, _, _, rfl, run⟩ := run
  rcases ite_ok.mp run with ⟨_, run⟩ | ⟨fits, run⟩
  · simp only [bind_ok, throw_ok, false_and, exists_false] at run
  · simp only [bind_ok, modify_ok, pure_ok] at run
    obtain ⟨_, _, rfl, rfl, rfl⟩ := run
    exact ⟨Nat.le_of_not_lt fits, rfl, rfl⟩

theorem newLocal_ok {type : VType} {debug : Option LocalDebug}
    (run : newLocal type debug ctx b = .ok register b') : RegistersOnly b b' := by
  obtain ⟨_, _, rfl⟩ := newLocal_eq run
  rfl

end Asm

end ClassForge
