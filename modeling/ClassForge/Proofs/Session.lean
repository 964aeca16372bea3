import ClassForge.Proofs.Switching

namespace ClassForge

variable {ctx : Context} {b b' : Buffer} {α : Type} {answer : α}

/-- Changes to what is known at the current position. -/
inductive Note where
  | force (type : VType)
  | lock (register : UInt16)
  | unlock (register : UInt16)
  | beginBody
  | markDead
  | beginStatement (line : Option UInt16)
  | clearLine
  | markLine
  | newSegment
  | addCatch (entry : CatchEntry)

def Note.perform : Note → Asm Unit
  | .force type => modify fun buffer => { buffer with state := buffer.state.force type }
  | .lock register => modify fun buffer => { buffer with state := buffer.state.lock register }
  | .unlock register => do Asm.changeState (← Asm.length) (·.unlock register)
  | .beginBody => Asm.beginBody
  | .markDead => Asm.markDead
  | .beginStatement line => Asm.beginStatement line
  | .clearLine => Asm.clearLine
  | .markLine => Asm.markLine
  | .newSegment => Asm.newSegment
  | .addCatch entry => Asm.addCatch entry

/-- What notes do. Most of them change no more than the state, the line that is to come or the next
register. -/
inductive Note.Does (ctx : Context) (b : Buffer) : Note → Buffer → Prop
  | plain {note : Note} (state : State) (pendingLine : Option UInt16) (nextRegister : Nat) :
      (∀ entry, note ≠ .addCatch entry) → Does ctx b note { b with state, pendingLine, nextRegister }
  | beginBody : Does ctx b .beginBody
      { b with alive := true, initialFrame := b.state.frame, frameDue := false }
  | markDead : Does ctx b .markDead { b with alive := false }
  | markLine : Does ctx b .markLine (Asm.marked ctx b)
  | addCatch (entry : CatchEntry) :
      Does ctx b (.addCatch entry) { b with catches := b.catches.push entry }

theorem Note.does_of_perform {note : Note} (run : note.perform ctx b = .ok () b') : note.Does ctx b b' := by
  cases note with
  | unlock register =>
    obtain ⟨_, _, measured, run⟩ := Asm.bind_ok.mp run
    obtain ⟨_, rfl⟩ := Asm.length_ok.mp measured
    obtain ⟨state, _, rfl⟩ := Asm.changeState_ok.mp run
    exact .plain state _ _ nofun
  | beginStatement line =>
    rcases Asm.ite_ok.mp run with ⟨_, run⟩ | ⟨_, run⟩
    · cases Asm.modify_ok.mp run
      exact .plain _ line _ nofun
    · cases (Asm.pure_ok.mp run).2
      exact .plain _ _ _ nofun
  | markLine =>
    cases Asm.markLine_ok.mp run
    exact .markLine
  | beginBody =>
    cases Asm.modify_ok.mp run
    exact .beginBody
  | markDead =>
    cases Asm.modify_ok.mp run
    exact .markDead
  | addCatch entry =>
    cases Asm.modify_ok.mp run
    exact .addCatch entry
  | force _ | lock _ | clearLine | newSegment =>
    cases Asm.modify_ok.mp run
    exact .plain _ _ _ nofun

def Note.rows : Note → List CatchEntry
  | .addCatch row => [row]
  | _ => []

theorem Note.perform_ok {note : Note} (run : note.perform ctx b = .ok () b') :
    b'.core = { b.core with alive := b'.alive } ∧ b'.pool = b.pool ∧
      b'.catches.toList = b.catches.toList ++ note.rows := by
  cases Note.does_of_perform run with
  | markLine =>
    rw [Asm.marked_eq]
    exact ⟨rfl, rfl, (List.append_nil _).symm⟩
  | addCatch entry => exact ⟨rfl, rfl, Array.toList_push⟩
  | plain _ _ _ other =>
    refine ⟨rfl, rfl, ?_⟩
    cases note with
    | addCatch entry => exact absurd rfl (other entry)
    | _ => exact (List.append_nil _).symm
  | _ => exact ⟨rfl, rfl, (List.append_nil _).symm⟩

/-- What the user of a buffer can ask for, by the type of the answer. -/
inductive Call : Type → Type
  | emit (instruction : Instruction) : Call Unit
  | branch (jump : Jump) : Call Chain
  | jsr : Call Chain
  | merge (chain other : Chain) : Call Chain
  | resolve (chain : Chain) : Call Unit
  | resolvePending : Call Unit
  | resolveTo (chain : Chain) (target : Nat) : Call Unit
  | position : Call Nat
  | entryPoint : Call Nat
  | entryPointWith (state : State) (pushed : Option VType) : Call Nat
  | newLocal (type : VType) (debug : Option LocalDebug) : Call UInt16
  | setDefined (register : UInt16) : Call Unit
  | endScopes (first : UInt16) : Call Unit
  | note (change : Note) : Call Unit
  | switch (table : Bool) (operands : List Int32) : Call (Option SwitchPlace)
  | putWord (pc : Nat) (value : Int32) : Call Unit
  /-- Throw a chain away without resolving it. -/
  | discard (chain : Chain) : Call Unit

variable {call : Call α}

namespace Call

def perform : {α : Type} → Call α → Asm α
  | _, .emit instruction => Asm.emit instruction
  | _, .branch jump => Asm.branch jump
  | _, .jsr => Asm.jsr
  | _, .merge chain other => Asm.mergeChains chain other
  | _, .resolve chain => Asm.resolve chain
  | _, .resolvePending => Asm.resolvePending
  | _, .resolveTo chain target => Asm.resolveTo chain target
  | _, .position => Asm.position
  | _, .entryPoint => Asm.entryPoint
  | _, .entryPointWith state pushed => Asm.entryPointWith state pushed
  | _, .newLocal type debug => Asm.newLocal type debug
  | _, .setDefined register => Asm.setDefined register
  | _, .endScopes first => Asm.endScopes first
  | _, .note change => change.perform
  | _, .switch table operands => Asm.placeSwitch table operands
  | _, .putWord pc value => Asm.putWord pc value
  | _, .discard _ => pure ()

/-- Positions of the jumps that the call takes from the user. -/
def takes : {α : Type} → Call α → Multiset Nat
  | _, .merge chain other => chain.pcs + other.pcs
  | _, .resolve chain | _, .resolveTo chain _ | _, .discard chain => chain.pcs
  | _, _ => 0

def gives : {α : Type} → Call α → α → Multiset Nat
  | _, .branch _, chain | _, .jsr, chain | _, .merge _ _, chain => chain.pcs
  | _, _, _ => 0

def discards : {α : Type} → Call α → Multiset Nat
  | _, .discard chain => chain.pcs
  | _, _ => 0

def observes : {α : Type} → Call α → α → List Nat
  | _, .position, pc | _, .entryPoint, pc | _, .entryPointWith _ _, pc => [pc]
  | _, _, _ => []

def enters : {α : Type} → Call α → α → List Nat
  | _, .entryPoint, pc | _, .entryPointWith _ _, pc => [pc]
  | _, _, _ => []

def places : {α : Type} → Call α → α → List SwitchPlace
  | _, .switch _ _, place => place.toList
  | _, _, _ => []

def rows : {α : Type} → Call α → List CatchEntry
  | _, .note change => change.rows
  | _, _ => []

def fills : {α : Type} → Call α → List Nat
  | _, .putWord pc _ => [pc]
  | _, _ => []

def Complete : {α : Type} → Call α → Prop
  | _, .switch table operands => SwitchOperands table operands
  | _, _ => True

/-- The offsets of jumps that the call writes. -/
def Logs (ctx : Context) : {α : Type} → Call α → Buffer → Buffer → List (Nat × Nat) → Prop
  | _, .emit _, b, _, log | _, .jsr, b, _, log | _, .resolvePending, b, _, log
  | _, .position, b, _, log | _, .entryPoint, b, _, log | _, .entryPointWith _ _, b, _, log
  | _, .switch _ _, b, _, log =>
    ∃ b1, Asm.Flushes ctx b b1 log
  | _, .branch jump, b, b', log =>
    if jump = .goto ∨ jump = .never then log = []
    else ∃ b1 flushed, Asm.Flushes ctx b b1 flushed ∧
      log = flushed ++ if ctx.wide ∧ b1.alive then [(b1.code.size, b'.code.size)] else []
  | _, .resolveTo chain target, b, b', log => Asm.Lands ctx chain target b b' log
  | _, .endScopes _, b, b', log => Asm.ScopesEnd ctx b b' log
  | _, _, _, _, log => log = []

/-- What a call writes into jumps can be told from its run. -/
theorem exists_logs (run : call.perform ctx b = .ok answer b') : ∃ log, call.Logs ctx b b' log := by
  cases call with
  | emit instruction =>
    obtain ⟨b1, log, flushes, _⟩ := Asm.emit_ok run
    exact ⟨log, b1, flushes⟩
  | branch jump =>
    by_cases easy : jump = .goto ∨ jump = .never
    · exact ⟨[], by rw [Logs, if_pos easy]⟩
    simp only [Logs, if_neg easy]
    simp only [not_or] at easy
    have relieved : Asm.relieved jump b = b := if_neg easy.1
    rcases Asm.branch_ok run with ⟨rfl, _, silent⟩ | ⟨opcode, pc, b1, _, _, jumped, _, rfl⟩
    · have dead := silent.resolve_left easy.2
      rw [relieved] at dead
      exact ⟨_, b, [], Asm.Flushes.nil (Asm.pending_nil_of_dead dead), rfl⟩
    · rw [relieved] at jumped
      obtain ⟨c, flushed, flushes, _⟩ := Asm.emitJump_ok jumped
      exact ⟨_, c, flushed, flushes, rfl⟩
  | jsr =>
    rcases Asm.jsr_ok run with ⟨dead, rfl, _⟩ | ⟨pc, _, jumped, _⟩
    · exact ⟨[], b', Asm.Flushes.nil (Asm.pending_nil_of_dead dead)⟩
    · obtain ⟨c, flushed, flushes, _⟩ := Asm.emitJump_ok jumped
      exact ⟨flushed, c, flushes⟩
  | resolvePending =>
    obtain ⟨log, flushes⟩ := Asm.resolvePending_ok run
    exact ⟨log, b', flushes⟩
  | resolveTo chain target => exact Asm.resolveTo_ok run
  | position =>
    obtain ⟨b1, log, flushes, _⟩ := Asm.position_ok run
    exact ⟨log, b1, flushes⟩
  | entryPoint =>
    obtain ⟨_, asked, _⟩ := Asm.entryPoint_ok run
    obtain ⟨b1, log, flushes, _⟩ := Asm.position_ok asked
    exact ⟨log, b1, flushes⟩
  | entryPointWith state pushed =>
    obtain ⟨_, asked, _⟩ := Asm.entryPointWith_ok run
    obtain ⟨b1, log, flushes, _⟩ := Asm.position_ok asked
    exact ⟨log, b1, flushes⟩
  | endScopes first => exact Asm.endScopes_ok run
  | switch table operands =>
    obtain ⟨b1, log, flushes, _⟩ := Asm.placeSwitch_ok run
    exact ⟨log, b1, flushes⟩
  | merge chain other | resolve chain | newLocal type debug | setDefined register | note change
  | putWord pc value | discard chain =>
    exact ⟨[], rfl⟩

end Call

/-- A buffer and what its user holds. -/
structure Session where
  buffer : Buffer
  /-- Positions of the jumps in chains that the user holds. -/
  held : Multiset Nat
  /-- Positions of the jumps in chains that the user has thrown away. -/
  discarded : Multiset Nat
  /-- Positions that the user knows, latest first. -/
  observed : List Nat
  /-- Positions that the user has made reachable. -/
  entries : List Nat
  /-- Switches that have been emitted. -/
  switches : List SwitchPlace
  /-- Positions of operands that have been filled in. -/
  filled : List Nat
  /-- Jumps with the targets that have been written into them, in order. -/
  written : List (Nat × Nat)

variable {s : Session}

namespace Session

def start (pool : Pool) : Session := ⟨.empty pool, 0, 0, [], [], [], [], []⟩

def sites (s : Session) : Multiset Nat := s.buffer.pending.pcs + (s.held + s.discarded)

def after (s : Session) {α : Type} (call : Call α) (answer : α) (b : Buffer)
    (log : List (Nat × Nat)) : Session where
  buffer := b
  held := s.held - call.takes + call.gives answer
  discarded := s.discarded + call.discards
  observed := call.observes answer ++ s.observed
  entries := call.enters answer ++ s.entries
  switches := call.places answer ++ s.switches
  filled := call.fills ++ s.filled
  written := s.written ++ log

/-- The user holds the chains that a call takes and the operands that it fills in. -/
structure Permits (s : Session) {α : Type} (call : Call α) : Prop where
  owns : call.takes ≤ s.held
  slots : ∀ pc ∈ call.fills, ∃ place ∈ s.switches, place.IsSlot pc
  complete : call.Complete

theorem permits_of_plain (takes : call.takes = 0) (fills : call.fills = [])
    (complete : call.Complete) : s.Permits call where
  owns := takes ▸ Multiset.zero_le _
  slots := by simp [fills]
  complete := complete

/-- One call, which must not fail. -/
inductive Step (ctx : Context) (s : Session) : Session → Prop
  | call {α : Type} (call : Call α) {answer : α} {b : Buffer} {log : List (Nat × Nat)} :
      s.Permits call → call.perform ctx s.buffer = .ok answer b →
      call.Logs ctx s.buffer b log → Step ctx s (s.after call answer b log)

/-- Sessions that calls lead to, from the start of a method on. -/
inductive Reach (ctx : Context) (pool : Pool) : Session → Prop
  | start : Reach ctx pool (start pool)
  | next {s s' : Session} : Reach ctx pool s → Step ctx s s' → Reach ctx pool s'

end Session

theorem Session.Reach.perform {pool : Pool} (reach : Reach ctx pool s) (call : Call α)
    (permits : s.Permits call) (run : call.perform ctx s.buffer = .ok answer b) :
    ∃ log, Reach ctx pool (s.after call answer b log) := by
  obtain ⟨log, logs⟩ := call.exists_logs run
  exact ⟨log, reach.next (.call call permits run logs)⟩

end ClassForge
