import ClassForge.Proofs.JumpGraph

namespace ClassForge

variable {base p : Nat} {b b' : Buffer} {α : Type} {call : Call α} {answer : α} {ctx : Context}

/-- Nothing but a lone `goto` is resolved. It is dropped, and so the code ends at the position. -/
def Call.Loosens (ctx : Context) {α : Type} (call : Call α) (b b' : Buffer) (p : Nat) : Prop :=
  call.isBare = true ∧ call.Elides ctx b b' ∧ (call.resolves b b').length = 1 ∧ p + 3 = b.code.size

/-- A boundary in the code; if it is the end, it is marked as fixed. -/
structure Buffer.Pinned (base : Nat) (b : Buffer) (p : Nat) : Prop where
  boundary : Boundary b.bytes base p
  fixed : p = b.code.size → b.fixed = true

theorem Buffer.Pinned.ne_size {target : Nat} {chain : Chain} (pinned : b.Pinned base p)
    (elides : Asm.Elides ctx b target chain) : p ≠ b.code.size :=
  fun same => Asm.not_elides_of_fixed (pinned.fixed same) elides

theorem Buffer.Pinned.alters (pinned : b.Pinned base p) (alters : call.Alters ctx base b b')
    (firm : ¬call.Loosens ctx b b' p) : b'.Pinned base p := by
  obtain ⟨b1, tail, trims, bytes, _, ends⟩ := alters
  have size : b'.code.size = b1.code.size + tail.length := by
    rw [← Buffer.length_bytes, bytes, List.length_append, Buffer.length_bytes]
  have bound := pinned.boundary.le_length
  rw [Buffer.length_bytes] at bound
  cases trims with
  | keep none same mark =>
    have sameSize := same.size
    rw [Buffer.length_bytes, Buffer.length_bytes] at sameSize
    refine ⟨bytes ▸ (same.boundary p pinned.boundary).append tail, fun atEnd => ?_⟩
    have marked : b1.fixed = true := by
      rcases mark with ⟨_, unchanged⟩ | marked
      · exact unchanged.trans (pinned.fixed (by omega))
      · exact marked
    rcases ends (List.eq_nil_of_length_eq_zero (by omega)) with fixed | ⟨unchanged, _⟩
    · exact fixed
    · exact unchanged.trans marked
  | drop elides long jump same mark =>
    have sameSize := same.size
    rw [List.length_take, Buffer.length_bytes, Buffer.length_bytes] at sameSize
    have before : p ≤ b.code.size - 3 := by
      have differ := pinned.ne_size elides
      rw [← Buffer.length_bytes] at long jump ⊢
      exact Reworked.le_of_lt long jump pinned.boundary (by rw [Buffer.length_bytes]; omega)
    refine ⟨bytes ▸ (same.boundary p (pinned.boundary.take before)).append tail, fun atEnd => ?_⟩
    rcases ends (List.eq_nil_of_length_eq_zero (by omega)) with fixed | ⟨unchanged, bare⟩
    · exact fixed
    rcases mark with lone | marked
    · rcases bare with bare | none
      · exact absurd ⟨bare, elides, lone, by omega⟩ firm
      · rw [none] at lone
        cases lone
    · exact unchanged.trans marked

theorem Call.observes_eq (run : call.perform ctx b = .ok answer b')
    (known : p ∈ call.observes answer) : p = b'.code.size ∧ b'.fixed = true := by
  have asked : ∀ {pc : Nat} {b1 : Buffer}, Asm.position ctx b = .ok pc b1 →
      pc = b1.code.size ∧ b1.fixed = true := by
    intro pc b1 run
    obtain ⟨c, _, _, rfl, rfl⟩ := Asm.position_ok run
    have bytes : (Asm.marked ctx c).bytes = c.bytes :=
      congrArg Buffer.Core.bytes (Asm.core_marked ctx c)
    refine ⟨?_, rfl⟩
    rw [← Buffer.length_bytes, ← bytes, Buffer.length_bytes]
  cases call with
  | position =>
    cases List.mem_singleton.mp known
    exact asked run
  | entryPoint =>
    cases List.mem_singleton.mp known
    obtain ⟨b1, found, rfl⟩ := Asm.entryPoint_ok run
    exact ⟨(asked found).1, (asked found).2⟩
  | entryPointWith state pushed =>
    cases List.mem_singleton.mp known
    obtain ⟨b1, found, rfl⟩ := Asm.entryPointWith_ok run
    exact ⟨(asked found).1, (asked found).2⟩
  | _ => cases known

structure Move where
  {answer : Type}
  call : Call answer
  before : Session
  after : Session

namespace Move

/-- The known positions stay inside the code and at the start of instructions, and what stands before
them stays as well. -/
def Pins (move : Move) : Prop :=
  (∀ p ∈ move.after.observed, p ≤ move.after.buffer.code.size ∧
    Boundary move.after.buffer.bytes 0 p) ∧
  ∀ p ∈ move.before.observed, Kept p move.before.buffer.bytes move.after.buffer.bytes

def Elides (ctx : Context) (move : Move) : Prop :=
  move.call.Elides ctx move.before.buffer move.after.buffer

/-- A lone `goto` that starts at a known position is dropped, and nothing more happens there. -/
def Loosens (ctx : Context) (move : Move) : Prop :=
  ∃ p ∈ move.before.observed, move.call.Loosens ctx move.before.buffer move.after.buffer p

end Move

namespace Session

/-- The calls of a session from the start of a method on, latest first. -/
inductive Run (ctx : Context) (pool : Pool) : List Move → Session → Prop
  | start : Run ctx pool [] (start pool)
  | next {moves : List Move} {s : Session} {α : Type} (call : Call α) {answer : α} {b : Buffer}
      {log : List (Nat × Nat)} : Run ctx pool moves s → s.Permits call →
      call.perform ctx s.buffer = .ok answer b → call.Logs ctx s.buffer b log →
      Run ctx pool (⟨call, s, s.after call answer b log⟩ :: moves) (s.after call answer b log)

namespace Run

variable {log : List (Nat × Nat)}
variable {ctx : Context} {pool : Pool} {moves : List Move} {s : Session}

section

variable (run : Run ctx pool moves s)

include run

theorem reach : Reach ctx pool s := by
  induction run with
  | start => exact .start
  | next call _ permits performed logs ih => exact ih.next (.call call permits performed logs)

theorem perform (call : Call α) (answer : α) (b : Buffer) (permits : s.Permits call)
    (performed : call.perform ctx s.buffer = .ok answer b) :
    ∃ log, Run ctx pool (⟨call, s, s.after call answer b log⟩ :: moves)
      (s.after call answer b log) := by
  obtain ⟨log, logs⟩ := call.exists_logs performed
  exact ⟨log, run.next call permits performed logs⟩

theorem alters (permits : s.Permits call) (performed : call.perform ctx s.buffer = .ok answer b) :
    call.Alters ctx 0 s.buffer b :=
  run.reach.accounted.alters permits performed

theorem boundary_end (permits : s.Permits call)
    (performed : call.perform ctx s.buffer = .ok answer b) (logs : call.Logs ctx s.buffer b log) :
    Boundary b.bytes 0 b.code.size := by
  have wired := (run.next call permits performed logs).reach.wired
  have tiled := wired.tiled
  rw [Buffer.length_bytes] at tiled
  exact tiled

theorem boundary_step (permits : s.Permits call)
    (performed : call.perform ctx s.buffer = .ok answer b) (logs : call.Logs ctx s.buffer b log)
    (safe : call.Elides ctx s.buffer b → s.buffer.code.size ∉ s.observed)
    (known : ∀ p ∈ s.observed, Boundary s.buffer.bytes 0 p) :
    (∀ p ∈ (s.after call answer b log).observed, Boundary b.bytes 0 p) ∧
      ∀ p ∈ s.observed, Kept p s.buffer.bytes b.bytes := by
  have kept : ∀ p ∈ s.observed, Kept p s.buffer.bytes b.bytes := by
    intro p member
    refine (run.alters permits performed).reworked.kept (known p member) ?_
    rintro elides rfl
    rw [Buffer.length_bytes] at member
    exact safe elides member
  refine ⟨?_, kept⟩
  intro p member
  rcases List.mem_append.mp member with new | old
  · rw [(call.observes_eq performed new).1]
    exact run.boundary_end permits performed logs
  · exact (kept p old).boundary

theorem boundaries
    (safe : ∀ move ∈ moves, move.Elides ctx → move.before.buffer.code.size ∉ move.before.observed) :
    (∀ p ∈ s.observed, Boundary s.buffer.bytes 0 p) ∧ ∀ move ∈ moves, move.Pins := by
  induction run with
  | start => exact ⟨by simp [Session.start], by simp⟩
  | @next moves s _ call answer b log run permits performed logs ih =>
    obtain ⟨known, earlier⟩ := ih fun move member => safe move (.tail _ member)
    obtain ⟨later, kept⟩ := run.boundary_step permits performed logs
      (safe _ (.head _)) known
    refine ⟨later, List.forall_mem_cons.mpr ⟨⟨fun p member => ?_, kept⟩, earlier⟩⟩
    have boundary := later p member
    have bound := boundary.le_length
    rw [Buffer.length_bytes] at bound
    exact ⟨bound, boundary⟩

/-- As long as no lone `goto` is dropped at a known position, the end of the code is fixed whenever
it is known. -/
theorem all_pinned (firm : ∀ move ∈ moves, ¬move.Loosens ctx) :
    (∀ p ∈ s.observed, s.buffer.Pinned 0 p) ∧
      ∀ move ∈ moves, ∀ p ∈ move.before.observed, move.before.buffer.Pinned 0 p := by
  induction run with
  | start => exact ⟨by simp [Session.start], by simp⟩
  | @next moves s _ call answer b log run permits performed logs ih =>
    obtain ⟨pinned, earlier⟩ := ih fun move member => firm move (.tail _ member)
    refine ⟨?_, List.forall_mem_cons.mpr ⟨pinned, earlier⟩⟩
    intro p member
    rcases List.mem_append.mp member with new | old
    · obtain ⟨rfl, fixed⟩ := call.observes_eq performed new
      exact ⟨run.boundary_end permits performed logs, fun _ => fixed⟩
    · refine (pinned p old).alters (run.alters permits performed) fun loosens => ?_
      exact firm _ (.head _) ⟨p, old, loosens⟩

end

/-- Known positions are kept exactly as long as no dropped `goto` ends at one of them. That cannot
happen before a lone `goto` that starts at a known position has been dropped. -/
theorem positions_pinned (run : Run ctx pool moves s) :
    ((∀ move ∈ moves, move.Pins) ↔
      ∀ move ∈ moves, move.Elides ctx → move.before.buffer.code.size ∉ move.before.observed) ∧
    ((∀ move ∈ moves, ¬move.Loosens ctx) → ∀ move ∈ moves, move.Pins) := by
  refine ⟨⟨?_, fun safe => (run.boundaries safe).2⟩, ?_⟩
  · intro pins
    induction run with
    | start => simp
    | @next moves s _ call answer b log run permits performed logs ih =>
      obtain ⟨first, others⟩ := List.forall_mem_cons.mp pins
      refine List.forall_mem_cons.mpr ⟨fun elides known => ?_, ih others⟩
      have kept := first.2 _ known
      rw [← Buffer.length_bytes] at kept
      exact (run.alters permits performed).reworked.not_kept elides kept
  · intro firm
    refine (run.boundaries fun move member elides known => ?_).2
    have pinned := (run.all_pinned firm).2 move member _ known
    exact pinned.ne_size elides rfl

def bareBuffer (code : Array UInt8) (alive fixed : Bool) (pending : Chain) (unresolved : Nat) :
    Buffer :=
  { Buffer.empty .empty with code, alive, fixed, pending, unresolved }

theorem resolvePending_bareBuffer {code : Array UInt8} {alive : Bool} {pc unresolved : Nat}
    (last : pc + 3 = code.size) (isGoto : code.getD pc 0 = Opcode.goto) :
    Asm.resolvePending bareContext (bareBuffer code alive false [⟨pc, .empty⟩] (unresolved + 1)) =
      .ok () (bareBuffer (code.shrink pc) true false [] unresolved) := by
  have retracted : { (bareBuffer code alive false [] unresolved).retract 3 with alive := true } =
      bareBuffer (code.shrink pc) true false [] unresolved := by
    rw [show pc = code.size - 3 by omega]
    simp [bareBuffer, Buffer.retract, Buffer.empty]
  rw [← retracted]
  have lands : Asm.landing (bareBuffer code alive false [] unresolved) false code.size = code.size :=
    Asm.landing_of_le (le_rfl)
  have dropped : Asm.resolveSites code.size none [⟨pc, .empty⟩] bareContext
      (bareBuffer code alive false [] unresolved) = .ok none
        { (bareBuffer code alive false [] unresolved).retract 3 with alive := true } := by
    refine Asm.bind_ok.mpr ⟨_, _, rfl, Asm.bind_ok.mpr ⟨_, _, rfl, ?_⟩⟩
    rw [if_pos ⟨isGoto, last.trans lands.symm, lands, rfl⟩]
    rfl
  exact Asm.bind_ok.mpr ⟨_, _, rfl, Asm.bind_ok.mpr ⟨_, _, rfl, Asm.bind_ok.mpr ⟨_, _, rfl,
    Asm.bind_ok.mpr ⟨_, _, dropped, rfl⟩⟩⟩⟩

/-- A known position is lost: the `goto` that starts there is dropped, and then the one that ends
there. -/
theorem position_lost : ∃ moves s, Run bareContext .empty moves s ∧ ¬∀ move ∈ moves, move.Pins := by
  have begins : Run bareContext .empty [] (Session.start .empty) := .start
  obtain ⟨_, run⟩ := begins.perform (.branch .goto) [⟨0, .empty⟩]
    (bareBuffer #[0xA7, 0, 0] false false [] 1) (permits_of_plain rfl rfl trivial) rfl
  obtain ⟨_, run⟩ := run.perform .entryPoint 3
    (bareBuffer #[0xA7, 0, 0] true true [] 1) (permits_of_plain rfl rfl trivial) rfl
  obtain ⟨_, run⟩ := run.perform (.branch .goto) [⟨3, .empty⟩]
    (bareBuffer #[0xA7, 0, 0, 0xA7, 0, 0] false false [] 2) (permits_of_plain rfl rfl trivial) rfl
  obtain ⟨_, run⟩ := run.perform (.resolve [⟨3, .empty⟩]) ()
    (bareBuffer #[0xA7, 0, 0, 0xA7, 0, 0] false false [⟨3, .empty⟩] 2)
    ⟨show {3} ≤ (([0, 3] : List Nat) : Multiset Nat) by decide, by simp [Call.fills], trivial⟩ rfl
  obtain ⟨_, run⟩ := run.perform .resolvePending ()
    (bareBuffer #[0xA7, 0, 0] true false [] 1) (permits_of_plain rfl rfl trivial)
    (resolvePending_bareBuffer rfl rfl)
  obtain ⟨_, run⟩ := run.perform (.resolve [⟨0, .empty⟩]) ()
    (bareBuffer #[0xA7, 0, 0] true false [⟨0, .empty⟩] 1)
    ⟨show {0} ≤ (([0] : List Nat) : Multiset Nat) by decide, by simp [Call.fills], trivial⟩ rfl
  obtain ⟨_, run⟩ := run.perform .resolvePending () (bareBuffer #[] true false [] 0)
    (permits_of_plain rfl rfl trivial) (resolvePending_bareBuffer rfl rfl)
  refine ⟨_, _, run, fun pins => ?_⟩
  have bound : 3 ≤ 0 := ((pins _ (.head _)).1 3 (.head _)).1
  omega

/-- Code after a known position leaves it alone. -/
theorem positions_pinned_emit : ∃ moves s, Run bareContext .empty moves s ∧ 3 ∈ s.observed ∧
    ∀ move ∈ moves, move.Pins := by
  have begins : Run bareContext .empty [] (Session.start .empty) := .start
  obtain ⟨_, run⟩ := begins.perform (.branch .goto) [⟨0, .empty⟩]
    (bareBuffer #[0xA7, 0, 0] false false [] 1) (permits_of_plain rfl rfl trivial) rfl
  obtain ⟨_, run⟩ := run.perform .entryPoint 3
    (bareBuffer #[0xA7, 0, 0] true true [] 1) (permits_of_plain rfl rfl trivial) rfl
  obtain ⟨_, run⟩ := run.perform (.emit .nop) ()
    (bareBuffer #[0xA7, 0, 0, 0] true true [] 1) (permits_of_plain rfl rfl trivial) rfl
  refine ⟨_, _, run, .head _, run.positions_pinned.2 ?_⟩
  simp [Move.Loosens, Call.Loosens, Call.isBare]

end Run

end Session

end ClassForge
