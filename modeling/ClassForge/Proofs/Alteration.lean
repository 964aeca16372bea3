import ClassForge.Proofs.Carrying

namespace ClassForge

variable {pc : Nat}

namespace SameLayout

variable {base : Nat} {code other third : Bytes}

theorem refl (base : Nat) (code : Bytes) : SameLayout base code code :=
  ⟨rfl, fun _ => id, fun _ => id, fun _ _ => rfl, fun _ _ _ _ => Iff.rfl⟩

theorem trans (first : SameLayout base code other) (second : SameLayout base other third) :
    SameLayout base code third where
  size := second.size.trans first.size
  boundary pc boundary := second.boundary pc (first.boundary pc boundary)
  back pc boundary := first.back pc (second.back pc boundary)
  opcode pc boundary :=
    (second.opcode pc (first.boundary pc boundary)).trans (first.opcode pc boundary)
  plain pc bytes boundary plain :=
    (second.plain pc bytes (first.boundary pc boundary) plain).trans
      (first.plain pc bytes boundary plain)

end SameLayout

namespace Asm

variable {ctx : Context} {base target : Nat} {merged merged' : Option State} {chain : Chain}
  {b b' : Buffer} {log before : List (Nat × Nat)} {rest : Multiset Nat}

def Elides (ctx : Context) (b : Buffer) (target : Nat) (chain : Chain) : Prop :=
  ∃ site ∈ chain.head?, Droppable ctx b target site

theorem not_elides_of_fixed (fixed : b.fixed = true) : ¬Elides ctx b target chain := by
  rintro ⟨site, _, _, _, _, loose⟩
  rw [fixed] at loose
  cases loose

theorem sameLayout_patch {goal : Nat} {sites : Multiset Nat}
    (wired : Wired ctx.wide b.needsWide base (pc ::ₘ sites) before b.bytes)
    (run : patch pc goal ctx b = .ok () b') : SameLayout base b.bytes b'.bytes := by
  have length := length_offsetBytes ctx pc goal
  rcases patch_ok run with ⟨_, rfl⟩ | ⟨_, _, rfl⟩
  · refine wired.sameLayout (Multiset.mem_cons_self pc sites) (by simp) fun i away => ?_
    rw [Buffer.bytes_overwrite, if_neg (by omega)]
  · exact .refl base b.bytes

theorem Resolves.sameLayout (resolved : Resolves ctx target merged chain b merged' b' log)
    (wired : Wired ctx.wide b.needsWide base (chain.pcs + rest) before b.bytes)
    (fixed : b.fixed = true) : SameLayout base b.bytes b'.bytes ∧ b'.fixed = true := by
  induction resolved generalizing before with
  | done => exact ⟨.refl base _, fixed⟩
  | dropLast drop | dropMore drop => exact absurd fixed (by simp [drop.2.2.2])
  | fill keep isJump patched agree arrived _ ih =>
    rw [Chain.pcs_cons, Multiset.cons_add] at wired
    have filled := wired_patch wired patched
    have same := sameLayout_patch wired patched
    rw [arrive_buffer arrived] at ih
    obtain ⟨later, pinned⟩ := ih filled rfl
    exact ⟨same.trans later, pinned⟩

/-- What resolving a chain does to the code and to the mark on its end. -/
inductive Trims (ctx : Context) (base target : Nat) (chain : Chain) (b b' : Buffer) : Prop
  | keep : ¬Elides ctx b target chain → SameLayout base b.bytes b'.bytes →
      (chain = [] ∧ b'.fixed = b.fixed ∨ b'.fixed = true) → Trims ctx base target chain b b'
  | drop : Elides ctx b target chain → 3 ≤ b.code.size →
      JumpAt b.bytes base (b.code.size - 3) Opcode.goto →
      SameLayout base (b.bytes.take (b.code.size - 3)) b'.bytes →
      (chain.length = 1 ∨ b'.fixed = true) → Trims ctx base target chain b b'

theorem Trims.congr {a : Buffer} (trims : Trims ctx base target chain a b')
    (same : a.core = { b.core with pending := a.pending }) : Trims ctx base target chain b b' := by
  have code : a.code = b.code := Array.toList_inj.mp (congrArg Buffer.Core.bytes same)
  have bytes : a.bytes = b.bytes := congrArg Buffer.Core.bytes same
  have fixed : a.fixed = b.fixed := congrArg Buffer.Core.fixed same
  have elides : Elides ctx a target chain ↔ Elides ctx b target chain := by
    simp only [Elides, Droppable, landing, Buffer.offset16, code, fixed]
  cases trims with
  | keep none layout mark => exact .keep (mt elides.mpr none) (bytes ▸ layout) (fixed ▸ mark)
  | drop drops long jump layout mark =>
    rw [bytes, code] at jump layout
    exact .drop (elides.mp drops) (code ▸ long) jump layout mark

theorem Resolves.trims (resolved : Resolves ctx target merged chain b merged' b' log)
    (wired : Wired ctx.wide b.needsWide base (chain.pcs + rest) before b.bytes) :
    Trims ctx base target chain b b' := by
  have dropped : ∀ {site : JumpSite} {others : Chain}, Droppable ctx b target site →
      Wired ctx.wide b.needsWide base (Chain.pcs (site :: others) + rest) before b.bytes →
      3 ≤ b.code.size ∧ JumpAt b.bytes base (b.code.size - 3) Opcode.goto := by
    intro site others drop wired
    have last := drop.pc_eq
    rw [Chain.pcs_cons, Multiset.cons_add] at wired
    obtain ⟨_, opcode, jump⟩ := wired.boundary_of_last (Multiset.mem_cons_self _ _)
      (by rw [Buffer.length_bytes, last])
    have isGoto : opcode = Opcode.goto := by
      have found := jump.found
      have read := drop.1
      rw [Buffer.getD_code, found] at read
      exact read
    rw [show b.code.size - 3 = site.pc by omega]
    exact ⟨by omega, isGoto ▸ jump⟩
  cases resolved with
  | done =>
    refine .keep ?_ (.refl base _) (.inl ⟨rfl, rfl⟩)
    rintro ⟨_, none, _⟩
    cases none
  | dropLast drop =>
    obtain ⟨long, jump⟩ := dropped drop wired
    refine .drop ⟨_, rfl, drop⟩ long jump ?_ (.inl rfl)
    change SameLayout base _ (b.retract 3).bytes
    rw [Buffer.bytes_retract]
    exact .refl base _
  | dropMore drop arrived resolved =>
    obtain ⟨long, jump⟩ := dropped drop wired
    rw [Chain.pcs_cons, Multiset.cons_add] at wired
    have settled := drop.wired wired
    rw [arrive_buffer arrived] at resolved
    obtain ⟨same, pinned⟩ := resolved.sameLayout settled rfl
    refine .drop ⟨_, rfl, drop⟩ long jump ?_ (.inr pinned)
    rw [← Buffer.bytes_retract]
    exact same
  | fill keep isJump patched agree arrived resolved =>
    rw [Chain.pcs_cons, Multiset.cons_add] at wired
    have filled := wired_patch wired patched
    have same := sameLayout_patch wired patched
    rw [arrive_buffer arrived] at resolved
    obtain ⟨later, pinned⟩ := resolved.sameLayout filled rfl
    refine .keep ?_ (same.trans later) (.inr pinned)
    rintro ⟨_, first, drop⟩
    cases first
    exact keep drop

theorem Lands.trims (lands : Lands ctx chain target b b' log)
    (carries : b.core.Carries ctx.wide base (chain.pcs + rest) before) :
    Trims ctx base target chain b b' := by
  obtain ⟨merged, b1, resolved, rfl⟩ := lands
  have wired := carries.wired
  rw [add_left_comm] at wired
  have trims := resolved.trims wired
  have bytes : (settled ctx merged b1).bytes = b1.bytes :=
    congrArg Buffer.Core.bytes (core_settled ctx merged b1)
  have fixed : (settled ctx merged b1).fixed = b1.fixed :=
    congrArg Buffer.Core.fixed (core_settled ctx merged b1)
  cases trims with
  | keep none same mark => exact .keep none (bytes ▸ same) (fixed ▸ mark)
  | drop elides long jump same mark => exact .drop elides long jump (bytes ▸ same) (fixed ▸ mark)

theorem Flushes.trims (flushes : Flushes ctx b b' log)
    (carries : b.core.Carries ctx.wide base rest before) :
    Trims ctx base b.code.size b.pending b b' :=
  (Lands.trims flushes carries.relieve).congr rfl

end Asm

/-- The code before the position is still there, up to operands. -/
structure Kept (p : Nat) (code other : Bytes) : Prop where
  boundary : Boundary other 0 p
  opcode : ∀ pc < p, Boundary code 0 pc → Boundary other 0 pc ∧ other[pc]? = code[pc]?

/-- Operands are filled in, after the last `goto` has been dropped if there is one to drop, and an
instruction may be appended. One that takes the place of a dropped jump is no `goto`. -/
def Reworked (elided : Prop) (base : Nat) (code other : Bytes) : Prop :=
  ∃ filled tail, other = filled ++ tail ∧
    ((¬elided ∧ SameLayout base code filled) ∨
      (elided ∧ 3 ≤ code.length ∧ JumpAt code base (code.length - 3) Opcode.goto ∧
        SameLayout base (code.take (code.length - 3)) filled ∧
        tail.head? ≠ some Opcode.goto))

namespace Reworked

variable {elided : Prop} {base p : Nat} {code other : Bytes}

theorem le_of_lt (long : 3 ≤ code.length) (jump : JumpAt code base (code.length - 3) Opcode.goto)
    (boundary : Boundary code base p) (before : p < code.length) : p ≤ code.length - 3 := by
  by_contra after
  have fits := jump.end_le boundary (by omega)
  have : Opcode.jumpLength Opcode.goto = 3 := rfl
  omega

theorem kept (reworked : Reworked elided 0 code other) (boundary : Boundary code 0 p)
    (safe : elided → p ≠ code.length) : Kept p code other := by
  obtain ⟨filled, tail, rfl, ⟨_, same⟩ | ⟨drops, long, jump, same, _⟩⟩ := reworked
  · refine ⟨(same.boundary p boundary).append tail, fun pc before start => ?_⟩
    have inside := same.boundary pc start
    have fits := boundary.le_length
    have size := same.size
    refine ⟨inside.append tail, ?_⟩
    rw [List.getElem?_append_left (by omega), same.opcode pc start]
  · have bound := boundary.le_length
    have early := le_of_lt long jump boundary (Nat.lt_of_le_of_ne bound (safe drops))
    have size := same.size
    rw [List.length_take] at size
    refine ⟨(same.boundary p (boundary.take early)).append tail, fun pc before start => ?_⟩
    have shorter := start.take (show pc ≤ code.length - 3 by omega)
    refine ⟨(same.boundary pc shorter).append tail, ?_⟩
    rw [List.getElem?_append_left (by omega), same.opcode pc shorter,
      List.getElem?_take_of_lt (by omega)]

theorem not_kept (reworked : Reworked elided 0 code other) (drops : elided) :
    ¬Kept code.length code other := by
  intro kept
  obtain ⟨filled, tail, rfl, ⟨none, _⟩ | ⟨_, long, jump, same, differs⟩⟩ := reworked
  · exact none drops
  have size := same.size
  rw [List.length_take] at size
  obtain ⟨_, found⟩ := kept.opcode (code.length - 3) (by omega) jump.boundary
  rw [List.getElem?_append_right (by omega), jump.found,
    show code.length - 3 - filled.length = 0 by omega, ← List.head?_eq_getElem?] at found
  exact differs found

end Reworked

theorem Asm.Trims.reworked {ctx : Context} {base target : Nat} {chain : Chain} {b b' : Buffer}
    {tail : Bytes} (trims : Trims ctx base target chain b b')
    (differs : Elides ctx b target chain → tail.head? ≠ some Opcode.goto) :
    Reworked (Elides ctx b target chain) base b.bytes (b'.bytes ++ tail) := by
  refine ⟨b'.bytes, tail, rfl, ?_⟩
  cases trims with
  | keep none same _ => exact .inl ⟨none, same⟩
  | drop elides long jump same _ =>
    right
    rw [Buffer.length_bytes]
    exact ⟨elides, long, jump, same, differs elides⟩

namespace Call

def resolves : {α : Type} → Call α → Buffer → Buffer → Chain
  | _, .resolveTo chain _, _, _ => chain
  | _, .branch .goto, _, _ => []
  | _, _, b, b' => if b'.pending.isEmpty then b.pending else []

def goal : {α : Type} → Call α → Buffer → Nat
  | _, .resolveTo _ target, _ => target
  | _, _, b => b.code.size

def Elides (ctx : Context) {α : Type} (call : Call α) (b b' : Buffer) : Prop :=
  Asm.Elides ctx b (call.goal b) (call.resolves b b')

def isBare : {α : Type} → Call α → Bool
  | _, .resolvePending | _, .resolveTo _ _ => true
  | _, _ => false

/-- What a call does to the code: it resolves jumps and may append an instruction. If it appends
nothing, it marks the end of the code or leaves the mark as it is after resolving the jumps. -/
def Alters (ctx : Context) (base : Nat) {α : Type} (call : Call α) (b b' : Buffer) : Prop :=
  ∃ b1 tail, Asm.Trims ctx base (call.goal b) (call.resolves b b') b b1 ∧
    b'.bytes = b1.bytes ++ tail ∧
    (call.Elides ctx b b' → tail.head? ≠ some Opcode.goto) ∧
    (tail = [] → b'.fixed = true ∨
      b'.fixed = b1.fixed ∧ (call.isBare = true ∨ call.resolves b b' = []))

end Call

theorem Jump.opcode_ne {jump : Jump} {opcode : UInt8} (known : jump.opcode? = some opcode)
    (noGoto : jump ≠ .goto) : opcode ≠ Opcode.goto ∧ opcode ≠ Opcode.jsr := by
  rcases jump with op | op | op | op | _ | _
  · cases known; cases op <;> decide
  · cases known; cases op <;> decide
  · cases known; cases op <;> decide
  · cases known; cases op <;> decide
  · exact absurd rfl noGoto
  · cases known

theorem Asm.skips_eq {opcode : UInt8} {bytes : Bytes} {back start : Nat} {wide : Bool}
    (chosen : jumpBytes wide opcode = some (bytes, back)) : skips bytes back start =
      if wide = true ∧ opcode ≠ Opcode.goto ∧ opcode ≠ Opcode.jsr then
        [(start, start + bytes.length)] else [] := by
  rcases jumpBytes_cases chosen with ⟨rfl, rfl, rfl⟩ | ⟨rfl, rfl, ⟨rfl, rfl⟩ | ⟨rfl, rfl⟩⟩ |
    ⟨rfl, rfl, noGoto, noJsr, _, _, rfl⟩
  · rfl
  · rfl
  · rfl
  · rw [if_pos ⟨rfl, noGoto, noJsr⟩]
    rfl

namespace Call

variable {α : Type} {call : Call α} {answer : α} {ctx : Context} {base : Nat} {rest : Multiset Nat}
  {log : List (Nat × Nat)} {b b' : Buffer}

def asks : {α : Type} → Call α → Bool
  | _, .resolvePending | _, .position | _, .entryPoint | _, .entryPointWith _ _ | _, .endScopes _ => true
  | _, _ => false

def isNote : {α : Type} → Call α → Bool
  | _, .note _ => true
  | _, _ => false

/-- The call needs no chain, and concerns no more than the end of the code. -/
structure Free (call : Call α) : Prop where
  takes : call.takes = 0
  discards : call.discards = 0
  rows : call.rows = []
  goal : ∀ b, call.goal b = b.code.size

theorem free_of_asks (asks : call.asks = true) (answer : α) (b b' : Buffer) : call.Free ∧
    call.gives answer = 0 ∧ call.places answer = [] ∧
    call.resolves b b' = if b'.pending.isEmpty then b.pending else [] := by
  cases call with
  | resolvePending | position | entryPoint | entryPointWith | endScopes =>
    exact ⟨⟨rfl, rfl, rfl, fun _ => rfl⟩, rfl, rfl, rfl⟩
  | _ => cases asks

inductive Does (ctx : Context) (call : Call α) (answer : α) (b b' : Buffer)
    (log : List (Nat × Nat)) : Prop
  /-- Operands of switches may be filled in, and jumps may be thrown away. -/
  | still
      (core : b'.core = { b.core with bytes := b'.bytes, alive := b'.alive, pending := b'.pending })
      (stays : ∀ i, (∀ pos ∈ call.fills, i < pos ∨ pos + 4 ≤ i) → b'.bytes[i]? = b.bytes[i]?)
      (none : call.resolves b b' = []) (places : call.places answer = [])
      (waits : b.pending.pcs + call.takes = call.discards + (b'.pending.pcs + call.gives answer))
      (rest : b'.pool = b.pool ∧ b'.catches.toList = b.catches.toList ++ call.rows)
      (same : call.isNote = true ∨
        b'.alive = b.alive ∧ b'.tables = b.tables ∧ b'.frameDue = b.frameDue)
      (silent : log = [])
  /-- The pending jumps are resolved. -/
  | flush {a c : Buffer} (asks : call.asks = true) (before : Asm.RegistersOnly b a)
      (flushes : Asm.Flushes ctx a c log)
      (core : b'.core = { c.core with alive := b'.alive, fixed := b'.fixed })
      (rest : b'.pool = c.pool ∧ b'.catches = c.catches)
      (mark : b'.fixed = true ∨ b'.fixed = c.fixed ∧ call.isBare = true)
  /-- After that, except for the jumps that a `goto` takes along, an instruction is appended. -/
  | append {c : Buffer} {flushed : List (Nat × Nat)} {new : Addition} (kept : Chain)
      (taken : Multiset Nat) (flushes : Asm.Flushes ctx { b with pending := kept } c flushed)
      (adds : Asm.Adds ctx c b' new) (free : call.Free) (chain : call.resolves b b' = kept)
      (split : b.pending.pcs = kept.pcs + taken) (gives : call.gives answer = new.sites + taken)
      (head : kept = [] ∨ new.sites = 0 ∨ new.goes = true) (whole : call.Complete → new.whole)
      (places : call.places answer = new.places) (logged : log = flushed ++ new.log)
  | land {chain : Chain} {target : Nat} (lands : Asm.Lands ctx chain target b b' log)
      (same : call.resolves b b' = chain) (goal : call.goal b = target)
      (takes : call.takes = chain.pcs) (gives : call.gives answer = 0) (bare : call.isBare = true)
      (rest : call.discards = 0 ∧ call.rows = [] ∧ call.places answer = [])

theorem does_of_only (only : Asm.RegistersOnly b b') (free : call.Free)
    (chain : call.resolves b b' = if b'.pending.isEmpty then b.pending else [])
    (places : call.places answer = []) (gives : call.gives answer = 0) (silent : log = []) :
    call.Does ctx answer b b' log := by
  rw [only] at chain ⊢
  refine .still rfl (fun _ _ => rfl) ?_ places ?_ ⟨rfl, ?_⟩ (.inr ⟨rfl, rfl, rfl⟩) silent
  · rw [chain]
    cases b.pending <;> rfl
  · rw [free.takes, free.discards, gives, zero_add]
  · rw [free.rows, List.append_nil]

theorem does_of_adds {c : Buffer} {flushed : List (Nat × Nat)} {new : Addition}
    (flushes : Asm.Flushes ctx b c flushed) (adds : Asm.Adds ctx c b' new) (free : call.Free)
    (chain : call.resolves b b' = if b'.pending.isEmpty then b.pending else [])
    (gives : call.gives answer = new.sites) (head : new.sites = 0 ∨ new.goes = true)
    (whole : call.Complete → new.whole) (places : call.places answer = new.places)
    (logged : log = flushed ++ new.log) : call.Does ctx answer b b' log := by
  have pending : b'.pending = [] := (congrArg Buffer.Core.pending adds.core).trans flushes.pending_eq
  rw [pending] at chain
  exact .append b.pending 0 flushes adds free chain (add_zero _).symm (gives.trans (add_zero _).symm)
    (.inr head) whole places logged

theorem adds_jump {opcode : UInt8} {pops pc : Nat} {a b1 : Buffer} (valid : IsShortJump opcode)
    (alive : a.isAlive = true) (run : Asm.emitJump opcode pops ctx a = .ok pc b1) :
    ∃ c flushed bytes back, Asm.Flushes ctx a c flushed ∧
      Asm.jumpBytes ctx.wide opcode = some (bytes, back) ∧
      ∀ fixed, (bytes.length ≠ back → fixed = true) → Asm.Adds ctx c { b1 with fixed }
        { bytes, pool := c.pool, sites := {pc}, log := Asm.skips bytes back c.code.size
          goes := decide (opcode ≠ Opcode.goto) } := by
  obtain ⟨c, flushed, bytes, back, flushes, chosen, rfl, grows, due⟩ := Asm.emitJump_core alive run
  refine ⟨c, flushed, bytes, back, flushes, chosen, fun fixed marks => ⟨⟨grows.alive, ?_, grows.tables,
    grows.pool⟩, .jump valid chosen, fun skips => ?_⟩⟩
  · exact congrArg (fun core => { core with fixed }) grows.core
  · have long : bytes.length ≠ back := fun same => skips (if_pos same)
    exact ⟨marks long, due long⟩

theorem does_branch {jump : Jump} {chain : Chain} (run : Asm.branch jump ctx b = .ok chain b')
    (logs : (Call.branch jump).Logs ctx b b' log) : (Call.branch jump).Does ctx chain b b' log := by
  have free : (Call.branch jump).Free := ⟨rfl, rfl, rfl, fun _ => rfl⟩
  have long {opcode : UInt8} {bytes : Bytes} {back : Nat}
      (chosen : Asm.jumpBytes ctx.wide opcode = some (bytes, back)) :
      bytes.length ≠ back → ctx.wide = true := by
    intro differ
    rcases Asm.jumpBytes_cases chosen with ⟨_, rfl, rfl⟩ | ⟨wide, _⟩ | ⟨wide, _⟩
    · exact absurd rfl differ
    · exact wide
    · exact wide
  by_cases isGoto : jump = .goto
  · subst isGoto
    -- The pending jumps are taken along, so that none is resolved.
    obtain rfl : log = [] := logs
    rcases Asm.branch_ok run with ⟨rfl, rfl, _⟩ | ⟨opcode, pc, b1, known, alive, jumped, merged, rfl⟩
    · exact .still rfl (fun _ _ => rfl) rfl rfl (by rw [show discards _ = 0 from rfl, zero_add]; exact add_comm _ _)
        ⟨rfl, (List.append_nil _).symm⟩ (.inr ⟨rfl, rfl, rfl⟩) rfl
    · obtain ⟨c, flushed, bytes, back, flushes, chosen, adds⟩ :=
        adds_jump (Jump.isShortJump known) alive jumped
      obtain ⟨_, rfl⟩ := flushes.of_nil rfl
      cases known
      refine .append [] b.pending.pcs flushes (adds ctx.wide (long chosen)) free rfl (zero_add _).symm
        (Chain.pcs_merge merged) (.inl rfl) (fun _ => trivial) rfl ?_
      rw [List.nil_append, Asm.skips_eq chosen, if_neg (by simp)]
  · have relieved : Asm.relieved jump b = b := if_neg isGoto
    have absorbed : Asm.absorbed jump b = [] := if_neg isGoto
    have chained : (Call.branch jump).resolves b b' = if b'.pending.isEmpty then b.pending else [] := by
      cases jump <;> first | exact absurd rfl isGoto | rfl
    have run := Asm.branch_ok run
    rw [relieved, absorbed] at run
    rcases run with ⟨rfl, rfl, silent⟩ | ⟨opcode, pc, b1, known, alive, jumped, merged, rfl⟩
    · refine does_of_only rfl free chained rfl rfl ?_
      by_cases never : jump = .never
      · simpa [Logs, never] using logs
      · simp only [Logs, if_neg (not_or.mpr ⟨isGoto, never⟩)] at logs
        obtain ⟨c, flushed, flushes, rfl⟩ := logs
        have dead := silent.resolve_left never
        obtain ⟨rfl, rfl⟩ := flushes.of_nil (Asm.pending_nil_of_dead dead)
        rw [if_neg (by simp [(Bool.or_eq_false_iff.mp dead).1])]
        rfl
    · have never : jump ≠ .never := by
        rintro rfl
        cases known
      simp only [Logs, if_neg (not_or.mpr ⟨isGoto, never⟩)] at logs
      obtain ⟨c, flushed, flushes, rfl⟩ := logs
      obtain ⟨_, _, bytes, back, flushes', chosen, adds⟩ :=
        adds_jump (Jump.isShortJump known) alive jumped
      obtain ⟨rfl, rfl⟩ := flushes.unique flushes'
      have adds := adds ctx.wide (long chosen)
      obtain ⟨noGoto, noJsr⟩ := Jump.opcode_ne known isGoto
      refine does_of_adds flushes adds free chained (Chain.pcs_merge merged)
        (.inr (decide_eq_true noGoto)) (fun _ => trivial) rfl ?_
      have size : b1.code.size = c.code.size + bytes.length := adds.size_eq
      simp only [Asm.skips_eq chosen, noGoto, noJsr, adds.alive, size, ne_eq, not_false_eq_true,
        and_true]

/-- Each call either leaves the code alone, appends to it, patches jumps or fills in a word. -/
theorem does_of_perform (run : call.perform ctx b = .ok answer b') (logs : call.Logs ctx b b' log) :
    call.Does ctx answer b b' log := by
  cases call with
  | emit instruction =>
    obtain ⟨d, flushes⟩ := logs
    have free : (Call.emit instruction).Free := ⟨rfl, rfl, rfl, fun _ => rfl⟩
    rcases Asm.emit_core run with ⟨dead, rfl⟩ | ⟨c, _, bytes, later, flushes', encoded, grows⟩
    · exact does_of_only rfl free rfl rfl rfl (flushes.of_nil (Asm.pending_nil_of_dead dead)).2
    · obtain ⟨rfl, rfl⟩ := flushes.unique flushes'
      exact does_of_adds flushes ⟨grows, .plain encoded, absurd rfl⟩ free rfl rfl (.inl rfl)
        (fun _ => trivial) rfl (List.append_nil _).symm
  | branch jump => exact does_branch run logs
  | jsr =>
    obtain ⟨d, flushes⟩ := logs
    have free : Call.jsr.Free := ⟨rfl, rfl, rfl, fun _ => rfl⟩
    rcases Asm.jsr_ok run with ⟨dead, rfl, rfl⟩ | ⟨pc, alive, jumped, rfl⟩
    · exact does_of_only rfl free rfl rfl rfl (flushes.of_nil (Asm.pending_nil_of_dead dead)).2
    · obtain ⟨c, _, bytes, back, flushes', chosen, adds⟩ := adds_jump isShortJump_jsr alive jumped
      obtain ⟨rfl, rfl⟩ := flushes.unique flushes'
      have short := Asm.length_of_jsrBytes chosen
      refine does_of_adds flushes (adds b'.fixed fun long => absurd short long) free rfl rfl (.inr rfl)
        (fun _ => trivial) rfl ?_
      rw [Asm.skips, if_pos short, List.append_nil]
  | merge chain other =>
    obtain ⟨found, rfl⟩ := Asm.mergeChains_ok run
    refine .still rfl (fun _ _ => rfl) (by simp [resolves]) rfl ?_ ⟨rfl, (List.append_nil _).symm⟩
      (.inr ⟨rfl, rfl, rfl⟩) logs
    exact (congrArg _ (Chain.pcs_merge found).symm).trans (zero_add _).symm
  | resolve chain =>
    obtain ⟨merged, found, rfl⟩ := Asm.resolve_ok run
    have total := Chain.pcs_merge found
    refine .still rfl (fun _ _ => rfl) ?_ rfl ?_ ⟨rfl, (List.append_nil _).symm⟩
      (.inr ⟨rfl, rfl, rfl⟩) logs
    · have count := congrArg Multiset.card total
      simp only [Multiset.card_add, Chain.card_pcs] at count
      simp only [resolves, List.isEmpty_iff]
      split
      · rename_i empty
        rw [empty, List.length_nil] at count
        exact List.eq_nil_of_length_eq_zero (by omega)
      · rfl
    · change _ = 0 + (merged.pcs + 0)
      rw [total, zero_add, add_zero, add_comm]
      rfl
  | resolvePending =>
    obtain ⟨_, flushes⟩ := logs
    obtain ⟨_, flushes'⟩ := Asm.resolvePending_ok run
    obtain ⟨rfl, rfl⟩ := flushes.unique flushes'
    exact .flush (a := b) rfl rfl flushes rfl ⟨rfl, rfl⟩ (.inr ⟨rfl, rfl⟩)
  | resolveTo chain target => exact .land logs rfl rfl rfl rfl rfl ⟨rfl, rfl, rfl⟩
  | position =>
    obtain ⟨_, flushes⟩ := logs
    obtain ⟨c, _, flushes', _, rfl⟩ := Asm.position_ok run
    obtain ⟨rfl, rfl⟩ := flushes.unique flushes'
    rw [Asm.marked_eq]
    exact .flush (a := b) rfl rfl flushes rfl ⟨rfl, rfl⟩ (.inl rfl)
  | entryPoint =>
    obtain ⟨_, flushes⟩ := logs
    obtain ⟨_, asked, rfl⟩ := Asm.entryPoint_ok run
    obtain ⟨c, _, flushes', _, rfl⟩ := Asm.position_ok asked
    obtain ⟨rfl, rfl⟩ := flushes.unique flushes'
    rw [Asm.marked_eq]
    exact .flush (a := b) rfl rfl flushes rfl ⟨rfl, rfl⟩ (.inl rfl)
  | entryPointWith state pushed =>
    obtain ⟨_, flushes⟩ := logs
    obtain ⟨_, asked, rfl⟩ := Asm.entryPointWith_ok run
    obtain ⟨c, _, flushes', _, rfl⟩ := Asm.position_ok asked
    obtain ⟨rfl, rfl⟩ := flushes.unique flushes'
    rw [Asm.marked_eq]
    exact .flush (a := b) rfl rfl flushes rfl ⟨rfl, rfl⟩ (.inl rfl)
  | newLocal type debug =>
    exact does_of_only (Asm.newLocal_ok run) ⟨rfl, rfl, rfl, fun _ => rfl⟩ rfl rfl rfl logs
  | setDefined register =>
    cases Asm.setDefined_ok.mp run
    exact does_of_only (Asm.registersOnly_assigned register b) ⟨rfl, rfl, rfl, fun _ => rfl⟩ rfl
      rfl rfl logs
  | endScopes first =>
    rcases logs with ⟨only, silent⟩ | ⟨a, c, before, flushes, only⟩
    · exact does_of_only only ⟨rfl, rfl, rfl, fun _ => rfl⟩ rfl rfl rfl silent
    · rw [Asm.marked_eq] at only
      rw [only]
      exact .flush rfl before flushes rfl ⟨rfl, rfl⟩ (.inl rfl)
  | note change =>
    obtain ⟨core, pool, catches⟩ := change.perform_ok run
    have pending : b'.pending = b.pending := congrArg Buffer.Core.pending core
    have bytes : b'.bytes = b.bytes := congrArg Buffer.Core.bytes core
    refine .still (by rw [core, bytes, pending]; rfl) (fun i _ => bytes ▸ rfl)
      (by simp [resolves, pending]) rfl ?_ ⟨pool, catches⟩ (.inl rfl) logs
    rw [pending]
    exact (zero_add _).symm
  | switch table operands =>
    obtain ⟨d, flushes⟩ := logs
    have free : (Call.switch table operands).Free := ⟨rfl, rfl, rfl, fun _ => rfl⟩
    rcases Asm.placeSwitch_core run with ⟨dead, rfl, rfl⟩ | ⟨c, _, flushes', rfl, grows⟩
    · exact does_of_only rfl free rfl rfl rfl (flushes.of_nil (Asm.pending_nil_of_dead dead)).2
    · obtain ⟨rfl, rfl⟩ := flushes.unique flushes'
      exact does_of_adds flushes ⟨grows, .switch table operands, absurd rfl⟩ free rfl rfl (.inl rfl) id
        rfl (List.append_nil _).symm
  | putWord pc value =>
    obtain ⟨core, _, same⟩ := Asm.putWord_ok run
    have pending : b'.pending = b.pending := congrArg Buffer.Core.pending core
    cases Asm.modify_ok.mp run
    refine .still rfl (fun i away => same i (away pc (by simp [fills]))) (by simp [resolves, pending]) rfl
      (zero_add _).symm ⟨rfl, (List.append_nil _).symm⟩ (.inr ⟨rfl, rfl, rfl⟩) logs
  | discard chain =>
    obtain ⟨_, rfl⟩ := Asm.pure_ok.mp run
    exact .still rfl (fun _ _ => rfl) (by simp [resolves]) rfl
      ((add_comm _ _).trans (congrArg _ (add_zero _).symm)) ⟨rfl, (List.append_nil _).symm⟩
      (.inr ⟨rfl, rfl, rfl⟩) logs

theorem alters (carries : b.core.Carries ctx.wide base (call.takes + rest) log)
    (fills : call.fills ≠ [] → SameLayout base b.bytes b'.bytes)
    (run : call.perform ctx b = .ok answer b') : call.Alters ctx base b b' := by
  obtain ⟨_, logs⟩ := call.exists_logs run
  cases does_of_perform run logs with
  | still core stays none =>
    refine ⟨b', [], ?_, (List.append_nil _).symm, by simp, fun _ => .inr ⟨rfl, .inr none⟩⟩
    rw [none]
    refine .keep (fun ⟨_, nothing, _⟩ => nomatch nothing) ?_ (.inl ⟨rfl, congrArg Buffer.Core.fixed core⟩)
    by_cases filled : call.fills = []
    · rw [List.ext_getElem? fun i => stays i (by simp [filled])]
      exact .refl base _
    · exact fills filled
  | @flush a c asks before flushes core _ mark =>
    obtain ⟨free, _, _, chain⟩ := free_of_asks asks answer b b'
    have pending : b'.pending = [] := (congrArg Buffer.Core.pending core).trans flushes.pending_eq
    rw [pending] at chain
    rw [free.takes, zero_add, ← before.core_eq] at carries
    refine ⟨c, [], ?_, ?_, by simp, fun _ => mark.imp_right fun ⟨same, bare⟩ => ⟨same, .inl bare⟩⟩
    · have trims := flushes.trims carries
      rw [before] at trims
      rw [free.goal, chain]
      exact trims.congr rfl
    · rw [List.append_nil]
      exact congrArg Buffer.Core.bytes core
  | @append c _ new kept taken flushes adds free chain split _ head =>
    rw [free.takes, zero_add] at carries
    refine ⟨c, new.bytes, ?_, adds.bytes_eq, ?_, fun none =>
      absurd none adds.fits.ne_nil⟩
    · rw [free.goal, chain]
      exact (flushes.trims (carries.split split)).congr rfl
    · rintro ⟨_, first, _⟩
      refine adds.fits.head_ne (head.resolve_left fun none => ?_)
      rw [chain, none] at first
      cases first
  | land lands same goal takes _ bare =>
    refine ⟨b', [], ?_, (List.append_nil _).symm, by simp, fun _ => .inr ⟨rfl, .inl bare⟩⟩
    rw [takes] at carries
    rw [same, goal]
    exact lands.trims carries

theorem Alters.reworked (alters : call.Alters ctx base b b') :
    Reworked (call.Elides ctx b b') base b.bytes b'.bytes := by
  obtain ⟨b1, tail, trims, same, differs, _⟩ := alters
  rw [same]
  exact trims.reworked differs

end Call

theorem Reworked.slotted {elided : Prop} {base : Nat} {code other : Bytes}
    {places : List SwitchPlace} (reworked : Reworked elided base code other)
    (tiled : Boundary code base code.length) (slotted : Slotted base places code) :
    Slotted base places other := by
  obtain ⟨filled, tail, rfl, ⟨_, same⟩ | ⟨_, long, jump, same, _⟩⟩ := reworked
  · have tiled' := same.boundary _ tiled
    rw [← same.size] at tiled'
    exact (slotted.sameLayout tiled same).append tiled' tail
  · have shorter := slotted.take jump (by omega)
    have size : (code.take (code.length - 3)).length = code.length - 3 := by
      rw [List.length_take]
      omega
    have tiled' := jump.boundary.take (le_rfl)
    refine (shorter.sameLayout ?_ same).append ?_ tail
    · rw [size]
      exact tiled'
    · rw [same.size, size]
      exact same.boundary _ tiled'

end ClassForge
