import ClassForge.Proofs.Boundary
import Mathlib.Algebra.Order.Group.Multiset

namespace ClassForge

variable {chain other : Chain}

namespace Buffer

variable {b : Buffer}

def bytes (b : Buffer) : Bytes := b.code.toList

/-- What the structure of the code depends on. -/
structure Core where
  bytes : Bytes
  alive : Bool
  needsWide : Bool
  fixed : Bool
  pending : Chain
  unresolved : Nat

def core (b : Buffer) : Core :=
  ⟨b.bytes, b.alive, b.needsWide, b.fixed, b.pending, b.unresolved⟩

theorem core_bytes : b.core.bytes = b.bytes := rfl

/-- What has been recorded about positions. -/
structure Tables where
  frames : Array (Nat × VFrame)
  lines : Array (Nat × UInt16)
  catches : Array CatchEntry

def tables (b : Buffer) : Tables := ⟨b.frames, b.lines, b.catches⟩

@[simp] theorem length_bytes : b.bytes.length = b.code.size := Array.length_toList

theorem getD_code (i : Nat) : b.code.getD i 0 = (b.bytes[i]?).getD 0 := by
  simp [bytes, Array.getD_eq_getD_getElem?]

theorem foldl_push (bytes : Bytes) (code : Array UInt8) :
    (bytes.foldl Array.push code).toList = code.toList ++ bytes := by
  induction bytes generalizing code with
  | nil => simp
  | cons byte rest ih => rw [List.foldl_cons, ih, Array.toList_push, List.append_assoc]; rfl

@[simp] theorem bytes_append (bytes : Bytes) : (b.append bytes).bytes = b.bytes ++ bytes :=
  foldl_push bytes b.code

@[simp] theorem core_append (bytes : Bytes) :
    (b.append bytes).core = { b.core with bytes := b.core.bytes ++ bytes } := by
  change _ = { b.core with bytes := b.bytes ++ bytes }
  rw [← bytes_append]
  rfl

@[simp] theorem size_append (bytes : Bytes) :
    (b.append bytes).code.size = b.code.size + bytes.length := by
  rw [← length_bytes, bytes_append, List.length_append, length_bytes]

@[simp] theorem bytes_retract (count : Nat) :
    (b.retract count).bytes = b.bytes.take (b.code.size - count) := by
  simp [bytes, retract]

@[simp] theorem size_retract (count : Nat) : (b.retract count).code.size = b.code.size - count := by
  rw [← length_bytes, bytes_retract, List.length_take, length_bytes]
  omega

theorem foldl_set (bytes : Bytes) (code : Array UInt8) (pos : Nat) (i : Nat) :
    let written := (bytes.foldl (fun ((code, i) : Array UInt8 × Nat) byte =>
      (code.setIfInBounds i byte, i + 1)) (code, pos)).1
    written.size = code.size ∧
      written.toList[i]? = if pos ≤ i ∧ i < pos + bytes.length ∧ i < code.size then bytes[i - pos]?
        else code.toList[i]? := by
  induction bytes generalizing code pos with
  | nil => simp; omega
  | cons byte rest ih =>
    obtain ⟨size, found⟩ := ih (code.setIfInBounds pos byte) (pos + 1)
    rw [Array.size_setIfInBounds] at size found
    refine ⟨size, ?_⟩
    rw [List.foldl_cons, found, Array.toList_setIfInBounds, List.length_cons]
    rcases Nat.lt_trichotomy i pos with before | here | after
    · rw [if_neg (by omega), if_neg (by omega), List.getElem?_set_ne (by omega)]
    · subst here
      rw [if_neg (by omega), List.getElem?_set_self', Nat.sub_self, List.getElem?_cons_zero]
      by_cases inside : i < code.size
      · simp [inside]
      · simp [inside]
    · rw [List.getElem?_set_ne (by omega), show i - pos = i - (pos + 1) + 1 by omega,
        List.getElem?_cons_succ]
      by_cases inside : i < pos + 1 + rest.length ∧ i < code.size
      · rw [if_pos ⟨by omega, inside⟩, if_pos ⟨by omega, by omega, inside.2⟩]
      · rw [if_neg fun found => inside found.2, if_neg (by omega)]

@[simp] theorem size_overwrite (pos : Nat) (bytes : Bytes) :
    (b.overwrite pos bytes).code.size = b.code.size :=
  (foldl_set bytes b.code pos 0).1

theorem bytes_overwrite (pos : Nat) (bytes : Bytes) (i : Nat) :
    (b.overwrite pos bytes).bytes[i]? =
      if pos ≤ i ∧ i < pos + bytes.length ∧ i < b.code.size then bytes[i - pos]?
      else b.bytes[i]? :=
  (foldl_set bytes b.code pos i).2

end Buffer

namespace Asm

variable {ctx : Context} {target pc : Nat} {log1 log2 : List (Nat × Nat)}

/-- The jump is a `goto` to the end of the code, right before it, and that end has not been
observed. -/
def Droppable (ctx : Context) (b : Buffer) (target : Nat) (site : JumpSite) : Prop :=
  b.code.getD site.pc 0 = Opcode.goto ∧ site.pc + 3 = landing b ctx.wide target ∧
    landing b ctx.wide target = b.code.size ∧ b.fixed = false

instance (ctx : Context) (b : Buffer) (target : Nat) (site : JumpSite) :
    Decidable (Droppable ctx b target site) :=
  inferInstanceAs (Decidable (_ ∧ _ ∧ _ ∧ _))

def InReach (pc target : Nat) : Prop := -0x8000 ≤ (target : Int) - pc ∧ (target : Int) - pc ≤ 0x7FFF

instance (pc target : Nat) : Decidable (InReach pc target) := inferInstanceAs (Decidable (_ ∧ _))

/-- What patching a jump writes: its position with the target, unless the offset does not fit. -/
def writes (ctx : Context) (pc target : Nat) : List (Nat × Nat) :=
  if ctx.wide = true ∨ InReach pc target then [(pc, target)] else []

/-- The states agree on the stack depth and on the monitors wherever they have to. -/
def Agrees (b : Buffer) (merged : Option State) (site : JumpSite) : Prop :=
  b.alive = true → site.state.depth = (merged.getD b.state).depth ∧
    site.state.locks = (merged.getD b.state).locks

/-- The jumps of a chain are resolved one after another. The last argument lists the offsets that
are written. -/
inductive Resolves (ctx : Context) (target : Nat) :
    Option State → Chain → Buffer → Option State → Buffer → List (Nat × Nat) → Prop
  | done {merged b} : Resolves ctx target merged [] b merged b []
  | dropLast {merged site b} : Droppable ctx b target site →
      Resolves ctx target merged [site] b merged { b.retract 3 with alive := true } []
  | dropMore {merged merged1 merged' site next rest b b1 b' log} : Droppable ctx b target site →
      arrive site (landing b ctx.wide target - 3) merged ctx (b.retract 3) = .ok merged1 b1 →
      Resolves ctx target merged1 (next :: rest) b1 merged' b' log →
      Resolves ctx target merged (site :: next :: rest) b merged' b' log
  | fill {merged merged1 merged' site rest b b1 b2 b' log} : ¬Droppable ctx b target site →
      Opcode.isJump (b.code.getD site.pc 0) = true →
      patch site.pc (landing b ctx.wide target) ctx b = .ok () b1 → Agrees b merged site →
      arrive site (landing b ctx.wide target) merged ctx b1 = .ok merged1 b2 →
      Resolves ctx target merged1 rest b2 merged' b' log →
      Resolves ctx target merged (site :: rest) b merged' b'
        (writes ctx site.pc (landing b ctx.wide target) ++ log)

variable {b b' b1 b2 : Buffer} {merged merged' : Option State} {site : JumpSite} {log : List (Nat × Nat)}

theorem agrees_iff :
    Agrees b merged site ↔ ¬(b.alive && (site.state.depth != (merged.getD b.state).depth ||
      site.state.locks != (merged.getD b.state).locks)) = true := by
  unfold Agrees
  cases b.alive <;> simp

theorem resolveSites_ok (run : resolveSites target merged chain ctx b = .ok merged' b') :
    ∃ log, Resolves ctx target merged chain b merged' b' log := by
  induction chain generalizing merged b with
  | nil =>
    obtain ⟨rfl, rfl⟩ := pure_ok.mp run
    exact ⟨[], .done⟩
  | cons site rest ih =>
    unfold resolveSites at run
    simp only [bind_ok, get_ok, read_ok] at run
    obtain ⟨_, _, ⟨rfl, rfl⟩, _, _, ⟨rfl, rfl⟩, run⟩ := run
    by_cases drop : Droppable ctx b target site
    · have condition : b.code.getD site.pc 0 = Opcode.goto ∧
          site.pc + 3 = landing b ctx.wide target ∧ landing b ctx.wide target = b.code.size ∧
          (!b.fixed) = true := by
        simpa [Droppable] using drop
      rw [if_pos condition] at run
      obtain ⟨_, _, retracted, run⟩ := bind_ok.mp run
      cases modify_ok.mp retracted
      cases rest with
      | nil =>
        simp only [List.isEmpty_nil, if_true, bind_ok, modify_ok, pure_ok] at run
        obtain ⟨_, _, rfl, rfl, rfl⟩ := run
        exact ⟨[], .dropLast drop⟩
      | cons next rest =>
        simp only [List.isEmpty_cons, Bool.false_eq_true, if_false, bind_ok] at run
        obtain ⟨merged1, b1, arrived, run⟩ := run
        obtain ⟨log, resolved⟩ := ih run
        exact ⟨log, .dropMore drop arrived resolved⟩
    · have condition : ¬(b.code.getD site.pc 0 = Opcode.goto ∧
          site.pc + 3 = landing b ctx.wide target ∧ landing b ctx.wide target = b.code.size ∧
          (!b.fixed) = true) := by
        simpa [Droppable] using drop
      rw [if_neg condition] at run
      by_cases isJump : Opcode.isJump (b.code.getD site.pc 0) = true
      · simp only [isJump, Bool.not_true, Bool.false_eq_true, if_false, bind_ok] at run
        obtain ⟨_, b1, patched, run⟩ := run
        by_cases agree : Agrees b merged site
        · rw [if_neg (agrees_iff.mp agree)] at run
          obtain ⟨merged1, b2, arrived, run⟩ := bind_ok.mp run
          obtain ⟨log, resolved⟩ := ih run
          exact ⟨_, .fill drop isJump patched agree arrived resolved⟩
        · rw [if_pos (Classical.not_not.mp fun differ => agree (agrees_iff.mpr differ))] at run
          simp only [bind_ok, fault_ok, false_and, exists_false] at run
      · simp only [isJump, Bool.not_false, if_true, bind_ok, fault_ok, false_and,
          exists_false] at run

def offsetBytes (ctx : Context) (pc target : Nat) : Bytes :=
  let offset : Int := target - pc
  if ctx.wide then Bytes.ofWord32 (Int32.ofInt offset).toUInt32
  else Bytes.ofWord16 (Int16.ofInt offset).toUInt16

theorem patch_ok (run : patch pc target ctx b = .ok () b') :
    ((ctx.wide = true ∨ InReach pc target) ∧ b' = b.overwrite (pc + 1) (offsetBytes ctx pc target)) ∨
      (ctx.wide = false ∧ ¬InReach pc target ∧ b' = { b with needsWide := true }) := by
  unfold patch at run
  simp only [bind_ok, read_ok, ite_ok, modify_ok] at run
  obtain ⟨_, _, ⟨rfl, rfl⟩, ⟨wide, rfl⟩ | ⟨narrow, ⟨fits, rfl⟩ | ⟨beyond, rfl⟩⟩⟩ := run
  · exact .inl ⟨.inl wide, by simp only [offsetBytes, wide, if_true]⟩
  · exact .inl ⟨.inr fits, by simp only [offsetBytes, narrow, Bool.false_eq_true, if_false]⟩
  · exact .inr ⟨by simpa using narrow, beyond, rfl⟩

theorem arrive_ok (run : arrive site target merged ctx b = .ok merged' b') :
    (b.code.size ≠ target ∧ merged' = merged ∧ b' = { b with fixed := true }) ∨
    (b.code.size = target ∧ b.alive = true ∧
      (∃ state, site.state.join ctx.hierarchy (merged.getD b.state) = .ok state ∧
        merged' = some state) ∧ b' = { b with fixed := true }) ∨
    (b.code.size = target ∧ b.alive = false ∧ merged' = some site.state ∧
      b' = { b with fixed := true, alive := true }) := by
  unfold arrive at run
  simp only [bind_ok, modify_ok, get_ok] at run
  obtain ⟨_, _, rfl, _, _, ⟨rfl, rfl⟩, run⟩ := run
  rcases ite_ok.mp run with ⟨lands, run⟩ | ⟨elsewhere, run⟩
  · rcases ite_ok.mp run with ⟨alive, run⟩ | ⟨dead, run⟩
    · obtain ⟨_, _, read, run⟩ := bind_ok.mp run
      obtain ⟨rfl, rfl⟩ := read_ok.mp read
      cases joined : site.state.join ctx.hierarchy (merged.getD b.state) with
      | ok state =>
        simp only [joined, pure_ok] at run
        obtain ⟨rfl, rfl⟩ := run
        exact .inr (.inl ⟨lands, alive, ⟨state, rfl, rfl⟩, rfl⟩)
      | error cause => simp only [joined, fault_ok] at run
    · simp only [bind_ok, modify_ok, pure_ok] at run
      obtain ⟨_, _, rfl, rfl, rfl⟩ := run
      exact .inr (.inr ⟨lands, by simpa using dead, rfl, rfl⟩)
  · obtain ⟨rfl, rfl⟩ := pure_ok.mp run
    exact .inl ⟨elsewhere, rfl, rfl⟩

theorem arrive_buffer (run : arrive site target merged ctx b = .ok merged' b') :
    b' = { b with fixed := true, alive := b.alive || decide (b.code.size = target) } := by
  rcases arrive_ok run with ⟨away, _, rfl⟩ | ⟨here, alive, _, rfl⟩ | ⟨here, dead, _, rfl⟩
  · simp [away]
  · simp [here, alive]
  · simp [here]

theorem Resolves.unique {merged merged1 merged2 : Option State}
    (first : Resolves ctx target merged chain b merged1 b1 log1)
    (second : Resolves ctx target merged chain b merged2 b2 log2) :
    merged1 = merged2 ∧ b1 = b2 ∧ log1 = log2 := by
  induction first generalizing log2 with
  | done =>
    cases second
    exact ⟨rfl, rfl, rfl⟩
  | dropLast drop =>
    cases second with
    | dropLast => exact ⟨rfl, rfl, rfl⟩
    | fill keep => exact absurd drop keep
  | dropMore drop arrived _ ih =>
    cases second with
    | dropMore _ arrived' rest =>
      rw [arrived] at arrived'
      cases arrived'
      exact ih rest
    | fill keep => exact absurd drop keep
  | fill keep isJump patched agree arrived _ ih =>
    cases second with
    | dropLast drop => exact absurd drop keep
    | dropMore drop => exact absurd drop keep
    | fill _ _ patched' _ arrived' rest =>
      rw [patched] at patched'
      cases patched'
      rw [arrived] at arrived'
      cases arrived'
      obtain ⟨same, sameBuffer, sameLog⟩ := ih rest
      exact ⟨same, sameBuffer, by rw [sameLog]⟩

theorem Resolves.frame (resolved : Resolves ctx target merged chain b merged' b' log) :
    b' = { b with
      code := b'.code, alive := b'.alive, needsWide := b'.needsWide, fixed := b'.fixed
      locals := b'.locals, frames := b'.frames, lines := b'.lines } := by
  induction resolved with
  | done => rfl
  | dropLast => rfl
  | dropMore drop arrived _ ih =>
    rw [arrive_buffer arrived] at ih
    exact ih
  | fill keep isJump patched agree arrived _ ih =>
    rw [arrive_buffer arrived] at ih
    rcases patch_ok patched with ⟨_, rfl⟩ | ⟨_, _, rfl⟩
    · exact ih
    · exact ih

theorem landing_of_le {wide : Bool} (above : b.code.size ≤ target) :
    landing b wide target = b.code.size := if_pos above

theorem Resolves.alive_eq (resolved : Resolves ctx target merged chain b merged' b' log)
    (above : b.code.size ≤ target) : b'.alive = (b.alive || !chain.isEmpty) := by
  induction resolved with
  | done => simp
  | dropLast => simp
  | @dropMore _ _ _ site _ _ b _ _ _ drop arrived _ ih =>
    have here : (b.retract 3).code.size = landing b ctx.wide target - 3 := by
      rw [Buffer.size_retract, landing_of_le above]
    rw [arrive_buffer arrived] at ih
    rw [ih (by rw [Buffer.size_retract]; omega)]
    simp [here]
  | @fill _ _ _ site _ b b1 _ _ _ keep isJump patched agree arrived _ ih =>
    have size : b1.code.size = b.code.size := by
      rcases patch_ok patched with ⟨_, rfl⟩ | ⟨_, _, rfl⟩
      · exact Buffer.size_overwrite _ _
      · rfl
    rw [arrive_buffer arrived] at ih
    rw [ih (by rw [size]; exact above)]
    simp [landing_of_le above, size]

/-- The state at the current position after jumps have landed there, if any have. -/
def settled (ctx : Context) (merged : Option State) (b : Buffer) : Buffer :=
  match merged with
  | some state => { b.withState state with frameDue := ctx.settings.stackMaps }
  | none => b

@[simp] theorem core_settled (ctx : Context) (merged : Option State) (b : Buffer) :
    (settled ctx merged b).core = b.core := by
  cases merged <;> rfl

/-- A chain is resolved to a target, with the given offsets written. -/
def Lands (ctx : Context) (chain : Chain) (target : Nat) (b b' : Buffer)
    (log : List (Nat × Nat)) : Prop :=
  ∃ merged b1, Resolves ctx target none chain
    { b with unresolved := b.unresolved - chain.length } merged b1 log ∧ b' = settled ctx merged b1

theorem resolveTo_ok (run : resolveTo chain target ctx b = .ok () b') :
    ∃ log, Lands ctx chain target b b' log := by
  unfold resolveTo at run
  rcases ite_ok.mp run with ⟨some, run⟩ | ⟨none, run⟩
  · obtain ⟨_, _, counted, run⟩ := bind_ok.mp run
    cases modify_ok.mp counted
    obtain ⟨merged, b1, resolved, run⟩ := bind_ok.mp run
    obtain ⟨log, resolves⟩ := resolveSites_ok resolved
    refine ⟨log, merged, b1, resolves, ?_⟩
    cases merged with
    | none => exact (pure_ok.mp run).2.symm
    | some state =>
      simp only [bind_ok, read_ok, modify_ok] at run
      obtain ⟨_, _, ⟨rfl, rfl⟩, rfl⟩ := run
      rfl
  · have empty : chain = [] := by simpa using none
    subst empty
    cases (pure_ok.mp run).2
    exact ⟨[], Option.none, b, .done, rfl⟩

theorem Lands.unique (first : Lands ctx chain target b b1 log1)
    (second : Lands ctx chain target b b2 log2) : b1 = b2 ∧ log1 = log2 := by
  obtain ⟨merged1, c1, resolved1, rfl⟩ := first
  obtain ⟨merged2, c2, resolved2, rfl⟩ := second
  obtain ⟨rfl, rfl, rfl⟩ := resolved1.unique resolved2
  exact ⟨rfl, rfl⟩

def Flushes (ctx : Context) (b b' : Buffer) (log : List (Nat × Nat)) : Prop :=
  Lands ctx b.pending b.code.size { b with pending := [] } b' log

/-- Resolving the pending jumps only patches them, or drops a `goto` at the end that leads there. -/
theorem resolvePending_ok (run : resolvePending ctx b = .ok () b') :
    ∃ log, Flushes ctx b b' log := by
  unfold resolvePending takePending at run
  simp only [bind_ok, modifyGet_ok, length_ok] at run
  obtain ⟨_, _, taken, _, _, ⟨rfl, rfl⟩, run⟩ := run
  cases taken
  exact resolveTo_ok run

theorem Lands.frame (lands : Lands ctx chain target b b' log) :
    b'.pending = b.pending ∧ b'.unresolved = b.unresolved - chain.length ∧
      b'.catches = b.catches ∧ b'.pendingLine = b.pendingLine := by
  obtain ⟨merged, b1, resolved, rfl⟩ := lands
  rw [resolved.frame]
  cases merged <;> exact ⟨rfl, rfl, rfl, rfl⟩

theorem Flushes.pending_eq (flushes : Flushes ctx b b' log) : b'.pending = [] := flushes.frame.1

theorem Flushes.nil (nil : b.pending = []) : Flushes ctx b b [] := by
  obtain ⟨pool, code, state, alive, needsWide, fixed, pending, unresolved⟩ := b
  simp only at nil
  subst nil
  exact ⟨none, _, .done, rfl⟩

theorem Flushes.of_nil (flushes : Flushes ctx b b' log) (nil : b.pending = []) :
    b' = b ∧ log = [] := by
  obtain ⟨merged, b1, resolved, rfl⟩ := flushes
  obtain ⟨pool, code, state, alive, needsWide, fixed, pending, unresolved⟩ := b
  simp only at nil
  subst nil
  cases resolved
  exact ⟨rfl, rfl⟩

theorem pending_nil_of_dead (dead : b.isAlive = false) : b.pending = [] := by
  simp only [Buffer.isAlive, Bool.or_eq_false_iff, Bool.not_eq_false', List.isEmpty_iff] at dead
  exact dead.2

theorem Flushes.alive_eq (flushes : Flushes ctx b b' log) : b'.alive = b.isAlive := by
  obtain ⟨merged, b1, resolved, rfl⟩ := flushes
  have alive := resolved.alive_eq (le_rfl)
  cases merged <;> exact alive

def marked (ctx : Context) (b : Buffer) : Buffer :=
  match b.pendingLine with
  | some line =>
    if b.alive && ctx.settings.lineNumbers then
      { b with pendingLine := none, lines := addLine b.lines b.code.size line }
    else { b with pendingLine := none }
  | none => b

theorem markLine_ok {y : Unit} : markLine ctx b = .ok y b' ↔ marked ctx b = b' := by
  unfold markLine
  simp only [bind_ok, read_ok, modify_ok]
  constructor
  · rintro ⟨_, _, ⟨rfl, rfl⟩, rfl⟩
    rfl
  · rintro rfl
    exact ⟨ctx, b, ⟨rfl, rfl⟩, rfl⟩

theorem marked_cases (ctx : Context) (b : Buffer) :
    marked ctx b = b ∨ marked ctx b = { b with pendingLine := none } ∨
      ∃ line, b.alive = true ∧ marked ctx b =
        { b with pendingLine := none, lines := addLine b.lines b.code.size line } := by
  unfold marked
  split
  · rename_i line _
    by_cases recorded : (b.alive && ctx.settings.lineNumbers) = true
    · rw [if_pos recorded]
      exact .inr (.inr ⟨line, (Bool.and_eq_true_iff.mp recorded).1, rfl⟩)
    · rw [if_neg recorded]
      exact .inr (.inl rfl)
  · exact .inl rfl

theorem marked_pendingLine (ctx : Context) (b : Buffer) : (marked ctx b).pendingLine = none := by
  unfold marked
  split
  · split <;> rfl
  · assumption

theorem marked_of_none (none : b.pendingLine = none) : marked ctx b = b := by
  unfold marked
  rw [none]

theorem marked_eq (ctx : Context) (b : Buffer) : marked ctx b =
    { b with lines := (marked ctx b).lines, pendingLine := (marked ctx b).pendingLine } := by
  rcases marked_cases ctx b with same | same | ⟨line, _, same⟩ <;> rw [same]

@[simp] theorem core_marked (ctx : Context) (b : Buffer) : (marked ctx b).core = b.core := by
  rw [marked_eq]
  rfl

theorem position_ok (run : position ctx b = .ok pc b') :
    ∃ b1 log, Flushes ctx b b1 log ∧ pc = b1.code.size ∧
      b' = { marked ctx b1 with fixed := true } := by
  unfold position at run
  simp only [bind_ok, modify_ok, length_ok, markLine_ok] at run
  obtain ⟨_, b1, flushed, _, _, rfl, _, _, rfl, rfl, rfl⟩ := run
  obtain ⟨log, flushes⟩ := resolvePending_ok flushed
  refine ⟨b1, log, flushes, ?_, rfl⟩
  rw [marked_eq]

theorem entryPoint_ok (run : entryPoint ctx b = .ok pc b') :
    ∃ b1, position ctx b = .ok pc b1 ∧
      b' = { b1 with alive := true, frameDue := ctx.settings.stackMaps } := by
  unfold entryPoint at run
  simp only [bind_ok, read_ok, modify_ok, pure_ok] at run
  obtain ⟨_, b1, found, _, _, ⟨rfl, rfl⟩, _, _, rfl, rfl, rfl⟩ := run
  exact ⟨b1, found, rfl⟩

theorem entryPointWith_ok {state : State} {pushed : Option VType}
    (run : entryPointWith state pushed ctx b = .ok pc b') :
    ∃ b1, position ctx b = .ok pc b1 ∧ b' = { b1.withState ((pushed.map state.push).getD state) with
      alive := true, frameDue := ctx.settings.stackMaps } := by
  unfold entryPointWith at run
  simp only [bind_ok, read_ok, modify_ok, pure_ok] at run
  obtain ⟨_, b1, found, _, _, ⟨rfl, rfl⟩, _, _, rfl, rfl, rfl⟩ := run
  refine ⟨b1, found, ?_⟩
  cases pushed with
  | none => rfl
  | some type => rfl

theorem mergeChains_ok {merged : Chain} (run : mergeChains chain other ctx b = .ok merged b') :
    chain.merge other = .ok merged ∧ b' = b := by
  unfold mergeChains at run
  cases result : chain.merge other with
  | ok all =>
    simp only [result, pure_ok] at run
    exact ⟨congrArg _ run.1, run.2.symm⟩
  | error cause => simp only [result, bind_ok, fault_ok, and_false, exists_false] at run

theorem resolve_ok (run : resolve chain ctx b = .ok () b') :
    ∃ merged, chain.merge b.pending = .ok merged ∧ b' = { b with pending := merged } := by
  unfold resolve takePending at run
  simp only [bind_ok, modifyGet_ok, modify_ok] at run
  obtain ⟨_, _, taken, merged, _, found, rfl⟩ := run
  cases taken
  obtain ⟨same, rfl⟩ := mergeChains_ok found
  exact ⟨merged, same, rfl⟩

end Asm

def Chain.pcs (chain : Chain) : Multiset Nat := (chain.map (·.pc) : List Nat)

namespace Chain

@[simp] theorem pcs_nil : pcs [] = 0 := rfl

@[simp] theorem pcs_cons (site : JumpSite) (chain : Chain) :
    pcs (site :: chain) = site.pc ::ₘ pcs chain := rfl

@[simp] theorem card_pcs (chain : Chain) : Multiset.card chain.pcs = chain.length := by
  simp [pcs]

@[simp] theorem pcs_undefineFrom (chain : Chain) (register : UInt16) :
    (chain.undefineFrom register).pcs = chain.pcs := by
  simp [pcs, undefineFrom, Function.comp_def]

theorem merge_perm {merged : Chain} (run : chain.merge other = .ok merged) :
    merged.Perm (chain ++ other) := by
  unfold merge at run
  split at run
  · cases run
    exact .refl _
  · cases run
    rw [List.append_nil]
  · split at run <;> cases run
    exact List.merge_perm_append _

theorem pcs_merge {merged : Chain} (run : chain.merge other = .ok merged) :
    merged.pcs = chain.pcs + other.pcs :=
  calc merged.pcs = pcs (chain ++ other) := Multiset.coe_eq_coe.mpr ((merge_perm run).map (·.pc))
    _ = chain.pcs + other.pcs := by rw [pcs, List.map_append, ← Multiset.coe_add, pcs, pcs]

end Chain

end ClassForge
