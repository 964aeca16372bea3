import ClassForge.Proofs.Bodies
import ClassForge.Proofs.Merging

namespace ClassForge

variable {type : VType} {register : UInt16} {count : Nat}

namespace State

variable {state other rest joined : State}

def Neat (state : State) : Prop := state.stack.Neat

/-- The stack is in order, and there are not too many registers. -/
structure Bounded (state : State) : Prop where
  stack : state.Neat
  locals : state.locals.size ≤ maxLocalCount

theorem size_dropUpper (locals : Array LocalSlot) (register half : Nat) :
    (dropUpper locals register half).size = locals.size := by
  unfold dropUpper
  split
  · exact Array.size_setIfInBounds
  · rfl

theorem size_setLocal (state : State) (register : UInt16) (type : VType) :
    (state.setLocal register type).locals.size =
      max state.locals.size (register.toNat + type.width) := by
  have extended : (extendLocals state.locals (register.toNat + type.width)).size =
      max state.locals.size (register.toNat + type.width) := by
    rw [extendLocals, Array.size_append, Array.size_replicate]
    omega
  unfold setLocal
  dsimp only
  split <;> split <;> simp only [Array.size_setIfInBounds, size_dropUpper, extended]

theorem stack_force (state : State) (type : VType) :
    (state.force type).stack = state.stack ∨ (state.force type).stack = state.stack.setLast type := by
  unfold force
  split
  · split
    · exact .inr rfl
    · exact .inl rfl
  · exact .inl rfl

theorem locals_force (state : State) (type : VType) : (state.force type).locals = state.locals := by
  unfold force
  split
  · split <;> rfl
  · rfl

theorem depth_force (state : State) (type : VType) : (state.force type).depth = state.depth := by
  rcases stack_force state type with same | same
  · rw [depth, same]
    rfl
  · rw [depth, same]
    exact (SlotSeq.next_setLast type).1

theorem pop_ok (run : state.pop = .ok (type, rest)) :
    ∃ offset, state.stack.pop? = some (offset, type, rest.stack) ∧
      rest = { state with stack := rest.stack } := by
  unfold pop at run
  split at run
  · next found =>
    cases run
    exact ⟨_, found, rfl⟩
  · cases run

theorem Neat.force (type : VType) (neat : state.Neat) : (state.force type).Neat := by
  unfold Neat
  rcases stack_force state type with same | same
  · rw [same]
    exact neat
  · rw [same]
    exact neat.setLast type

theorem Bounded.undefineFrom (register : UInt16) (bounded : state.Bounded) :
    (state.undefineFrom register).Bounded := by
  refine ⟨bounded.stack, ?_⟩
  have := bounded.locals
  simp only [State.undefineFrom, Array.take_eq_extract, Array.size_extract]
  omega

theorem Neat.pop (neat : state.Neat) (popped : state.pop = .ok (type, rest)) :
    rest.Neat ∧ rest.depth ≤ state.depth := by
  obtain ⟨offset, found, _⟩ := pop_ok popped
  exact SlotSeq.Neat.pop neat found

theorem Neat.depth_popValues (neat : state.Neat) (popped : Asm.popValues count state = .ok rest) :
    rest.depth ≤ state.depth := by
  induction count generalizing state with
  | zero =>
    cases popped
    exact le_rfl
  | succ count ih =>
    unfold Asm.popValues at popped
    cases first : state.pop with
    | error cause =>
      rw [first] at popped
      cases popped
    | ok pair =>
      rw [first] at popped
      exact (ih (neat.pop first).1 popped).trans (neat.pop first).2

theorem Neat.join {graph : ClassGraph} (run : state.join graph other = .ok joined) : joined.Neat := by
  obtain ⟨_, types, _, rfl⟩ := join_ok.mp run
  exact (SlotSeq.packed_ofList types).neat VerificationType.width_pos

/-- What assembling does to states keeps the property. -/
class Stable (limited : outParam Prop) (P : State → Prop) : Prop extends Closed limited P where
  neat : ∀ {state}, P state → state.Neat
  empty : P empty
  assign : ∀ {state} {register : UInt16} {type : VType}, P state →
    (limited → register.toNat + type.width ≤ maxLocalCount) → P (state.setLocal register type)
  undefine : ∀ {state} (register), P state → P (state.undefine register)
  force : ∀ {state} (type), P state → P (state.force type)
  join : ∀ {graph state other joined}, P state → state.join graph other = .ok joined → P joined
  relock : ∀ {state} (locks), P state → P { state with locks }

instance : Stable False Neat where
  push type neat := SlotSeq.Neat.push neat type.width_pos
  pop neat popped := (neat.pop popped).1
  replace {_ source target} neat _ _ :=
    SlotSeq.Neat.map neat fun type => if type = source then target else type
  setLocal neat _ _ := neat
  neat := id
  empty := SlotSeq.neat_empty 0
  assign neat _ := neat
  undefine _ neat := neat
  force := Neat.force
  join _ := Neat.join
  relock _ neat := neat

theorem Bounded.setLocal (bounded : state.Bounded)
    (room : register.toNat + type.width ≤ maxLocalCount) :
    (state.setLocal register type).Bounded := by
  refine ⟨bounded.stack, ?_⟩
  have := bounded.locals
  rw [size_setLocal]
  omega

instance : Stable True Bounded where
  push type bounded := ⟨Closed.push type bounded.stack, bounded.locals⟩
  pop bounded popped := by
    obtain ⟨_, _, same⟩ := pop_ok popped
    refine ⟨(bounded.stack.pop popped).1, ?_⟩
    rw [same]
    exact bounded.locals
  replace bounded refers refers' := ⟨Closed.replace bounded.stack refers refers', by
    simpa [State.replace] using bounded.locals⟩
  setLocal bounded _ room := bounded.setLocal (room trivial)
  neat := Bounded.stack
  empty := ⟨SlotSeq.neat_empty 0, Nat.zero_le _⟩
  assign bounded room := bounded.setLocal (room trivial)
  undefine register bounded := ⟨bounded.stack, by simpa [State.undefine] using bounded.locals⟩
  force type bounded :=
    ⟨Neat.force type bounded.stack, (locals_force _ type).symm ▸ bounded.locals⟩
  join bounded run := by
    refine ⟨Neat.join run, ?_⟩
    obtain ⟨_, types, _, rfl⟩ := join_ok.mp run
    have := bounded.locals
    simp only [Array.size_zipWith]
    omega
  relock _ bounded := ⟨bounded.stack, bounded.locals⟩

theorem length_frameLocals_le (slots : List LocalSlot) : (frameLocals slots).length ≤ slots.length := by
  fun_induction frameLocals slots with
  | case1 => exact le_rfl
  | case2 type _ _ rest ih | case4 type rest _ ih | case5 slot rest _ ih =>
    simp only [List.length_cons]
    omega
  | case3 => exact le_rfl

theorem length_trimTop_le (types : List VType) : (trimTop types).length ≤ types.length := by
  induction types with
  | nil => exact le_rfl
  | cons type rest ih =>
    unfold trimTop
    split
    · exact Nat.zero_le _
    · simp only [List.length_cons]
      omega

theorem Bounded.frame (bounded : state.Bounded) :
    state.frame.locals.size ≤ maxLocalCount ∧ state.frame.stack.size ≤ state.depth := by
  constructor
  · rw [← SlotSeq.length_toList, State.frame, SlotSeq.toList_ofList]
    calc (trimTop (frameLocals state.locals.toList)).length
        ≤ (frameLocals state.locals.toList).length := length_trimTop_le _
      _ ≤ state.locals.toList.length := length_frameLocals_le _
      _ ≤ maxLocalCount := by simpa using bounded.locals
  · exact SlotSeq.Neat.size_le bounded.stack

end State

namespace Buffer

/-- What marks are taken of, with the types of the registers that are in use. -/
structure Gauge where
  state : State
  maxStack : Nat
  maxLocals : Nat
  pending : Chain
  types : Nat → Option VType
  frames : Array (Nat × VFrame)

def gauge (b : Buffer) : Gauge :=
  ⟨b.state, b.maxStack, b.maxLocals, b.pending, fun i => b.locals[i]?.join.map (·.type), b.frames⟩

namespace Gauge

variable {P : State → Prop} {ctx : Context}
variable {g g1 g' : Gauge} {state : State} {types : Nat → Option VType} {claimed : List Nat}

/-- The marks are not exceeded, and the states have a property. -/
structure Level (P : State → Prop) (ctx : Context) (g : Gauge) : Prop where
  state : P g.state
  pending : ∀ site ∈ g.pending, P site.state
  depth : g.state.depth ≤ g.maxStack
  room : ∀ i type, g.types i = some type → i + type.width ≤ g.maxLocals
  few : g.maxLocals ≤ maxLocalCount
  frames : ∀ row ∈ g.frames.toList, ctx.settings.stackMaps = true ∧
    ∃ state, P state ∧ state.depth ≤ g.maxStack ∧ row.2 = state.frame

/-- The marks rise no further than the stack and the given numbers of registers. -/
structure Notes (P : State → Prop) (ctx : Context) (claimed : List Nat) (g g' : Gauge) : Prop where
  level : g'.Level P ctx
  stack : g'.maxStack = max g.maxStack g'.state.depth
  locals : g'.maxLocals = claimed.foldr max g.maxLocals

/-- Only frames are dropped, or recorded for the current state. -/
structure Like (ctx : Context) (g g' : Gauge) : Prop where
  same : g' = { g with frames := g'.frames }
  frames : ∀ row ∈ g'.frames.toList,
    row ∈ g.frames.toList ∨ ctx.settings.stackMaps = true ∧ row.2 = g.state.frame

theorem Level.lower (level : g.Level P ctx) (fits : P state) (lower : state.depth ≤ g.state.depth) :
    Notes P ctx [] g { g with state } where
  level := ⟨fits, level.pending, lower.trans level.depth, level.room, level.few, level.frames⟩
  stack := (max_eq_left (lower.trans level.depth)).symm
  locals := rfl

theorem Level.notes (level : g.Level P ctx) : Notes P ctx [] g g := level.lower level.state le_rfl

theorem Level.rise (level : g.Level P ctx) (fits : P state) :
    Notes P ctx [] g { g with state, maxStack := max g.maxStack state.depth } where
  level := ⟨fits, level.pending, le_max_right _ _, level.room, level.few, fun row member => by
    obtain ⟨maps, state, fits, below, same⟩ := level.frames row member
    exact ⟨maps, state, fits, below.trans (le_max_left _ _), same⟩⟩
  stack := rfl
  locals := rfl

theorem Like.level (like : Like ctx g g') (level : g.Level P ctx) : g'.Level P ctx := by
  rw [like.same]
  refine ⟨level.state, level.pending, level.depth, level.room, level.few, fun row member => ?_⟩
  rcases like.frames row member with old | ⟨maps, new⟩
  · exact level.frames row old
  · exact ⟨maps, g.state, level.state, level.depth, new⟩

theorem Like.notes (like : Like ctx g g1) (notes : Notes P ctx claimed g1 g') :
    Notes P ctx claimed g g' := by
  rw [like.same] at notes
  exact ⟨notes.level, notes.stack, notes.locals⟩

theorem Like.trans (first : Like ctx g g1) (second : Like ctx g1 g') : Like ctx g g' where
  same := by
    rw [second.same, first.same]
  frames row member := by
    rcases second.frames row member with old | ⟨maps, new⟩
    · exact first.frames row old
    · rw [first.same] at new
      exact .inr ⟨maps, new⟩

theorem Like.of_eq (same : g' = g) : Like ctx g g' := by
  subst same
  exact ⟨rfl, fun _ => .inl⟩

theorem Notes.forget (notes : Notes P ctx claimed g g') (fits : P state)
    (same : state.stack = g'.state.stack)
    (fewer : ∀ i type, types i = some type → g'.types i = some type) :
    Notes P ctx claimed g { g' with state, types } where
  level := by
    have depth : state.depth = g'.state.depth := congrArg SlotSeq.next same
    exact ⟨fits, notes.level.pending, depth.le.trans notes.level.depth,
      fun i type known => notes.level.room i type (fewer i type known), notes.level.few,
      notes.level.frames⟩
  stack := notes.stack.trans (congrArg (fun s : SlotSeq VType => max g.maxStack s.next) same.symm)
  locals := notes.locals

end Gauge

theorem like_retract (ctx : Context) (b : Buffer) (count : Nat) :
    b.gauge.Like ctx (b.retract count).gauge where
  same := by
    have types (i : Nat) : (b.retract count).locals[i]?.join.map (·.type) =
        b.locals[i]?.join.map (·.type) := by
      simp only [retract, Array.getElem?_map]
      rcases b.locals[i]? with _ | _ | var <;> rfl
    simp only [gauge, types]
    rfl
  frames _ member := .inl (Rows.mem_of_mem_upTo member)

end Buffer

open Buffer (Gauge)
open Buffer.Gauge (Notes Level Like)

namespace Asm

variable {P : State → Prop}
variable {ctx : Context} {b b' c : Buffer} {merged merged' : Option State} {chain : Chain}
  {target pc count : Nat} {log : List (Nat × Nat)} {state : State} {register : UInt16}

theorem gauge_marked (ctx : Context) (b : Buffer) : (marked ctx b).gauge = b.gauge := by
  rw [marked_eq]
  rfl

theorem like_begun (ctx : Context) (b : Buffer) : b.gauge.Like ctx (begun ctx b).gauge := by
  have line : b.gauge.Like ctx (marked ctx b).gauge := .of_eq (gauge_marked ctx b)
  refine line.trans ?_
  unfold begun
  split
  · by_cases maps : ctx.settings.stackMaps = true
    · rw [framed_eq _ maps]
      refine ⟨rfl, fun row member => ?_⟩
      rw [Buffer.gauge, Array.toList_push] at member
      rcases List.mem_append.mp member with old | new
      · exact .inl (Rows.mem_of_mem_without old)
      · cases List.mem_singleton.mp new
        exact .inr ⟨maps, rfl⟩
    · rw [framed, if_neg maps]
      exact .of_eq rfl
  · exact .of_eq rfl

theorem getElem?_of_getD {locals : Array (Option LocalVar)} {i : Nat} {var : LocalVar}
    (known : locals.getD i none = some var) : locals[i]? = some (some var) := by
  rw [Array.getD_eq_getD_getElem?] at known
  grind

theorem gauge_assigned (register : UInt16) (b : Buffer) :
    (assigned register b).gauge = { b.gauge with state := (assigned register b).state } ∧
      (assigned register b).state.stack = b.state.stack := by
  unfold assigned
  split
  · next var known =>
    have found := getElem?_of_getD known
    refine ⟨?_, rfl⟩
    simp only [Buffer.gauge, Buffer.Gauge.mk.injEq, true_and, and_true]
    funext i
    rw [Array.getElem?_setIfInBounds]
    grind
  · exact ⟨rfl, rfl⟩

theorem Resolves.like (resolved : Resolves ctx target merged chain b merged' b' log) :
    b.gauge.Like ctx b'.gauge := by
  induction resolved with
  | done => exact .of_eq rfl
  | @dropLast _ _ b => exact b.like_retract ctx 3
  | @dropMore _ _ _ _ _ _ b _ _ _ _ arrived _ ih =>
    rw [arrive_buffer arrived] at ih
    exact (b.like_retract ctx 3).trans ih
  | fill _ _ patched _ arrived _ ih =>
    rw [arrive_buffer arrived] at ih
    rcases patch_ok patched with ⟨_, rfl⟩ | ⟨_, _, rfl⟩ <;> exact ih

theorem mem_of_merge {other merged : Chain} (run : chain.merge other = .ok merged)
    {Q : JumpSite → Prop} (first : ∀ site ∈ chain, Q site) (second : ∀ site ∈ other, Q site) :
    ∀ site ∈ merged, Q site := by
  intro site member
  rcases List.mem_append.mp ((Chain.merge_perm run).mem_iff.mp member) with old | new
  · exact first site old
  · exact second site new

/-- The buffer in which the pending jumps have been resolved. -/
def flushed (ctx : Context) (b : Buffer) : List Buffer :=
  match resolvePending ctx b with
  | .ok _ b' => [b']
  | .error _ _ => []

theorem flushed_of_bind {α : Type} {f : Unit → Asm α} {answer : α}
    (run : (resolvePending >>= f) ctx b = .ok answer b') :
    ∃ c log, flushed ctx b = [c] ∧ Flushes ctx b c log := by
  obtain ⟨_, c, flush, _⟩ := bind_ok.mp run
  obtain ⟨log, flushes⟩ := resolvePending_ok flush
  exact ⟨c, log, by rw [flushed, flush], flushes⟩

theorem flushed_of_begin {α : Type} {f : Bool → Asm α} {answer : α}
    (run : (beginInstruction >>= f) ctx b = .ok answer b') :
    ∃ c log, flushed ctx b = [c] ∧ Flushes ctx b c log := by
  obtain ⟨_, _, began, _⟩ := bind_ok.mp run
  exact flushed_of_bind began

theorem flushed_of_nil (nil : b.pending = []) : flushed ctx b = [b] := by
  obtain ⟨pool, code, state, alive, needsWide, fixed, pending⟩ := b
  cases nil
  rfl

/-- Scopes end. The depth changes at most once, when the pending jumps are resolved. -/
structure Ends (P : State → Prop) (ctx : Context) (b b' : Buffer) : Prop where
  notes : Notes P ctx [] b.gauge b'.gauge
  settled : b.pending = [] → b'.pending = [] ∧ b'.state.depth = b.state.depth
  waits : b'.pending = [] ∨ b'.state.depth = b.state.depth ∧ b'.maxStack = b.maxStack

theorem Ends.trans (first : Ends P ctx b c) (second : Ends P ctx c b') : Ends P ctx b b' where
  notes := by
    have before : c.maxStack = max b.maxStack c.state.depth := first.notes.stack
    have after : b'.maxStack = max c.maxStack b'.state.depth := second.notes.stack
    refine ⟨second.notes.level, ?_, second.notes.locals.trans first.notes.locals⟩
    change b'.maxStack = max b.maxStack b'.state.depth
    rcases first.waits with nil | ⟨_, same⟩
    · have := (second.settled nil).2
      omega
    · omega
  settled nil := by
    obtain ⟨nil, same⟩ := first.settled nil
    obtain ⟨nil, same'⟩ := second.settled nil
    exact ⟨nil, same'.trans same⟩
  waits := by
    rcases first.waits with nil | ⟨depth, mark⟩
    · exact .inl (second.settled nil).1
    · exact second.waits.imp_right fun ⟨depth', mark'⟩ => ⟨depth'.trans depth, mark'.trans mark⟩

section

variable {limited : Prop} [State.Stable limited P]

include limited

theorem assigned_notes (level : b.gauge.Level P ctx) (register : UInt16) :
    Notes P ctx [] b.gauge (assigned register b).gauge := by
  obtain ⟨same, stack⟩ := gauge_assigned register b
  rw [same]
  refine level.notes.forget ?_ stack fun _ _ => id
  unfold assigned
  split
  · next var known =>
    have room := level.room register.toNat var.type (by
      simp only [Buffer.gauge, getElem?_of_getD known]
      rfl)
    exact State.Stable.assign level.state fun _ => room.trans level.few
  · exact level.state

theorem Resolves.fits (resolved : Resolves ctx target merged chain b merged' b' log)
    (fits : ∀ site ∈ chain, P site.state) (before : ∀ state ∈ merged, P state) :
    ∀ state ∈ merged', P state := by
  have arrives {site merged merged' target} {b b' : Buffer} (fits : P site.state)
      (before : ∀ state ∈ merged, P state)
      (run : arrive site target merged ctx b = .ok merged' b') : ∀ state ∈ merged', P state := by
    rcases arrive_ok run with ⟨_, rfl, _⟩ | ⟨_, _, ⟨joined, met, rfl⟩, _⟩ | ⟨_, _, rfl, _⟩
    · exact before
    · rintro _ ⟨⟩
      exact State.Stable.join fits met
    · rintro _ ⟨⟩
      exact fits
  induction resolved with
  | done | dropLast => exact before
  | dropMore _ arrived _ ih | fill _ _ _ _ arrived _ ih =>
    obtain ⟨here, fits⟩ := List.forall_mem_cons.mp fits
    exact ih fits (arrives here before arrived)

section

variable (level : b.gauge.Level P ctx)

include level

theorem Lands.notes (lands : Lands ctx chain target b b' log)
    (fits : ∀ site ∈ chain, P site.state) :
    Notes P ctx [] b.gauge b'.gauge ∧ b'.gauge.types = b.gauge.types := by
  obtain ⟨merged, c, resolved, rfl⟩ := lands
  have like : b.gauge.Like ctx c.gauge := resolved.like
  have after := like.level level
  have types : c.gauge.types = b.gauge.types := by rw [like.same]
  cases merged with
  | none => exact ⟨like.notes after.notes, types⟩
  | some state => exact ⟨like.notes (after.rise (resolved.fits fits nofun state rfl)), types⟩

theorem Flushes.notes (flushes : Flushes ctx b b' log) :
    Notes P ctx [] b.gauge b'.gauge ∧ b'.gauge.types = b.gauge.types := by
  have cleared : Level P ctx { b.gauge with pending := [] } := ⟨level.state, nofun, level.depth,
    level.room, level.few, level.frames⟩
  obtain ⟨notes, types⟩ := Lands.notes (b := { b with pending := [] }) cleared flushes level.pending
  exact ⟨⟨notes.level, notes.stack, notes.locals⟩, types⟩

theorem position_notes (run : position ctx b = .ok pc b') :
    Notes P ctx [] b.gauge b'.gauge ∧ b'.pending = [] := by
  obtain ⟨c, log, flushes, _, rfl⟩ := position_ok run
  have same : Buffer.gauge { marked ctx c with fixed := true } = c.gauge := gauge_marked ctx c
  refine ⟨same ▸ (flushes.notes level).1, ?_⟩
  exact (congrArg Gauge.pending same).trans flushes.pending_eq

theorem emit_notes {instruction : Instruction} (roomy : limited → instruction.Roomy)
    (run : emit instruction ctx b = .ok () b') (flushes : Flushes ctx b c log) :
    Notes P ctx [] c.gauge b'.gauge := by
  have after := (flushes.notes level).1.level
  obtain ⟨c', _, flushes', rest⟩ := emit_ok run
  obtain ⟨rfl, -⟩ := flushes.unique flushes'
  rcases rest with ⟨_, rfl⟩ | ⟨_, bytes, pool, state, _, applied, rfl⟩
  · exact after.notes
  have ready := (like_begun ctx c).level after
  have risen := (like_begun ctx c).notes
    (ready.rise (State.Closed.apply ready.state roomy applied))
  cases instruction with
  | store kind register =>
    obtain ⟨same, stack⟩ := gauge_assigned register
      (({ (begun ctx c).append bytes with pool }).withState state)
    have noted := assigned_notes (b := ({ (begun ctx c).append bytes with pool }).withState state)
      risen.level register
    change Notes P ctx [] c.gauge (assigned register _).gauge
    rw [same] at noted ⊢
    exact risen.forget noted.level.state stack fun _ _ => id
  | _ =>
    simp only [concluded]
    split <;> exact risen

end

theorem popped_notes {pops : Nat} (level : c.gauge.Level P ctx)
    (popped : popValues pops (begun ctx c).state = .ok state) :
    Notes P ctx [] c.gauge { (begun ctx c).gauge with state } := by
  have ready := (like_begun ctx c).level level
  exact (like_begun ctx c).notes (ready.lower (State.Closed.popValues ready.state popped)
    ((State.Stable.neat ready.state).depth_popValues popped))

section

variable (level : b.gauge.Level P ctx)

include level

theorem emitJump_notes {opcode : UInt8} {pops : Nat} (run : emitJump opcode pops ctx b = .ok pc b')
    (flushes : Flushes ctx b c log) : Notes P ctx [] c.gauge b'.gauge := by
  have after := (flushes.notes level).1.level
  obtain ⟨c', _, flushes', rest⟩ := emitJump_ok run
  obtain ⟨rfl, -⟩ := flushes.unique flushes'
  rcases rest with ⟨_, rfl⟩ | ⟨_, bytes, back, state, _, popped, rfl, _⟩
  · exact after.notes
  · rw [jumped_eq]
    exact popped_notes after popped

theorem placeSwitch_notes {table : Bool} {operands : List Int32} {answer : Option SwitchPlace}
    (run : placeSwitch table operands ctx b = .ok answer b') (flushes : Flushes ctx b c log) :
    Notes P ctx [] c.gauge b'.gauge := by
  have after := (flushes.notes level).1.level
  obtain ⟨c', _, flushes', rest⟩ := placeSwitch_ok run
  obtain ⟨rfl, -⟩ := flushes.unique flushes'
  rcases rest with ⟨_, rfl, _⟩ | ⟨_, _, state, popped, rfl⟩
  · exact after.notes
  · exact popped_notes after popped

theorem endScope_ends (run : endScope register ctx b = .ok () b') : Ends P ctx b b' := by
  have fewer (i : Nat) (type : VType)
      (known : (b.locals.setIfInBounds register.toNat none)[i]?.join.map (·.type) = some type) :
      b.gauge.types i = some type := by
    rw [Array.getElem?_setIfInBounds] at known
    simp only [Buffer.gauge]
    grind
  have cleared : Notes P ctx [] b.gauge
      (Buffer.gauge { b with locals := b.locals.setIfInBounds register.toNat none }) :=
    level.notes.forget level.state rfl fewer
  obtain ⟨c, rfl | ⟨pc, d, ranges, asked, rfl⟩, rfl⟩ := endScope_eq run
  · exact ⟨cleared.forget (State.Stable.undefine register level.state) rfl fun _ _ => id,
      fun nil => ⟨nil, rfl⟩, .inr ⟨rfl, rfl⟩⟩
  · obtain ⟨notes, nil⟩ := position_notes cleared.level asked
    have notes : Notes P ctx [] b.gauge d.gauge := ⟨notes.level, notes.stack, notes.locals⟩
    refine ⟨notes.forget (State.Stable.undefine register notes.level.state) rfl fun _ _ => id,
      fun none => ⟨nil, ?_⟩, .inl nil⟩
    obtain ⟨c, log, flushes, _, rfl⟩ := position_ok asked
    obtain ⟨rfl, _⟩ := flushes.of_nil none
    exact congrArg (·.state.depth) (gauge_marked ctx _)

theorem endScopesFrom_ends {first : Nat} (run : endScopesFrom first count ctx b = .ok () b') :
    Ends P ctx b b' := by
  induction count generalizing first b with
  | zero =>
    cases (pure_ok.mp run).2
    exact ⟨level.notes, fun nil => ⟨nil, rfl⟩, .inr ⟨rfl, rfl⟩⟩
  | succ count ih =>
    obtain ⟨_, _, head, tail⟩ := bind_ok.mp run
    have ends := endScope_ends level head
    exact ends.trans (ih ends.notes.level tail)

theorem endScopes_notes {first : UInt16} (run : endScopes first ctx b = .ok () b') :
    Notes P ctx [] b.gauge b'.gauge := by
  unfold endScopes at run
  simp only [bind_ok, get_ok, modify_ok] at run
  obtain ⟨_, _, ⟨rfl, rfl⟩, _, _, rfl, run⟩ := run
  exact (endScopesFrom_ends (b := { b with nextRegister := first.toNat }) level run).notes

theorem newLocal_notes {type : VType} {debug : Option LocalDebug}
    (run : newLocal type debug ctx b = .ok register b') :
    Notes P ctx [b'.nextRegister] b.gauge b'.gauge := by
  obtain ⟨fits, _, rfl⟩ := newLocal_eq run
  refine ⟨⟨State.Stable.undefine _ level.state, level.pending, level.depth, fun i held known => ?_,
    max_le level.few fits, level.frames⟩, (max_eq_left level.depth).symm, max_comm _ _⟩
  have old := level.room i held
  simp only [Buffer.gauge, Array.getElem?_setIfInBounds] at known old ⊢
  grind

theorem note_notes {note : Note} (run : note.perform ctx b = .ok () b') :
    Notes P ctx [] b.gauge b'.gauge := by
  cases note with
  | force type =>
    cases modify_ok.mp run
    exact level.lower (State.Stable.force type level.state) (State.depth_force b.state type).le
  | lock register =>
    cases modify_ok.mp run
    exact level.lower (State.Stable.relock (register :: b.state.locks) level.state) le_rfl
  | unlock register =>
    obtain ⟨_, _, measured, run⟩ := bind_ok.mp run
    obtain ⟨_, rfl⟩ := length_ok.mp measured
    obtain ⟨state, unlocked, rfl⟩ := changeState_ok.mp run
    have same : state = { b.state with locks := state.locks } := by
      unfold State.unlock at unlocked
      grind
    rw [same]
    exact level.lower (State.Stable.relock state.locks level.state) le_rfl
  | beginStatement line =>
    rcases ite_ok.mp run with ⟨_, run⟩ | ⟨_, run⟩
    · cases modify_ok.mp run
      exact level.notes
    · cases (pure_ok.mp run).2
      exact level.notes
  | markLine =>
    cases markLine_ok.mp run
    rw [gauge_marked]
    exact level.notes
  | _ =>
    cases modify_ok.mp run
    exact level.notes

end

end

end Asm

namespace Call

variable {P : State → Prop}
variable {α : Type} {call : Call α} {answer : α} {ctx : Context} {b b' : Buffer}

/-- The states that the call brings along have the property, and a store has room if it needs to. -/
def InOrder (P : State → Prop) (limited : Prop) : {α : Type} → Call α → Prop
  | _, .emit instruction => limited → instruction.Roomy
  | _, .entryPointWith state _ => P state
  | _, call => ∀ site ∈ call.sites, P site.state

/-- Calls that go on from a buffer in which the pending jumps have been resolved. -/
def pauses (ctx : Context) (b : Buffer) : {α : Type} → Call α → List Buffer
  | _, .emit _ | _, .jsr | _, .entryPointWith _ _ | _, .switch _ _ => Asm.flushed ctx b
  | _, .branch jump => if jump = .goto ∨ jump = .never then [] else Asm.flushed ctx b
  | _, _ => []

def claims (b' : Buffer) : {α : Type} → Call α → List Nat
  | _, .newLocal _ _ => [b'.nextRegister]
  | _, _ => []

/-- The marks are taken note of between calls and where a call pauses. -/
def Gauges (P : State → Prop) (ctx : Context) (b : Buffer) (call : Call α) (b' : Buffer) : Prop :=
  (call.pauses ctx b = [] ∧ Notes P ctx (call.claims b') b.gauge b'.gauge) ∨
  ∃ c, call.pauses ctx b = [c] ∧ Notes P ctx [] b.gauge c.gauge ∧
    Notes P ctx (call.claims b') c.gauge b'.gauge

theorem Gauges.level (gauges : call.Gauges P ctx b b') : b'.gauge.Level P ctx := by
  rcases gauges with ⟨_, notes⟩ | ⟨c, _, _, notes⟩ <;> exact notes.level

variable {limited : Prop} [State.Stable limited P]

include limited in
theorem gauges_branch {jump : Jump} {chain : Chain} (level : b.gauge.Level P ctx)
    (run : Asm.branch jump ctx b = .ok chain b') : Gauges P ctx b (.branch jump) b' := by
  by_cases easy : jump = .goto ∨ jump = .never
  · -- No jump is pending any more, so there is nothing to resolve.
    have free : Notes P ctx [] b.gauge (Asm.relieved jump b).gauge := by
      unfold Asm.relieved
      split
      · exact ⟨⟨level.state, nofun, level.depth, level.room, level.few, level.frames⟩,
          level.notes.stack, rfl⟩
      · exact level.notes
    refine .inl ⟨if_pos easy, ?_⟩
    rcases Asm.branch_ok run with ⟨rfl, _⟩ | ⟨opcode, pc, d, known, _, jumped, _, rfl⟩
    · exact free
    · have isGoto : jump = .goto := easy.resolve_right (by rintro rfl; cases known)
      have nil : (Asm.relieved jump b).pending = [] := by rw [Asm.relieved, if_pos isGoto]
      have noted := Asm.emitJump_notes free.level jumped (Asm.Flushes.nil nil)
      rw [Asm.relieved, if_pos isGoto] at noted
      exact ⟨noted.level, noted.stack, noted.locals⟩
  · have same : Asm.relieved jump b = b := if_neg (not_or.mp easy).1
    rcases Asm.branch_ok run with ⟨rfl, _, silent⟩ | ⟨opcode, pc, d, _, _, jumped, _, rfl⟩
    · rw [same] at silent ⊢
      have nil := Asm.pending_nil_of_dead (silent.resolve_left (not_or.mp easy).2)
      exact .inr ⟨b, (if_neg easy).trans (Asm.flushed_of_nil nil), level.notes, level.notes⟩
    · rw [same] at jumped
      obtain ⟨c, log, paused, flushes⟩ := Asm.flushed_of_begin jumped
      have noted := Asm.emitJump_notes level jumped flushes
      exact .inr ⟨c, (if_neg easy).trans paused, (flushes.notes level).1, noted⟩

/-- A call raises the marks as far as the states that it passes through need. -/
theorem gauges_of_perform (level : b.gauge.Level P ctx) (fits : call.InOrder P limited)
    (run : call.perform ctx b = .ok answer b') : call.Gauges P ctx b b' := by
  cases call with
  | emit instruction =>
    obtain ⟨c, log, paused, flushes⟩ := Asm.flushed_of_begin run
    exact .inr ⟨c, paused, (flushes.notes level).1, Asm.emit_notes level fits run flushes⟩
  | branch jump => exact gauges_branch level run
  | jsr =>
    rcases Asm.jsr_ok run with ⟨dead, rfl, _⟩ | ⟨pc, _, jumped, _⟩
    · exact .inr ⟨_, Asm.flushed_of_nil (Asm.pending_nil_of_dead dead), level.notes, level.notes⟩
    · obtain ⟨c, log, paused, flushes⟩ := Asm.flushed_of_begin jumped
      exact .inr ⟨c, paused, (flushes.notes level).1, Asm.emitJump_notes level jumped flushes⟩
  | merge chain other =>
    obtain ⟨_, rfl⟩ := Asm.mergeChains_ok run
    exact .inl ⟨rfl, level.notes⟩
  | resolve chain =>
    obtain ⟨merged, found, rfl⟩ := Asm.resolve_ok run
    exact .inl ⟨rfl, ⟨level.state, Asm.mem_of_merge found fits level.pending, level.depth, level.room,
      level.few, level.frames⟩, level.notes.stack, rfl⟩
  | resolvePending =>
    obtain ⟨log, flushes⟩ := Asm.resolvePending_ok run
    exact .inl ⟨rfl, (flushes.notes level).1⟩
  | resolveTo chain target =>
    obtain ⟨log, lands⟩ := Asm.resolveTo_ok run
    exact .inl ⟨rfl, (lands.notes level fits).1⟩
  | position => exact .inl ⟨rfl, (Asm.position_notes level run).1⟩
  | entryPoint =>
    obtain ⟨c, found, rfl⟩ := Asm.entryPoint_ok run
    exact .inl ⟨rfl, (Asm.position_notes level found).1⟩
  | entryPointWith state pushed =>
    obtain ⟨d, found, rfl⟩ := Asm.entryPointWith_ok run
    obtain ⟨c, log, paused, flushes⟩ := Asm.flushed_of_bind found
    obtain ⟨c', _, flushes', _, rfl⟩ := Asm.position_ok found
    obtain ⟨rfl, -⟩ := flushes.unique flushes'
    have noted := (flushes.notes level).1
    refine .inr ⟨c, paused, noted, ?_⟩
    have after := noted.level
    rw [← Asm.gauge_marked ctx c] at after ⊢
    refine after.rise ?_
    cases pushed with
    | none => exact fits
    | some type => exact State.Closed.push type fits
  | newLocal type debug => exact .inl ⟨rfl, Asm.newLocal_notes level run⟩
  | setDefined register =>
    cases Asm.setDefined_ok.mp run
    exact .inl ⟨rfl, Asm.assigned_notes level register⟩
  | endScopes first => exact .inl ⟨rfl, Asm.endScopes_notes level run⟩
  | note change => exact .inl ⟨rfl, Asm.note_notes level run⟩
  | switch table operands =>
    obtain ⟨_, _, emitted, _⟩ := Asm.bind_ok.mp run
    obtain ⟨c, log, paused, flushes⟩ := Asm.flushed_of_begin emitted
    exact .inr ⟨c, paused, (flushes.notes level).1, Asm.placeSwitch_notes level run flushes⟩
  | putWord pc value =>
    cases Asm.modify_ok.mp run
    exact .inl ⟨rfl, level.notes⟩
  | discard chain =>
    cases (Asm.pure_ok.mp run).2
    exact .inl ⟨rfl, level.notes⟩

theorem answers_fit (level : b.gauge.Level P ctx) (fits : call.InOrder P limited)
    (run : call.perform ctx b = .ok answer b') : ∀ site ∈ call.answers answer, P site.state := by
  have after := (gauges_of_perform level fits run).level
  cases call with
  | branch jump =>
    have taken : ∀ site ∈ Asm.absorbed jump b, P site.state := by
      unfold Asm.absorbed
      split
      · exact level.pending
      · exact nofun
    rcases Asm.branch_ok run with ⟨_, rfl, _⟩ | ⟨opcode, pc, c, _, _, _, merged, rfl⟩
    · exact taken
    · refine Asm.mem_of_merge merged (fun site member => ?_) taken
      cases List.mem_singleton.mp member
      exact after.state
  | jsr =>
    rcases Asm.jsr_ok run with ⟨_, _, rfl⟩ | ⟨pc, _, _, rfl⟩
    · exact nofun
    · intro site member
      cases List.mem_singleton.mp member
      exact State.Closed.push _ after.state
  | merge chain other =>
    obtain ⟨merged, _⟩ := Asm.mergeChains_ok run
    exact Asm.mem_of_merge merged (fun site member => fits site (Multiset.mem_add.mpr (.inl member)))
      fun site member => fits site (Multiset.mem_add.mpr (.inr member))
  | _ => exact fun _ member => absurd member (Multiset.notMem_zero _)

end Call

/-- States and frames stay within their bounds. -/
def Discipline.bounded : Discipline where
  holds ctx b _ _ := b.gauge.Level State.Bounded ctx
  fits := State.Bounded
  rooms := True
  tame _ := True
  exact := False

theorem Call.Ready.inOrder {α : Type} {call : Call α} {marks : Landmarks} {b : Buffer}
    (ready : call.Ready .bounded marks b) : call.InOrder State.Bounded True := by
  cases call with
  | merge chain other =>
    intro site member
    exact (Multiset.mem_add.mp member).elim (ready.1 site) (ready.2 site)
  | resolveTo chain target => exact ready.1
  | emit _ | resolve _ | entryPointWith _ _ => exact ready
  | discard chain => exact ready.elim
  | _ => exact fun _ member => absurd member (Multiset.notMem_zero _)

instance : Discipline.bounded.Lawful where
  perform call ctx b b' answer rest marks ready complete holds run := by
    have given := call.answers_fit holds ready.inOrder run
    refine ⟨call.answers answer, ?_, (call.gauges_of_perform holds ready.inOrder run).level⟩
    cases call with
    | branch jump | merge chain other => exact ⟨rfl, given⟩
    | jsr => exact ⟨⟨rfl, given⟩, False.elim⟩
    | position | entryPoint | entryPointWith state pushed => exact ⟨rfl, False.elim⟩
    | newLocal type debug => exact ⟨rfl, Asm.newLocal_room run⟩
    | _ => rfl
  fails _ _ _ _ _ _ _ _ _ _ := trivial
  forget _ _ holds := holds
  looks holds := holds.state
  inside exact := exact.elim
  undefines _ _ holds := holds
  undefined register fits := fits.undefineFrom register
  loses _ _ _ _ _ _ holds := holds
  plain _ := trivial
  slack _ _ := trivial
  leftovers _ _ := trivial

theorem Buffer.level_empty {limited : Prop} {P : State → Prop} [State.Stable limited P]
    (ctx : Context) (pool : Pool) : (empty pool).gauge.Level P ctx where
  state := State.Stable.empty
  pending := nofun
  depth := le_rfl
  room i type known := by simp [gauge, empty] at known
  few := Nat.zero_le _
  frames := nofun

theorem Lowering.bounded_genMethod {mc : MethodContext} {ctx : Context} {method : MethodDecl}
    {body : Stmt} {pool : Pool} {y : Unit} {σ : MethodState} {b : Buffer}
    (run : genMethod method body mc {} ctx (.empty pool) = .ok (y, σ) b) :
    ∀ row ∈ b.frames.toList, ctx.settings.stackMaps = true ∧
      row.2.locals.size ≤ maxLocalCount ∧ row.2.stack.size ≤ b.maxStack := by
  have roomy : MethodState.Roomy {} := by
    intro id code register found
    simp at found
  have whole : SpendsAt .bounded ctx (.empty pool) ⟨[], []⟩ (Orderly .bounded [] [])
      (Orderly .bounded [] []) 0 (genMethod method body) :=
    spendsAt_genMethod method body fun exact => exact.elim
  have start : Discipline.bounded.holds ctx (.empty pool) (0 + 0) ⟨[], []⟩ :=
    Buffer.level_empty ctx pool
  obtain ⟨_, _, level⟩ := (whole mc {} (fun _ => roomy) .nil).ok run start
  intro row member
  obtain ⟨maps, state, bounded, below, same⟩ := level.frames row member
  rw [same]
  exact ⟨maps, bounded.frame.1, bounded.frame.2.trans below⟩

end ClassForge
