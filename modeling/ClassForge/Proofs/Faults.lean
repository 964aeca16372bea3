import ClassForge.Proofs.Accounting
import ClassForge.Proofs.Effects

namespace ClassForge

variable {cause : Fault} {c : Prop} {state : State} {pc count : Nat} {instruction : Instruction}
  {s : Session} {log : List (Nat × Nat)} {ctx : Context}

namespace State

variable {graph : ClassGraph}

instance : Closed False fun _ => True where
  push _ _ := trivial
  pop _ _ := trivial
  replace _ _ _ := trivial
  setLocal _ _ _ := trivial

theorem aboutState_of_apply {thisClass : BinaryName}
    (failed : state.apply thisClass pc instruction = .error cause) : cause.AboutState := by
  unfold apply at failed
  split at failed
  · cases failed
  · cases failed
    exact (Effect.keeps_effect (P := fun _ => True) thisClass pc False.elim).fails ‹_›

theorem aboutState_of_popValues (failed : Asm.popValues count state = .error cause) :
    cause.AboutState := by
  induction count generalizing state with
  | zero => cases failed
  | succ count ih =>
    unfold Asm.popValues at failed
    cases popped : state.pop with
    | error early =>
      rw [popped] at failed
      cases failed
      exact (Effect.keeps_pop (P := fun _ => True)).fails popped
    | ok pair =>
      rw [popped] at failed
      exact ih failed

theorem aboutState_of_joinTypes {a b : VType} (failed : joinTypes graph a b = .error cause) :
    cause.AboutState := by
  unfold joinTypes at failed
  split at failed
  · cases failed
  · split at failed <;> cases failed
    trivial

theorem aboutState_of_joinStacks {joined : SlotSeq VType} {types others : List VType}
    (failed : joinStacks graph joined types others = .error cause) : cause.AboutState := by
  induction types generalizing joined others with
  | nil => cases failed
  | cons a as ih =>
    cases others with
    | nil => cases failed
    | cons b bs =>
      unfold joinStacks at failed
      cases met : joinTypes graph a b with
      | error early =>
        rw [met] at failed
        cases failed
        exact aboutState_of_joinTypes met
      | ok type =>
        rw [met] at failed
        exact ih failed

theorem aboutState_of_join {other : State} (failed : state.join graph other = .error cause) :
    cause.AboutState := by
  unfold join at failed
  split at failed
  · cases failed
    trivial
  · cases met : joinStacks graph (.empty 0) state.stack.toList other.stack.toList with
    | error early =>
      rw [met] at failed
      cases failed
      exact aboutState_of_joinStacks met
    | ok stack =>
      rw [met] at failed
      cases failed

end State

def Error.IsTame : Error → Prop
  | .machine _ cause => cause.AboutState
  | _ => True

namespace Asm

variable {target : Nat} {chain : Chain}

def TameAt {α : Type} (ctx : Context) (b : Buffer) (action : Asm α) : Prop :=
  ∀ e b', action ctx b = .error e b' → e.IsTame

variable {α β : Type} {ctx : Context} {b : Buffer}

theorem TameAt.bind {x : Asm α} {f : α → Asm β} (first : TameAt ctx b x)
    (rest : ∀ a b', x ctx b = .ok a b' → TameAt ctx b' (f a)) : TameAt ctx b (x >>= f) := by
  intro e b' failed
  change EStateM.bind (x ctx) (fun a => f a ctx) b = _ at failed
  unfold EStateM.bind at failed
  cases found : x ctx b with
  | error early between =>
    rw [found] at failed
    cases failed
    exact first _ _ found
  | ok a between =>
    rw [found] at failed
    exact rest a between found e b' failed

theorem TameAt.ite [Decidable c] {x y : Asm α} (yes : c → TameAt ctx b x) (no : ¬c → TameAt ctx b y) :
    TameAt ctx b (if c then x else y) := by
  split
  · exact yes ‹_›
  · exact no ‹_›

theorem TameAt.pure (a : α) : TameAt ctx b (pure a) := by
  intro e b' failed
  cases failed

theorem tameAt_modify (f : Buffer → Buffer) : TameAt ctx b (modify f) := by
  intro e b' failed
  cases failed

theorem tameAt_get : TameAt ctx b get := by
  intro e b' failed
  cases failed

theorem tameAt_read : TameAt ctx b read := by
  intro e b' failed
  cases failed

theorem tameAt_fault (about : cause.AboutState) : TameAt ctx b (fault pc cause : Asm α) := by
  intro e b' failed
  cases failed
  exact about

theorem tameAt_pool (action : PoolM α) : TameAt ctx b (pool action) := by
  intro e b' failed
  unfold pool at failed
  split at failed <;> cases failed
  trivial

theorem tameAt_changeState {change : State → Except Fault State}
    (about : ∀ state cause, change state = .error cause → cause.AboutState) :
    TameAt ctx b (changeState pc change) := by
  intro e b' failed
  unfold changeState at failed
  split at failed
  · cases failed
  · cases failed
    exact about _ _ ‹_›

theorem tameAt_arrive (site : JumpSite) (target : Nat) (merged : Option State) :
    TameAt ctx b (arrive site target merged) := by
  refine (tameAt_modify _).bind fun _ _ _ => tameAt_get.bind fun buffer _ _ => ?_
  refine .ite (fun _ => .ite (fun _ => tameAt_read.bind fun context _ _ => ?_)
    fun _ => (tameAt_modify _).bind fun _ _ _ => .pure _) fun _ => .pure _
  cases met : site.state.join context.hierarchy (merged.getD buffer.state) with
  | ok state => exact .pure _
  | error cause => exact tameAt_fault (State.aboutState_of_join met)

theorem tameAt_patch (pc target : Nat) : TameAt ctx b (patch pc target) :=
  tameAt_read.bind fun _ _ _ => .ite (fun _ => tameAt_modify _) fun _ =>
    .ite (fun _ => tameAt_modify _) fun _ => tameAt_modify _

theorem Wired.isJump_getD {wide needsWide : Bool} {sites : Multiset Nat}
    (wired : Wired wide needsWide 0 sites log b.bytes) (member : pc ∈ sites) :
    Opcode.isJump (b.code.getD pc 0) = true := by
  obtain ⟨opcode, jump, _⟩ := wired.jumps pc member (Nat.zero_le pc)
  rw [Buffer.getD_code, jump.found]
  exact jump.isJump

theorem tameAt_resolveSites {merged : Option State} {rest : Multiset Nat}
    (wired : Wired ctx.wide b.needsWide 0 (chain.pcs + rest) log b.bytes) :
    TameAt ctx b (resolveSites target merged chain) := by
  induction chain generalizing merged b log with
  | nil => exact .pure _
  | cons site others ih =>
    rw [Chain.pcs_cons, Multiset.cons_add] at wired
    unfold resolveSites
    refine tameAt_get.bind fun _ _ got => tameAt_read.bind fun _ _ found => ?_
    obtain ⟨rfl, rfl⟩ := get_ok.mp got
    obtain ⟨rfl, rfl⟩ := read_ok.mp found
    refine .ite (fun condition => ?_) fun _ => ?_
    · have drop : Droppable ctx b target site := by simpa [Droppable] using condition
      refine (tameAt_modify _).bind fun _ _ retracted => ?_
      cases modify_ok.mp retracted
      refine .ite (fun _ => (tameAt_modify _).bind fun _ _ _ => .pure _) fun _ => ?_
      refine (tameAt_arrive _ _ _).bind fun merged' _ arrived => ?_
      have rewired := drop.wired wired
      rw [arrive_buffer arrived]
      exact ih rewired
    · have isJump := Wired.isJump_getD wired (Multiset.mem_cons_self _ _)
      refine .ite (fun stray => absurd stray (by rw [isJump]; decide)) fun _ => ?_
      refine (tameAt_patch _ _).bind fun _ b1 patched => ?_
      have rewired := wired_patch wired patched
      have onward : TameAt ctx b1 (do
          resolveSites target (← arrive site (landing b ctx.wide target) merged) others) := by
        refine (tameAt_arrive _ _ _).bind fun merged' _ arrived => ?_
        rw [arrive_buffer arrived]
        exact ih rewired
      refine .ite (fun _ => TameAt.bind (tameAt_fault ?_) fun _ _ failed => ?_) fun _ => onward
      · trivial
      · exact (fault_ok.mp failed).elim

section Calls

variable {register : UInt16}
variable {base : Nat} {rest : Multiset Nat} {log : List (Nat × Nat)}

theorem tameAt_resolveTo (carries : b.core.Carries ctx.wide 0 (chain.pcs + rest) log) :
    TameAt ctx b (resolveTo chain target) := by
  have wired := carries.wired
  rw [add_left_comm] at wired
  refine .ite (fun _ => (tameAt_modify _).bind fun _ _ counted => ?_) fun _ => .pure _
  cases modify_ok.mp counted
  have sites : TameAt ctx { b with unresolved := b.unresolved - chain.length }
    (resolveSites target none chain) := tameAt_resolveSites wired
  refine sites.bind fun merged _ _ => ?_
  cases merged with
  | none => exact .pure _
  | some state => exact tameAt_read.bind fun _ _ _ => tameAt_modify _

theorem tameAt_takePending : TameAt ctx b takePending := by
  intro e b' failed
  cases failed

theorem tameAt_resolvePending (carries : b.core.Carries ctx.wide 0 rest log) :
    TameAt ctx b resolvePending := by
  refine tameAt_takePending.bind fun _ _ took => TameAt.bind ?_ fun _ _ measured => ?_
  · exact tameAt_get.bind fun _ _ _ => .pure _
  · cases modifyGet_ok.mp took
    obtain ⟨_, rfl⟩ := length_ok.mp measured
    exact tameAt_resolveTo carries.relieve

theorem tameAt_markLine : TameAt ctx b markLine :=
  tameAt_read.bind fun _ _ _ => tameAt_modify _

theorem tameAt_length : TameAt ctx b length := tameAt_get.bind fun _ _ _ => .pure _

section

variable (carries : b.core.Carries ctx.wide 0 rest log)

include carries

theorem tameAt_position : TameAt ctx b position :=
  (tameAt_resolvePending carries).bind fun _ _ _ => tameAt_markLine.bind fun _ _ _ =>
    (tameAt_modify _).bind fun _ _ _ => tameAt_length

theorem tameAt_beginInstruction : TameAt ctx b beginInstruction := by
  refine (tameAt_resolvePending carries).bind fun _ _ _ => tameAt_get.bind fun _ _ _ =>
    .ite (fun _ => ?_) fun _ => .pure _
  refine tameAt_markLine.bind fun _ _ _ => tameAt_get.bind fun _ _ _ => .ite (fun _ => ?_)
    fun _ => .pure _
  refine (tameAt_modify _).bind fun _ _ _ => TameAt.bind ?_ fun _ _ _ => .pure _
  exact tameAt_read.bind fun _ _ _ => .ite (fun _ => tameAt_modify _) fun _ => .pure _

theorem tameAt_emit : TameAt ctx b (emit instruction) := by
  refine (tameAt_beginInstruction carries).bind fun _ _ _ => .ite (fun _ => ?_) fun _ => .pure _
  refine tameAt_length.bind fun _ _ _ => (tameAt_pool _).bind fun _ _ _ =>
    (tameAt_modify _).bind fun _ _ _ => tameAt_read.bind fun _ _ _ =>
    (tameAt_changeState fun _ _ => State.aboutState_of_apply).bind fun _ _ _ =>
    (tameAt_modify _).bind fun _ _ _ => ?_
  cases instruction with
  | store kind register => exact tameAt_modify _
  | _ => exact .ite (fun _ => tameAt_modify _) fun _ => .pure _

end

theorem tameAt_emitJump {opcode : UInt8} {pops : Nat} (valid : IsShortJump opcode)
    (carries : b.core.Carries ctx.wide 0 rest log) :
    TameAt ctx b (emitJump opcode pops) := by
  refine (tameAt_beginInstruction carries).bind fun _ _ _ => .ite (fun _ => ?_) fun _ => tameAt_length
  refine (tameAt_modify _).bind fun _ _ _ => tameAt_length.bind fun _ _ _ =>
    (tameAt_changeState fun _ _ => State.aboutState_of_popValues).bind fun _ _ _ =>
    tameAt_read.bind fun _ _ found => ?_
  obtain ⟨rfl, rfl⟩ := read_ok.mp found
  obtain ⟨bytes, back, chosen⟩ := valid.exists_jumpBytes ctx.wide
  rw [chosen]
  refine (tameAt_modify _).bind fun _ _ _ => .ite (fun _ => ?_) fun _ => .ite (fun _ => ?_) fun _ => ?_
  · exact (tameAt_modify _).bind fun _ _ _ => tameAt_length.bind fun _ _ _ => .pure _
  · exact (tameAt_modify _).bind fun _ _ _ => tameAt_length.bind fun _ _ _ => .pure _
  · exact tameAt_length.bind fun _ _ _ => .pure _

theorem aboutState_of_merge {other : Chain} (failed : chain.merge other = .error cause) :
    cause.AboutState := by
  unfold Chain.merge at failed
  split at failed
  · cases failed
  · cases failed
  · split at failed <;> cases failed
    trivial

theorem tameAt_mergeChains (chain other : Chain) : TameAt ctx b (mergeChains chain other) := by
  unfold mergeChains
  cases found : chain.merge other with
  | ok merged => exact .pure _
  | error cause =>
    exact tameAt_length.bind fun _ _ _ => tameAt_fault (aboutState_of_merge found)

theorem tameAt_isAlive : TameAt ctx b isAlive := tameAt_get.bind fun _ _ _ => .pure _

theorem tameAt_branch {jump : Jump} (carries : b.core.Carries ctx.wide 0 rest log) :
    TameAt ctx b (branch jump) := by
  have after (opcode : UInt8) (known : jump.opcode? = some opcode) (taken : Chain) (c : Buffer)
      (others : Multiset Nat) (carried : c.core.Carries ctx.wide 0 others log) : TameAt ctx c (do
        if ← isAlive then
          let pc ← emitJump opcode jump.pops
          let chain ← mergeChains [⟨pc, (← get).state⟩] taken
          let wide := (← read).wide
          modify ({ · with fixed := wide })
          return chain
        else return taken) := by
    refine tameAt_isAlive.bind fun _ _ asked => .ite (fun _ => ?_) fun _ => .pure _
    obtain ⟨_, rfl⟩ := isAlive_ok.mp asked
    exact (tameAt_emitJump (Jump.isShortJump known) carried).bind fun _ _ _ =>
      tameAt_get.bind fun _ _ _ => (tameAt_mergeChains _ _).bind fun _ _ _ =>
      tameAt_read.bind fun _ _ _ => (tameAt_modify _).bind fun _ _ _ => .pure _
  unfold branch
  cases known : jump.opcode? with
  | none =>
    refine .ite (fun _ => ?_) fun _ => ?_
    · exact tameAt_takePending.bind fun _ _ _ => .pure _
    · exact .pure _
  | some opcode =>
    refine .ite (fun _ => ?_) fun _ => ?_
    · refine tameAt_takePending.bind fun _ _ took => ?_
      cases modifyGet_ok.mp took
      exact after opcode known _ _ _ carries.relieve
    · exact after opcode known _ _ _ carries

theorem tameAt_jsr (carries : b.core.Carries ctx.wide 0 rest log) : TameAt ctx b jsr := by
  refine tameAt_isAlive.bind fun _ _ asked => .ite (fun _ => ?_) fun _ => .pure _
  obtain ⟨_, rfl⟩ := isAlive_ok.mp asked
  exact (tameAt_emitJump isShortJump_jsr carries).bind fun _ _ _ =>
    tameAt_get.bind fun _ _ _ => .pure _

theorem tameAt_resolve (chain : Chain) : TameAt ctx b (resolve chain) :=
  tameAt_takePending.bind fun _ _ _ => (tameAt_mergeChains _ _).bind fun _ _ _ => tameAt_modify _

theorem tameAt_newLocal (type : VType) (debug : Option LocalDebug) :
    TameAt ctx b (newLocal type debug) := by
  refine tameAt_get.bind fun _ _ _ => (tameAt_modify _).bind fun _ _ _ => .ite (fun _ => ?_) fun _ => ?_
  · intro e b' failed
    cases failed
    trivial
  · exact (tameAt_modify _).bind fun _ _ _ => .pure _

section

variable (carries : b.core.Carries ctx.wide 0 rest log)

include carries

theorem tameAt_endScope : TameAt ctx b (endScope register) := by
  refine tameAt_get.bind fun _ _ got => (tameAt_modify _).bind fun _ _ cleared => ?_
  obtain ⟨rfl, rfl⟩ := get_ok.mp got
  cases modify_ok.mp cleared
  have carried : ({ b with locals := b.locals.setIfInBounds register.toNat none } : Buffer).core.Carries
    ctx.wide 0 rest log := carries
  generalize b.locals.getD register.toNat none = var
  rcases var with _ | ⟨type, _ | debug, _ | start⟩
  · exact tameAt_modify _
  · exact tameAt_modify _
  · exact tameAt_modify _
  · exact tameAt_modify _
  · exact (tameAt_position carried).bind fun _ _ _ =>
      .ite (fun _ => (tameAt_modify _).bind fun _ _ _ => tameAt_modify _) fun _ => tameAt_modify _

theorem tameAt_endScopesFrom {register : Nat} : TameAt ctx b (endScopesFrom register count) := by
  induction count generalizing register b log with
  | zero => exact .pure _
  | succ count ih =>
    refine (tameAt_endScope carries).bind fun _ _ ended => ?_
    obtain ⟨more, scopes⟩ := endScope_ok ended
    exact ih (carries.scopesEnd scopes)

theorem tameAt_endScopes {first : UInt16} : TameAt ctx b (endScopes first) := by
  refine tameAt_get.bind fun _ _ got => (tameAt_modify _).bind fun _ _ freed => ?_
  obtain ⟨rfl, rfl⟩ := get_ok.mp got
  cases modify_ok.mp freed
  have carried : ({ b with nextRegister := first.toNat } : Buffer).core.Carries ctx.wide 0 rest log :=
    carries
  exact tameAt_endScopesFrom carried

end

theorem aboutState_of_unlock (failed : state.unlock register = .error cause) :
    cause.AboutState := by
  unfold State.unlock at failed
  split at failed
  · split at failed <;> cases failed
    trivial
  · cases failed
    trivial

theorem tameAt_note (change : Note) : TameAt ctx b change.perform := by
  cases change with
  | unlock register =>
    exact tameAt_length.bind fun _ _ _ => tameAt_changeState fun _ _ => aboutState_of_unlock
  | beginStatement line => exact .ite (fun _ => tameAt_modify _) fun _ => .pure _
  | markLine => exact tameAt_markLine
  | _ => exact tameAt_modify _

theorem tameAt_emitWords (operands : List Int32) : TameAt ctx b (operands.forM emitWord) := by
  induction operands generalizing b with
  | nil => exact .pure _
  | cons word rest ih => exact (tameAt_modify _).bind fun _ _ _ => ih

theorem tameAt_placeSwitch {table : Bool} {operands : List Int32}
    (carries : b.core.Carries ctx.wide 0 rest log) : TameAt ctx b (placeSwitch table operands) := by
  refine TameAt.bind ?_ fun found _ _ => ?_
  · refine (tameAt_beginInstruction carries).bind fun _ _ _ => .ite (fun _ => ?_) fun _ => .pure _
    exact tameAt_length.bind fun _ _ _ => (tameAt_modify _).bind fun _ _ _ =>
      (tameAt_changeState fun _ _ => State.aboutState_of_popValues).bind fun _ _ _ => .pure _
  · cases found with
    | none => exact .pure _
    | some start =>
      exact (tameAt_modify _).bind fun _ _ _ => tameAt_length.bind fun _ _ _ =>
        (tameAt_emitWords operands).bind fun _ _ _ => .pure _

end Calls

end Asm

theorem Session.Accounted.tameAt {α : Type} {call : Call α} (accounted : s.Accounted ctx 0)
    (owns : call.takes ≤ s.held) : Asm.TameAt ctx s.buffer call.perform := by
  have accounted := accounted.carries
  obtain ⟨rest, held⟩ := Multiset.le_iff_exists_add.mp owns
  cases call with
  | emit instruction => exact Asm.tameAt_emit accounted
  | branch jump => exact Asm.tameAt_branch accounted
  | jsr => exact Asm.tameAt_jsr accounted
  | merge chain other => exact Asm.tameAt_mergeChains _ _
  | resolve chain => exact Asm.tameAt_resolve _
  | resolvePending => exact Asm.tameAt_resolvePending accounted
  | resolveTo chain target =>
    rw [held, add_assoc] at accounted
    exact Asm.tameAt_resolveTo accounted
  | position => exact Asm.tameAt_position accounted
  | entryPoint | entryPointWith state pushed =>
    exact (Asm.tameAt_position accounted).bind fun _ _ _ => Asm.tameAt_read.bind fun _ _ _ =>
      (Asm.tameAt_modify _).bind fun _ _ _ => .pure _
  | newLocal type debug => exact Asm.tameAt_newLocal _ _
  | setDefined register | putWord pc value => exact Asm.tameAt_modify _
  | endScopes first => exact Asm.tameAt_endScopes accounted
  | note change => exact Asm.tameAt_note change
  | switch table operands => exact Asm.tameAt_placeSwitch accounted
  | discard chain => exact .pure _

/-- If a call fails, then because of its types or of a limit, never because of the jumps it was
given. -/
theorem Session.Reach.tameAt {pool : Pool} {α : Type} {call : Call α} (reach : Reach ctx pool s)
    (owns : call.takes ≤ s.held) : Asm.TameAt ctx s.buffer call.perform :=
  reach.accounted.tameAt owns

end ClassForge
