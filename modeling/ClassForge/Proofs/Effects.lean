import ClassForge.Assembly.Emit

namespace ClassForge

def Fault.AboutState : Fault → Prop
  | .notABranch _ | .unresolvedJumps _ => False
  | _ => True

def Kind.Room (kind : Kind) (register : UInt16) : Prop :=
  register.toNat + kind.type.width ≤ maxLocalCount

def Instruction.Roomy : Instruction → Prop
  | .store kind register => kind.Room register
  | _ => True

/-- The steps of which the effects of instructions consist keep the property. Values may have to stay
within the registers that a method can have. -/
class State.Closed (limited : outParam Prop) (P : State → Prop) : Prop where
  push : ∀ {state} (type), P state → P (state.push type)
  pop : ∀ {state rest type}, P state → state.pop = .ok (type, rest) → P rest
  replace : ∀ {state} {source target : VType}, P state → source.isReference = true →
    target.isReference = true → P (state.replace source target)
  setLocal : ∀ {state} {register : UInt16} {type : VType}, P state → type ≠ .top →
    (limited → register.toNat + type.width ≤ maxLocalCount) → P (state.setLocal register type)

namespace Effect

variable {α β : Type} {P : State → Prop} {x : Effect α} {f : α → Effect β}

/-- Where the computation goes well, it keeps the property; otherwise the state is to blame. -/
structure Keeps (P : State → Prop) (x : Effect α) : Prop where
  ok : ∀ ⦃state a state'⦄, x state = .ok (a, state') → P state → P state'
  fails : ∀ ⦃state cause⦄, x state = .error cause → cause.AboutState

theorem bind_ok {state state' : State} {b : β} :
    (x >>= f) state = .ok (b, state') ↔
      ∃ a between, x state = .ok (a, between) ∧ f a between = .ok (b, state') := by
  change (x state >>= fun p => f p.1 p.2) = _ ↔ _
  cases x state with
  | error cause =>
    constructor
    · nofun
    · rintro ⟨_, _, same, _⟩
      cases same
  | ok pair =>
    obtain ⟨a, between⟩ := pair
    constructor
    · exact fun rest => ⟨a, between, rfl, rest⟩
    · rintro ⟨_, _, same, rest⟩
      cases same
      exact rest

theorem Keeps.bind_of {p : α → Prop} (first : Keeps P x)
    (answers : ∀ ⦃state a after⦄, x state = .ok (a, after) → p a)
    (rest : ∀ a, p a → Keeps P (f a)) : Keeps P (x >>= f) where
  ok state b state' run before := by
    obtain ⟨a, between, ran, run⟩ := bind_ok.mp run
    exact (rest a (answers ran)).ok run (first.ok ran before)
  fails state cause failed := by
    change (x state >>= fun p => f p.1 p.2) = _ at failed
    cases found : x state with
    | error early =>
      rw [found] at failed
      cases failed
      exact first.fails found
    | ok pair =>
      rw [found] at failed
      exact (rest pair.1 (answers found)).fails failed

theorem Keeps.bind (first : Keeps P x) (rest : ∀ a, Keeps P (f a)) : Keeps P (x >>= f) :=
  first.bind_of (fun _ _ _ _ => trivial) fun a _ => rest a

theorem keeps_modify {f : State → State} (keeps : ∀ state, P state → P (f state)) :
    Keeps P (modify f : Effect Unit) where
  ok state _ state' run before := by
    cases run
    exact keeps state before
  fails _ _ failed := by cases failed

theorem keeps_pure (a : α) : Keeps P (pure a : Effect α) where
  ok state b state' run before := by
    cases run
    exact before
  fails _ _ failed := by cases failed

theorem keeps_fail {cause : Fault} (about : cause.AboutState) : Keeps P (fail cause : Effect α) where
  ok _ _ _ run := by cases run
  fails _ _ failed := by
    cases failed
    exact about

theorem Keeps.ite {c : Prop} [Decidable c] {y : Effect α} (yes : Keeps P x) (no : Keeps P y) :
    Keeps P (if c then x else y) := by
  split
  · exact yes
  · exact no

theorem Keeps.discard (keeps : Keeps P x) : Keeps P (discard x) := by
  have same : (Functor.discard x : Effect Unit) = x >>= fun _ => Pure.pure () := by
    rw [Functor.discard, map_const, Function.comp_apply, map_eq_pure_bind]
  rw [same]
  exact keeps.bind fun _ => keeps_pure _

theorem Keeps.forM {f : α → Effect Unit} (each : ∀ a, Keeps P (f a)) (items : List α) :
    Keeps P (items.forM f) := by
  induction items with
  | nil => exact keeps_pure _
  | cons item rest ih => exact (each item).bind fun _ => ih

theorem keeps_get : Keeps P (get : Effect State) where
  ok state b state' run before := by
    cases run
    exact before
  fails _ _ failed := by cases failed

theorem popExpecting_ok {expected found : VType} {state rest : State}
    (run : popExpecting expected state = .ok (found, rest)) :
    if expected.isReference then found.isReference = true else found = expected := by
  obtain ⟨type, between, popped, run⟩ := bind_ok.mp run
  by_cases meets : (if expected.isReference then type.isReference else type == expected) = true
  · rw [if_pos meets] at run
    cases run
    split
    · next refers => rwa [if_pos refers] at meets
    · next plain =>
      rw [if_neg plain] at meets
      exact beq_iff_eq.mp meets
  · rw [if_neg meets] at run
    cases run

theorem keeps_elementOf (type : VType) : Keeps P (elementOf type) := by
  unfold elementOf
  split
  · split
    · exact keeps_pure _
    · exact keeps_fail trivial
  · exact keeps_pure _

variable {limited : Prop} [State.Closed limited P]

include limited

theorem keeps_push (type : VType) : Keeps P (push type) :=
  keeps_modify fun _ => State.Closed.push type

theorem keeps_pop : Keeps P pop where
  ok _ _ _ run before := State.Closed.pop before run
  fails state cause failed := by
    unfold pop State.pop at failed
    split at failed <;> cases failed
    trivial

theorem keeps_popExpecting (expected : VType) : Keeps P (popExpecting expected) :=
  keeps_pop.bind fun _ => .ite (keeps_pure _) (keeps_fail trivial)

theorem keeps_popReference : Keeps P popReference := keeps_popExpecting _

theorem keeps_popInt : Keeps P popInt := (keeps_popExpecting _).discard

theorem keeps_popSlotsOnto (slots covered : Nat) (popped : List VType) :
    Keeps P (popSlotsOnto slots covered popped) := by
  fun_induction popSlotsOnto slots covered popped with
  | case1 covered popped more ih => exact keeps_pop.bind ih
  | case2 => exact keeps_pure _
  | case3 => exact keeps_fail trivial

theorem keeps_pushAll (types : List VType) : Keeps P (pushAll types) := .forM keeps_push types

theorem keeps_unary (argument result : VType) : Keeps P (unary argument result) :=
  (keeps_popExpecting _).discard.bind fun _ => keeps_push _

theorem keeps_binary (left right result : VType) : Keeps P (binary left right result) :=
  (keeps_popExpecting _).discard.bind fun _ => keeps_unary left result

theorem keeps_duplicate (slots under : Nat) : Keeps P (duplicate slots under) :=
  (keeps_popSlotsOnto _ _ _).bind fun _ => (keeps_popSlotsOnto _ _ _).bind fun _ =>
    (keeps_pushAll _).bind fun _ => (keeps_pushAll _).bind fun _ => keeps_pushAll _

theorem keeps_loadLocal (kind : Kind) (register : UInt16) : Keeps P (loadLocal kind register) := by
  refine keeps_get.bind fun state => ?_
  cases state.local? register with
  | none => exact keeps_fail trivial
  | some found => exact .ite (keeps_push _) (keeps_fail trivial)

theorem keeps_storeLocal {kind : Kind} {register : UInt16} (room : limited → kind.Room register) :
    Keeps P (storeLocal kind register) := by
  cases kind with
  | ref =>
    refine keeps_pop.bind fun found => ?_
    dsimp only
    split
    · next single =>
      -- Whatever is stored like a reference takes one slot.
      have width : found ≠ .top ∧ found.width = 1 := by
        cases found with
        | top | long | double => simp [VerificationType.isReference] at single
        | _ => exact ⟨nofun, rfl⟩
      exact keeps_modify fun _ before => State.Closed.setLocal before width.1 (width.2 ▸ room)
    · refine ⟨fun _ _ _ run => ?_, fun _ _ failed => ?_⟩
      · cases run
      · cases failed
        trivial
  | num kind =>
    refine (keeps_popExpecting _).bind_of (fun _ _ _ => popExpecting_ok) fun found meets => ?_
    obtain rfl : found = kind.type := by cases kind <;> exact meets
    exact keeps_modify fun _ before => State.Closed.setLocal before (by cases kind <;> nofun) room

theorem keeps_popInts (count : Nat) : Keeps P (popInts count) := by
  induction count with
  | zero => exact keeps_pure _
  | succ count ih => exact keeps_popInt.bind fun _ => ih

theorem keeps_pushResult (result : Option FieldType) : Keeps P (match result with
    | some type => push (.ofFieldType type)
    | none => pure ()) := by
  cases result with
  | none => exact keeps_pure _
  | some type => exact keeps_push _

theorem keeps_call (thisClass : BinaryName) (method : MethodRef) :
    Keeps P (call thisClass method) := by
  have result : Keeps P _ := keeps_pushResult method.descriptor.result
  refine (Keeps.forM (fun _ => (keeps_popExpecting _).discard) _).bind fun _ => .ite ?_ result
  refine keeps_popReference.bind_of (fun _ _ _ => popExpecting_ok) fun receiver refers => ?_
  have target : (constructed thisClass receiver).isReference = true := by
    cases receiver <;> first | rfl | cases refers
  exact .ite ((keeps_modify fun _ before => State.Closed.replace before refers target).bind
    fun _ => result) result

theorem keeps_rearrange (op : StackOp) : Keeps P (rearrange op) := by
  cases op with
  | pop | pop2 => exact (keeps_popSlotsOnto _ _ _).discard
  | dup | dupX1 | dupX2 | dup2 | dup2X1 | dup2X2 => exact keeps_duplicate _ _
  | swap => exact (keeps_popSlotsOnto _ _ _).bind fun _ => (keeps_popSlotsOnto _ _ _).bind fun _ =>
      (keeps_pushAll _).bind fun _ => keeps_pushAll _

/-- No instruction leads out of a property of states that the basic changes keep. -/
theorem keeps_effect (thisClass : BinaryName) (pc : Nat) {instruction : Instruction}
    (roomy : limited → instruction.Roomy) : Keeps P (instruction.effect thisClass pc) := by
  cases instruction with
  | nop | returnVoid => exact keeps_pure _
  | pushNull | pushInt value | pushByte value | pushShort value | pushLong value | pushFloat value
  | pushDouble value | pushConstant value | getStatic field | allocate name => exact keeps_push _
  | load kind register => exact keeps_loadLocal _ _
  | store kind register => exact keeps_storeLocal roomy
  | arrayLoad element =>
    refine keeps_popInt.bind fun _ => keeps_popReference.bind fun array => ?_
    cases element with
    | ref => exact (keeps_elementOf _).bind fun _ => keeps_push _
    | num | byte | char | short => exact keeps_push _
  | arrayStore element =>
    exact (keeps_popExpecting _).discard.bind fun _ => keeps_popInt.bind fun _ =>
      keeps_popReference.discard
  | stack op => exact keeps_rearrange op
  | arithmetic op kind | shift op width | bitwise op width | compareLong
  | compareFloat width nan => exact keeps_binary _ _ _
  | negate kind | convert conversion | narrow target => exact keeps_unary _ _
  | increment register delta
  | ret register => exact keeps_get.bind fun _ => .ite (keeps_fail trivial) (keeps_pure _)
  | returnValue kind | putStatic field => exact (keeps_popExpecting _).discard
  | throwValue | monitorEnter | monitorExit => exact keeps_popReference.discard
  | getField field | arrayLength => exact keeps_popReference.discard.bind fun _ => keeps_push _
  | putField field =>
    exact (keeps_popExpecting _).discard.bind fun _ => keeps_popReference.discard
  | invoke mode method => exact keeps_call _ _
  | newArray element | newRefArray element => exact keeps_popInt.bind fun _ => keeps_push _
  | newMultiArray array dimensions => exact (keeps_popInts _).bind fun _ => keeps_push _
  | instanceOf type | checkCast type =>
    exact keeps_popReference.discard.bind fun _ => keeps_push _

end Effect

namespace State

variable {limited : Prop} {P : State → Prop} [Closed limited P] {state after : State}

include limited

theorem Closed.apply {thisClass : BinaryName} {pc : Nat} {instruction : Instruction}
    (before : P state) (roomy : limited → instruction.Roomy)
    (run : state.apply thisClass pc instruction = .ok after) : P after := by
  unfold State.apply at run
  split at run
  · next effect =>
    cases run
    exact (Effect.keeps_effect thisClass pc roomy).ok effect before
  · cases run

theorem Closed.popValues {count : Nat} (before : P state)
    (run : Asm.popValues count state = .ok after) : P after := by
  induction count generalizing state with
  | zero =>
    cases run
    exact before
  | succ count ih =>
    unfold Asm.popValues at run
    cases popped : state.pop with
    | error cause =>
      rw [popped] at run
      cases run
    | ok pair =>
      rw [popped] at run
      exact ih (Closed.pop before popped) run

end State

end ClassForge
