import ClassForge.Proofs.Legality

namespace ClassForge

variable {log : List (Nat × Nat)} {α : Type} {b b' : Buffer} {answer : α} {ctx : Context}

theorem Call.catches_eq (call : Call α) (run : call.perform ctx b = .ok answer b') :
    b'.catches.toList = b.catches.toList ++ call.rows := by
  obtain ⟨_, logs⟩ := call.exists_logs run
  cases call.does_of_perform run logs with
  | still _ _ _ _ _ rest => exact rest.2
  | @flush a c asks before flushes core rest =>
    have same : a.catches = b.catches := by rw [before]
    rw [rest.2, flushes.frame.2.2.1, (free_of_asks asks answer b b').1.rows, List.append_nil, same]
  | @append c _ new kept taken flushes adds free =>
    have began : (Asm.begun ctx c).catches = c.catches := by rw [Asm.begun_eq]
    have same : b'.catches = (Asm.begun ctx c).catches := congrArg Buffer.Tables.catches adds.tables
    rw [same, began, flushes.frame.2.2.1, free.rows, List.append_nil]
  | land lands _ _ _ _ _ rest => rw [lands.frame.2.2.1, rest.2.1, List.append_nil]

theorem Asm.catches_of_position {pc : Nat} (run : position ctx b = .ok pc b') :
    b'.catches = b.catches := by
  have same := Call.position.catches_eq run
  exact Array.ext' (same.trans (List.append_nil _))

namespace Session

/-- What the user knows about a session is still known in a later one. -/
structure Extends (s s' : Session) : Prop where
  observed : s.observed <:+ s'.observed
  entries : ∀ p ∈ s.entries, p ∈ s'.entries
  switches : ∀ place ∈ s.switches, place ∈ s'.switches
  filled : ∀ p ∈ s.filled, p ∈ s'.filled

/-- All offsets of a switch have been filled in, and the position behind it has been entered. -/
structure Closed (s : Session) (place : SwitchPlace) : Prop where
  filled : ∀ pos, place.IsOffset pos → pos ∈ s.filled
  entered : place.base + 4 * place.count ∈ s.entries

/-- A later session in which every new switch has all of its offsets. -/
structure Grows (s s' : Session) : Prop extends s.Extends s' where
  closed : ∀ place ∈ s'.switches, place ∈ s.switches ∨ s'.Closed place

/-- A later session with the same exception table. -/
structure Steady (s s' : Session) : Prop extends s.Grows s' where
  catches : s'.buffer.catches = s.buffer.catches

namespace Extends

variable {s s1 s2 : Session}

theorem trans (first : s.Extends s1) (second : s1.Extends s2) : s.Extends s2 where
  observed := first.observed.trans second.observed
  entries p member := second.entries p (first.entries p member)
  switches place member := second.switches place (first.switches place member)
  filled p member := second.filled p (first.filled p member)

theorem known {p : Nat} (extends_ : s.Extends s1) (member : p ∈ s.observed) : p ∈ s1.observed :=
  extends_.observed.subset member

end Extends

namespace Grows

variable {s s1 s2 : Session}

theorem refl (s : Session) : s.Grows s :=
  ⟨⟨List.suffix_rfl, fun _ => id, fun _ => id, fun _ => id⟩, fun _ => .inl⟩

theorem trans (first : s.Grows s1) (second : s1.Grows s2) : s.Grows s2 where
  toExtends := first.toExtends.trans second.toExtends
  closed place member := by
    rcases second.closed place member with old | closed
    · exact (first.closed place old).imp_right fun closed =>
        ⟨fun pos offset => second.filled pos (closed.filled pos offset),
          second.entries _ closed.entered⟩
    · exact .inr closed

end Grows

namespace Steady

variable {s s1 s2 : Session}

theorem refl (s : Session) : s.Steady s := ⟨.refl s, rfl⟩

theorem trans (first : s.Steady s1) (second : s1.Steady s2) : s.Steady s2 where
  toGrows := first.toGrows.trans second.toGrows
  catches := second.catches.trans first.catches

end Steady

theorem extends_after (s : Session) (call : Call α) (answer : α) (b : Buffer)
    (log : List (Nat × Nat)) : s.Extends (s.after call answer b log) where
  observed := List.suffix_append _ _
  entries _ := List.mem_append_right _
  switches _ := List.mem_append_right _
  filled _ := List.mem_append_right _

theorem grows_after {s : Session} {call : Call α} (none : call.places answer = []) :
    s.Grows (s.after call answer b log) where
  toExtends := s.extends_after call answer b log
  closed place member := by
    change place ∈ call.places answer ++ s.switches at member
    rw [none] at member
    exact .inl member

theorem steady_after {s : Session} (call : Call α) (places : call.places answer = [])
    (rows : call.rows = []) (run : call.perform ctx s.buffer = .ok answer b) :
    s.Steady (s.after call answer b log) where
  toGrows := grows_after places
  catches := by
    have added := call.catches_eq run
    rw [rows, List.append_nil] at added
    exact Array.ext' added

/-- The user owns the given jumps, and the buffer is that of the session. -/
structure Owns (ctx : Context) (s : Session) (b : Buffer) (owned : Multiset Nat) : Prop where
  buffer : s.buffer = b
  holds : owned ≤ s.held
  course : ∃ pool, s.Course ctx pool

namespace Owns

variable {ctx : Context} {s : Session} {b b' : Buffer} {owned fewer rest : Multiset Nat}

theorem reach (owns : s.Owns ctx b owned) : ∃ pool, s.Reach ctx pool :=
  owns.course.imp fun _ course => course.reach

theorem sound (owns : s.Owns ctx b owned) : s.Sound ctx :=
  owns.course.elim fun _ course => course.sound

theorem mono (owns : s.Owns ctx b owned) (less : fewer ≤ owned) : s.Owns ctx b fewer :=
  { owns with holds := less.trans owns.holds }

/-- A legal call takes its jumps from the user, who then owns those of the answer. -/
theorem perform {call : Call α} (owns : s.Owns ctx b (call.takes + rest))
    (slots : ∀ pc ∈ call.fills, ∃ place ∈ s.switches, place.IsSlot pc) (complete : call.Complete)
    (legal : call.Legal s) (run : call.perform ctx b = .ok answer b') :
    ∃ log, call.Logs ctx b b' log ∧
      (s.after call answer b' log).Owns ctx b' (call.gives answer + rest) := by
  obtain ⟨rfl, holds, pool, course⟩ := owns
  have permits : s.Permits call := ⟨(Multiset.le_add_right _ _).trans holds, slots, complete⟩
  obtain ⟨log, logs⟩ := call.exists_logs run
  refine ⟨log, logs, rfl, ?_, pool, course.next call permits legal run logs⟩
  change call.gives answer + rest ≤ s.held - call.takes + call.gives answer
  rw [add_comm]
  exact add_le_add_left (le_tsub_of_add_le_left holds) _

theorem call (call : Call α) (owns : s.Owns ctx b (call.takes + rest)) (fills : call.fills = [])
    (complete : call.Complete) (legal : call.Legal s) (places : call.places answer = [])
    (rows : call.rows = []) (run : call.perform ctx b = .ok answer b') :
    ∃ s', s.Steady s' ∧ s'.Owns ctx b' (call.gives answer + rest) := by
  obtain ⟨log, _, owns'⟩ := owns.perform (by simp [fills]) complete legal run
  obtain rfl := owns.buffer
  exact ⟨_, steady_after call places rows run, owns'⟩

end Owns

end Session

namespace Asm

variable {α β : Type}

/-- Whenever the action succeeds, it has respected what it owns, and gives what its answer holds. -/
def Keeps (owned : Multiset Nat) (action : Asm α) (gives : α → Multiset Nat) : Prop :=
  ∀ ⦃ctx b b' x⦄, action ctx b = .ok x b' → ∀ ⦃s rest⦄, Session.Owns ctx s b (owned + rest) →
    ∃ s', s.Steady s' ∧ s'.Owns ctx b' (gives x + rest)

def Answers (action : Asm α) (good : α → Prop) : Prop :=
  ∀ ⦃ctx b b' x⦄, action ctx b = .ok x b' → good x

abbrev Fails (action : Asm α) : Prop := Answers action fun _ => False

variable {x : Asm α} {f : α → Asm β} {good : α → Prop} {fit : β → Prop}

theorem Fails.answers (fails : Fails x) : Answers x good := fun _ _ _ _ run => (fails run).elim

theorem fails_throw {e : Error} : Fails (throw e : Asm α) := fun _ _ _ _ run => throw_ok.mp run

theorem Fails.bind (fails : Fails x) : Answers (x >>= f) fit := by
  intro ctx b b' y run
  obtain ⟨a, between, ran, _⟩ := bind_ok.mp run
  exact (fails ran).elim

theorem answers_pure {a : α} (known : good a) : Answers (pure a) good := by
  intro ctx b b' y run
  obtain ⟨rfl, _⟩ := pure_ok.mp run
  exact known

theorem Answers.bind (first : Answers x good) (second : ∀ a, good a → Answers (f a) fit) :
    Answers (x >>= f) fit := by
  intro ctx b b' y run
  obtain ⟨a, between, ran, run⟩ := bind_ok.mp run
  exact second a (first ran) run

theorem answers_bind (second : ∀ a, Answers (f a) fit) : Answers (x >>= f) fit := by
  intro ctx b b' y run
  obtain ⟨a, between, _, run⟩ := bind_ok.mp run
  exact second a run

theorem discard_ok {y : Unit} :
    (discard x : Asm Unit) ctx b = .ok y b' ↔ ∃ a, x ctx b = .ok a b' := by
  refine map_ok.trans ?_
  simp

theorem Fails.discard (fails : Fails x) : Fails (discard x) := by
  intro ctx b b' y run
  obtain ⟨a, ran⟩ := discard_ok.mp run
  exact fails ran

theorem keeps_call (call : Call α) (fills : call.fills = []) (complete : call.Complete)
    (legal : ∀ s, call.Legal s) (places : ∀ answer, call.places answer = [])
    (rows : call.rows = []) : Keeps call.takes call.perform call.gives := by
  intro ctx b b' x run s rest owns
  exact owns.call call fills complete (legal s) (places x) rows run

theorem keeps_emit (instruction : Instruction) : Keeps 0 (emit instruction) fun _ => 0 :=
  keeps_call (.emit instruction) rfl trivial (fun _ => trivial) (fun _ => rfl) rfl

theorem keeps_branch (jump : Jump) : Keeps 0 (branch jump) Chain.pcs :=
  keeps_call (.branch jump) rfl trivial (fun _ => trivial) (fun _ => rfl) rfl

theorem keeps_jsr : Keeps 0 jsr Chain.pcs :=
  keeps_call .jsr rfl trivial (fun _ => trivial) (fun _ => rfl) rfl

theorem keeps_mergeChains (chain other : Chain) :
    Keeps (chain.pcs + other.pcs) (mergeChains chain other) Chain.pcs :=
  keeps_call (.merge chain other) rfl trivial (fun _ => trivial) (fun _ => rfl) rfl

theorem keeps_resolve (chain : Chain) : Keeps chain.pcs (resolve chain) fun _ => 0 :=
  keeps_call (.resolve chain) rfl trivial (fun _ => trivial) (fun _ => rfl) rfl

theorem keeps_newLocal (type : VType) (debug : Option LocalDebug) :
    Keeps 0 (newLocal type debug) fun _ => 0 :=
  keeps_call (.newLocal type debug) rfl trivial (fun _ => trivial) (fun _ => rfl) rfl

theorem keeps_setDefined (register : UInt16) : Keeps 0 (setDefined register) fun _ => 0 :=
  keeps_call (.setDefined register) rfl trivial (fun _ => trivial) (fun _ => rfl) rfl

theorem keeps_endScopes (first : UInt16) : Keeps 0 (endScopes first) fun _ => 0 :=
  keeps_call (.endScopes first) rfl trivial (fun _ => trivial) (fun _ => rfl) rfl

theorem keeps_note (change : Note) (legal : ∀ s, change.Legal s) :
    Keeps 0 change.perform fun _ => 0 := by
  intro ctx b b' x run s rest owns
  have rows : change.rows = [] := by
    cases change with
    | addCatch row => exact absurd (legal { s with observed := [] }).start List.not_mem_nil
    | _ => rfl
  exact owns.call (.note change) rfl trivial (legal s) rfl rows run

end Asm

end ClassForge
