import ClassForge.Proofs.Copies

namespace ClassForge

namespace Lowering

variable {p pc depth k last own : Nat} {state : State} {pushed : Option VType} {clause : Handler}
  {gaps : List (Nat × Option Nat)} {b1 b2 b3 : Buffer} {y : Unit} {scope : Scope}
  {ranges : List (Nat × Nat)} {exit exit' : Chain} {clauses handlers : List Handler} {s1 : Session}
  {σ1 : MethodState} {added : List Nat} {exception : UInt16} {isEmptyTry isTry : Bool}
  {body : Lowering Unit}
variable {mc : MethodContext} {ctx : Context} {σ σ' : MethodState} {b b' : Buffer}
  {s s' : Session} {owned : Multiset Nat} {start stop handler : Nat}

section

variable (holds : Holds ctx s σ b owned)

include holds

theorem Holds.fresh (dead : b.isAlive = false) : b.code.size ∉ s.entries := by
  intro entered
  obtain rfl := holds.owns.buffer
  have inside := holds.owns.sound.stands.upright.entered _ entered
  have alive := inside.reached Buffer.length_bytes.symm
  simp [Buffer.isAlive, alive] at dead

theorem Holds.known_le (known : p ∈ s.observed) : p ≤ b.code.size := by
  obtain rfl := holds.owns.buffer
  have bound := (holds.owns.sound.stands.upright.known p known).le_length
  rwa [Buffer.length_bytes] at bound

theorem Holds.rowsOf_fresh (fresh : p ∉ s.entries) : b.rowsOf p = [] := by
  obtain rfl := holds.owns.buffer
  refine List.filter_eq_nil_iff.mpr fun row member here => fresh ?_
  rw [beq_iff_eq] at here
  exact here ▸ (holds.owns.sound.stands.upright.covered row member).2.2.1

theorem Holds.enterHandler (dead : b.isAlive = false)
    (run : Asm.entryPointWith state pushed ctx b = .ok pc b') :
    ∃ s', s.Steady s' ∧ pc ∈ s'.entries ∧ pc ∉ s.entries ∧ pc = b'.code.size ∧ b'.pending = [] ∧
      b'.rowsOf pc = [] ∧ (∀ p ∈ s.observed, p ≤ pc) ∧ Holds ctx s' σ b' owned := by
  obtain ⟨s', steady, _, entered, holds'⟩ := holds.entryPointWith run
  obtain ⟨c, asked, rfl⟩ := Asm.entryPointWith_ok run
  obtain ⟨here, _⟩ := Asm.position_of_dead dead asked
  have fresh : pc ∉ s.entries := here ▸ holds.fresh dead
  have none := holds.rowsOf_fresh fresh
  have catches : c.catches = b.catches := Asm.catches_of_position asked
  refine ⟨s', steady, entered, fresh, ?_, ?_, ?_, fun p known => here ▸ holds.known_le known, holds'⟩
  · have size := Asm.position_size asked
    exact size
  · have none := Asm.position_pending asked
    exact none
  · unfold Buffer.rowsOf at none ⊢
    rw [← catches] at none
    exact none

end

theorem keeps_markStatement {how : Change} [how.Lawful] (line : Option UInt16) :
    Keeps how 0 (markStatement line) fun _ => 0 :=
  (keeps_beginStatement line).next fun _ => keeps_note .markLine fun _ => trivial

/-- The exception is kept in the parameter of the clause, and the body of the clause follows. -/
theorem keeps_clause (sound : Keeps Tracks 0 clause.code fun _ => 0) :
    Keeps Tracks 0 (do
      markStatement clause.line
      let limit ← nextRegister
      discard (declare clause.param)
      (← localItem clause.param.id).store
      clause.code
      Asm.endScopes limit : Lowering Unit) fun _ => 0 := by
  refine (keeps_markStatement _).next fun _ => keeps_nextRegister.next fun limit => ?_
  refine (keeps_declare _).discard.next fun _ => ?_
  refine (keeps_localItem _).next fun item => ?_
  exact (keeps_store item).next fun _ => sound.next fun _ => keeps_endScopes _

/-- What is known about a handler after it has been lowered. -/
structure Entered (b : Buffer) (types : List (Option BinaryName)) (ranges : List (Nat × Nat))
    (handler : Nat) : Prop where
  rows : b.rowsOf handler = rowsFor handler types ranges
  fits : FitsIn handler types ranges

theorem handler_ok (sound : Keeps Tracks 0 clause.code fun _ => 0) (holds : Holds ctx s σ b owned)
    (dead : b.isAlive = false) (first : start ∈ s.observed) (last : stop ∈ s.observed)
    (known : OfGaps (· ∈ s.observed) gaps)
    (entered : Asm.entryPointWith state pushed ctx b = .ok pc b1)
    (run : genHandler clause start stop gaps mc σ ctx b1 = .ok (y, σ') b') :
    ∃ s', Tracks s σ s' σ' ∧ Holds ctx s' σ' b' owned ∧ pc ∈ s'.entries ∧ pc ∉ s.entries ∧
      Entered b' (clause.types.map some) (bodyRanges start stop gaps) pc := by
  obtain ⟨s1, steady1, entry, fresh, here, none, noRows, below, holds1⟩ :=
    holds.enterHandler dead entered
  obtain ⟨again, b2, ran, run⟩ := lift_bind_ok.mp run
  obtain ⟨s2, steady2, _, holds2⟩ := holds1.position ran
  obtain rfl : again = pc := (Asm.position_again none ran).trans here.symm
  obtain ⟨_, _, b3, covered, run⟩ := bind_ok.mp run
  obtain ⟨rfl, rfl, fits⟩ := coverBody_ok covered
  have steady := steady1.trans steady2
  -- The rows lie between positions that were known when the handler was entered.
  have positions : ∀ range ∈ bodyRanges start stop gaps,
      range.1 ∈ s2.observed ∧ range.2 ∈ s2.observed ∧ range.1 ≤ again := by
    intro range member
    obtain ⟨left, right⟩ := mem_bodyRanges first last known range member
    exact ⟨steady.known left, steady.known right, below _ left⟩
  have covers := covers_rowsFor fits (steady2.entries _ entry) positions
  obtain ⟨s3, grows3, _, entries3, catches3, holds3⟩ := holds2.rows covers
  obtain ⟨s4, tracks, holds4⟩ := (keeps_clause sound).run run holds3
  have rowless : Shuts (fun _ => True) (fun _ => True) s σ s4 σ' :=
    (Shuts.still steady.toGrows rfl).trans ((Shuts.still grows3 rfl).trans tracks.toShuts)
  have entered3 : again ∈ s3.entries := entries3 ▸ steady2.entries _ entry
  have ownRows : s3.buffer.rowsOf again =
      rowsFor again (clause.types.map some) (bodyRanges start stop gaps) := by
    have kept : b2.rowsOf again = [] := by
      have catches : b2.catches = b1.catches := Asm.catches_of_position ran
      unfold Buffer.rowsOf at noRows ⊢
      rw [catches]
      exact noRows
    rw [holds3.owns.buffer, Buffer.rowsOf_covered _ fits, kept, List.nil_append]
  refine ⟨s4, ⟨rowless, ?_⟩, holds4, tracks.grows.entries _ entered3, fresh, ?_, fits⟩
  · -- The rows of this handler are new, and so are those of the statements inside.
    obtain ⟨rows, same, later⟩ := tracks.rows
    refine ⟨rowsFor again (clause.types.map some) (bodyRanges start stop gaps) ++ rows, ?_, ?_⟩
    · rw [same, catches3, steady.catches, List.append_assoc]
    · intro row member old
      rcases List.mem_append.mp member with member | member
      · exact fresh ((mem_rowsFor fits member).2.1 ▸ old)
      · refine later row member ?_
        rw [entries3]
        exact steady.entries _ old
  · rw [← holds4.owns.buffer, tracks.rows.rowsOf entered3, ownRows]

theorem dead_of_endGap (dead : b.isAlive = false) (run : endGap depth mc σ ctx b = .ok (y, σ') b') :
    b'.isAlive = false := by
  rcases endGap_cases run with ⟨_, _, rfl⟩ | ⟨_, _, pc, asked, _⟩
  · exact dead
  · exact (Asm.position_of_dead dead asked).2

theorem keeps_endGap_zero :
    Keeps (Leaves (1 ≤ ·) fun _ => True) 0 (endGap 0) fun _ => 0 :=
  Yields.weaken keeps_endGap fun changed => changed.weaken fun i _ => by omega

theorem keeps_finalize_zero (sound : scope.Sound) :
    Keeps (Leaves (fun _ => True) (1 ≤ ·)) 0 (finalize 0 scope) fun _ => 0 :=
  Yields.weaken (keeps_finalize 0 sound) fun changed =>
    ⟨⟨changed.toMarks, fun shut => changed.shut fun i _ => shut i trivial⟩, changed.rows⟩

theorem Entered.later {types : List (Option BinaryName)} {kept : Multiset Nat}
    (entered : Entered b types ranges pc) (holds : Holds ctx s σ b owned)
    (holds' : Holds ctx s' σ' b' kept) (adds : Adds s s') (entry : pc ∈ s.entries) :
    Entered b' types ranges pc := by
  obtain rfl := holds.owns.buffer
  obtain rfl := holds'.owns.buffer
  exact ⟨(adds.rowsOf entry).trans entered.rows, entered.fits⟩

theorem Marks.sooner (marks : Marks k s σ s' σ') (above : k ≤ depth) :
    σ.gap depth <+: σ'.gap depth := by
  obtain ⟨_, _, gaps⟩ := marks.gaps
  obtain ⟨added, same, _⟩ := gaps depth above
  exact ⟨added, same.symm⟩

theorem leaveHandler_ok {isLast : Bool} (sound : scope.Sound) (inside : 0 < σ.records.length)
    (holds : Holds ctx s σ b (exit.pcs + owned))
    (run : leaveHandler scope exit isLast mc σ ctx b = .ok (exit', σ') b') :
    ∃ s', Tracks s σ s' σ' ∧ Holds ctx s' σ' b' (exit'.pcs + owned) ∧
      ((scope.hasFinalizer || !isLast) = true → b'.isAlive = false) ∧
      (σ.ShutAt 0 → scope.isInline = true → b.isAlive = true → Copied ctx (σ'.gap 0) b b') := by
  obtain ⟨_, σ1, b1, finalized, run⟩ := bind_ok.mp run
  obtain ⟨s1, leaves1, holds1⟩ := keeps_finalize_zero sound finalized (holds.mono (zero_add _).le) rfl
  have out : ∃ b2 s2 exit1, s1.Steady s2 ∧ Holds ctx s2 σ1 b2 (exit1.pcs + owned) ∧
      ((scope.hasFinalizer || !isLast) = true → b2.isAlive = false) ∧
      (do endGap 0; return exit1 : Lowering Chain) mc σ1 ctx b2 = .ok (exit', σ') b' := by
    by_cases more : (scope.hasFinalizer || !isLast) = true
    · rw [if_pos more] at run
      obtain ⟨jump, c, branched, run⟩ := lift_bind_ok.mp run
      obtain ⟨s2, steady2, holds2⟩ := holds1.asm (Asm.keeps_branch .goto) branched
      obtain ⟨exit1, d, merged, onward⟩ := lift_bind_ok.mp run
      have both : Holds ctx s2 σ1 c ((exit.pcs + jump.pcs) + owned) := by
        refine holds2.mono ?_
        rw [add_right_comm, add_comm]
      obtain ⟨s3, steady3, holds3⟩ := both.asm (Asm.keeps_mergeChains exit jump) merged
      obtain ⟨_, rfl⟩ := Asm.mergeChains_ok merged
      exact ⟨_, s3, exit1, steady2.trans steady3, holds3, fun _ => Asm.dead_of_goto branched, onward⟩
    · rw [if_neg more] at run
      exact ⟨b1, s1, exit, .refl s1, holds1.mono (zero_add _).ge, fun yes => absurd yes more, run⟩
  obtain ⟨b2, s2, exit1, steady2, holds2, stopped, run⟩ := out
  obtain ⟨_, σ3, b3, ended, run⟩ := bind_ok.mp run
  cases run
  obtain ⟨s3, leaves3, holds3⟩ := keeps_endGap_zero.run ended holds2
  exact ⟨s3, leaves1.trans ((Leaves.still steady2 rfl).trans leaves3), holds3,
    fun more => dead_of_endGap (stopped more) ended, fun shut inline alive =>
      copied_of_endGap sound inline alive shut inside holds finalized ended⟩

/-- The clauses of a statement as they are lowered one after another, each from where it is entered
to its way out. If the finalizer runs in line, each way out is as it should be. -/
def ClauseExits (out : Buffer → Buffer → Prop) (scope : Scope) (state : State) (start stop : Nat)
    (gaps : List (Nat × Option Nat)) (mc : MethodContext) (ctx : Context) :
    List Handler → List Nat → Chain → MethodState → Buffer → Prop
  | clause :: rest, pc :: pcs, exit, σ, b => ∃ b1 σ2 b2 exit1 σ3 b3,
    Asm.entryPointWith state (some (.ofFieldType clause.param.type)) ctx b = .ok pc b1 ∧
    genHandler clause start stop gaps mc σ ctx b1 = .ok ((), σ2) b2 ∧
    leaveHandler scope exit rest.isEmpty mc σ2 ctx b2 = .ok (exit1, σ3) b3 ∧
    (scope.isInline = true → b2.isAlive = true → out b2 b3) ∧
    ClauseExits out scope state start stop gaps mc ctx rest pcs exit1 σ3 b3
  | [], [], _, _, _ => True
  | _, _, _, _, _ => False

theorem ClauseExits.imp {out other : Buffer → Buffer → Prop} {pcs : List Nat}
    (more : ∀ b1 b2, out b1 b2 → other b1 b2)
    (exits : ClauseExits out scope state start stop gaps mc ctx clauses pcs exit σ b) :
    ClauseExits other scope state start stop gaps mc ctx clauses pcs exit σ b := by
  induction clauses generalizing pcs exit σ b with
  | nil => cases pcs <;> exact exits
  | cons clause rest ih =>
    cases pcs with
    | nil => exact exits
    | cons pc pcs =>
      obtain ⟨b1, σ2, b2, exit1, σ3, b3, entered, handled, left, safe, others⟩ := exits
      exact ⟨b1, σ2, b2, exit1, σ3, b3, entered, handled, left, fun inline alive =>
        more b2 b3 (safe inline alive), ih others⟩

/-- The clauses of a `try` statement, one after another. -/
theorem genHandlers_ok (whole : scope.Sound)
    (sound : ∀ clause ∈ clauses, Keeps Tracks 0 clause.code fun _ => 0)
    (inside : 0 < σ.records.length) (holds : Holds ctx s σ b (exit.pcs + owned))
    (dead : b.isAlive = false) (first : start ∈ s.observed) (last : stop ∈ s.observed)
    (known : OfGaps (· ∈ s.observed) gaps)
    (run : genHandlers scope state start stop gaps exit clauses mc σ ctx b = .ok (exit', σ') b') :
    ∃ s' pcs, Tracks s σ s' σ' ∧ Holds ctx s' σ' b' (exit'.pcs + owned) ∧
      (scope.hasFinalizer = true → b'.isAlive = false) ∧
      List.Forall₂ (fun clause pc => pc ∈ s'.entries ∧ pc ∉ s.entries ∧
        Entered b' (clause.types.map some) (bodyRanges start stop gaps) pc) clauses pcs ∧
      (σ.Shut → ClauseExits (Copied ctx (σ'.gap 0)) scope state start stop gaps mc ctx clauses pcs exit
        σ b) := by
  induction clauses generalizing s σ b exit with
  | nil =>
    cases run
    exact ⟨s, [], Change.Lawful.refl s _, holds, fun _ => dead, .nil, fun _ => trivial⟩
  | cons clause rest ih =>
    obtain ⟨_, _, b1, entering, run⟩ := bind_ok.mp run
    obtain ⟨pc, entered⟩ := discard_ok.mp entering
    obtain ⟨rfl, ran⟩ := lift_ok.mp entered
    obtain ⟨_, σ2, b2, handled, run⟩ := bind_ok.mp run
    obtain ⟨s2, tracks2, holds2, entry, fresh, own⟩ := handler_ok (sound clause (.head _))
      holds dead first last known ran handled
    obtain ⟨exit1, σ3, b3, left, run⟩ := bind_ok.mp run
    have inside2 : 0 < σ2.records.length := tracks2.size ▸ inside
    obtain ⟨s3, tracks3, holds3, dead3, copied⟩ := leaveHandler_ok whole inside2 holds2 left
    have through : Tracks s σ s3 σ3 := Leaves.trans tracks2 tracks3
    have own3 := own.later holds2 holds3 tracks3.rows entry
    have entry3 := tracks3.grows.entries pc entry
    have copied (shut : σ.Shut) := copied (tracks2.shut (fun i _ => shut i) 0 trivial)
    cases rest with
    | nil =>
      cases run
      exact ⟨s3, [pc], through, holds3, fun has => dead3 (by rw [has]; rfl),
        .cons ⟨entry3, fresh, own3⟩ .nil, fun shut => ⟨_, _, _, _, _, _, ran, handled, left, copied shut,
          trivial⟩⟩
    | cons next others =>
      have extends_ := through.grows.toExtends
      obtain ⟨s4, pcs, tracks4, holds4, stopped4, entered4, exits4⟩ := ih
        (fun clause member => sound clause (.tail _ member))
        (tracks3.size ▸ inside2) holds3 (dead3 (by simp)) (extends_.known first)
        (extends_.known last)
        (fun gap member => ⟨extends_.known (known gap member).1,
          fun stop same => extends_.known ((known gap member).2 stop same)⟩) run
      refine ⟨s4, pc :: pcs, Leaves.trans through tracks4, holds4, stopped4,
        .cons ⟨tracks4.grows.entries pc entry3, fresh, ?_⟩ ?_, fun shut => ?_⟩
      · exact own3.later holds3 holds4 tracks4.rows entry3
      · exact entered4.imp fun clause pc ⟨entry, new, own⟩ =>
          ⟨entry, fun old => new (extends_.entries pc old), own⟩
      · refine ⟨_, _, _, _, _, _, ran, handled, left, fun inline alive => ?_, exits4 fun i => ?_⟩
        · exact (copied shut inline alive).later (tracks4.toMarks.sooner (Nat.zero_le 0))
        · exact through.shut (fun j _ => shut j) i trivial

theorem Holds.clearGaps (holds : Holds ctx s σ b owned) :
    Holds ctx s { σ with records := σ.records.modify 0 fun record => { record with gaps := #[] } } b
      owned :=
  holds.change (by rfl) fun p gap => absurd gap List.not_mem_nil

/-- The statements around the innermost one are left as a statement leaves them. -/
structure Within (s : Session) (σ : MethodState) (s' : Session) (σ' : MethodState) : Prop where
  marks : Marks 1 s σ s' σ'
  shut : σ.Shut → ∀ i, 1 ≤ i → σ'.ShutAt i
  rows : Adds s s'

theorem Tracks.within (tracks : Tracks s σ s' σ') : Within s σ s' σ' :=
  ⟨tracks.toMarks.weaken, fun shut i _ => tracks.shut (fun i _ => shut i) i trivial, tracks.rows⟩

theorem Within.after (tracks : Tracks s σ s1 σ1) (within : Within s1 σ1 s' σ') :
    Within s σ s' σ' where
  marks := tracks.toMarks.weaken.trans within.marks
  shut shut := within.shut fun i => tracks.shut (fun i _ => shut i) i trivial
  rows := tracks.rows.trans within.rows tracks.grows.toExtends

theorem Within.still (within : Within s σ s1 σ1) (still : Still s1 σ1 s' σ') :
    Within s σ s' σ' where
  marks := within.marks.trans (.still still.steady.toGrows still.gaps)
  shut shut i above := by
    unfold MethodState.ShutAt
    rw [MethodState.gap_congr still.gaps]
    exact within.shut shut i above
  rows := within.rows.trans (.same (congrArg _ still.steady.catches)) within.marks.grows.toExtends

theorem Within.enclosed (within : Within s { σ with records := {} :: σ.records } s' σ') :
    Tracks s σ s' { σ' with records := σ'.records.drop 1 } := by
  refine ⟨⟨within.marks.enclosed, fun shut i _ => ?_⟩, within.rows⟩
  unfold MethodState.ShutAt
  rw [MethodState.gap_drop]
  refine within.shut (fun i => ?_) _ (Nat.le_add_right 1 i)
  cases i with
  | zero => rfl
  | succ i => exact shut i trivial

theorem keeps_genSubroutine {finalizer : Finalizer} (calls : Chain) (sound : scope.Sound)
    (has : scope.finalizer? = some finalizer) :
    Keeps (Beyond 1) calls.pcs (genSubroutine calls finalizer) fun _ => 0 := by
  refine (keeps_resolve calls).bind (fun _ => ?_) (add_zero _).le
  refine Yields.mono ?_ (Multiset.zero_le _)
  refine (keeps_markStatement _).next fun _ => (keeps_temporary _).next fun address => ?_
  refine (keeps_emit _).next fun _ => ?_
  exact (keeps_outer 1 sound has).next fun _ => keeps_emit _

/-- What is added to a gap is in order, and it lies behind everything that was known before. -/
theorem Marks.gained (marks : Marks k s σ s' σ') (holds : Holds ctx s' σ' b' owned)
    (above : k ≤ depth) (same : σ'.gap depth = σ.gap depth ++ added) :
    added.Pairwise (· ≤ ·) ∧ ∀ p ∈ added, p ∈ s'.observed ∧ ∀ q ∈ s.observed, q ≤ p := by
  obtain ⟨seen, observed, gaps⟩ := marks.gaps
  obtain ⟨added', same', sub⟩ := gaps depth above
  obtain rfl : added = added' := List.append_cancel_left (same.symm.trans same')
  have sorted := holds.owns.sound.stands.upright.sorted
  rw [observed] at sorted ⊢
  obtain ⟨inside, _, behind⟩ := List.pairwise_append.mp sorted
  refine ⟨List.pairwise_reverse.mp (inside.sublist sub), fun p member => ?_⟩
  have here : p ∈ seen := sub.subset (List.mem_reverse.mpr member)
  exact ⟨List.mem_append_left _ here, behind p here⟩

theorem coverCatchAll (holds : Holds ctx s σ b owned) (dead : b.isAlive = false)
    (first : start ∈ s.observed) (known : OfGaps (· ∈ s.observed) gaps)
    (segment : Asm.newSegment ctx b = .ok () b1)
    (entered : Asm.entryPointWith state pushed ctx b1 = .ok pc b2)
    (run : coverBetween pc start gaps mc σ ctx b2 = .ok (last, σ') b') :
    ∃ s', s.Grows s' ∧ AddsFor pc s s' ∧ σ = σ' ∧ Holds ctx s' σ b' owned ∧ pc ∈ s'.entries ∧
      pc ∈ s'.observed ∧ pc ∉ s.entries ∧ b'.isAlive = true ∧ last = afterGaps start gaps ∧
      last ∈ s'.observed ∧ last ≤ pc ∧ Entered b' [none] (rangesBetween start gaps) pc := by
  obtain ⟨s1, steady1, holds1⟩ := holds.note .newSegment trivial rfl segment
  have dead1 : b1.isAlive = false := (Asm.isAlive_of_note .newSegment ⟨nofun, nofun⟩ segment).trans dead
  obtain ⟨s2, steady2, entry, fresh, here, _, noRows, below, holds2⟩ :=
    holds1.enterHandler dead1 entered
  obtain ⟨rfl, rfl, fits, rfl⟩ := coverBetween_ok run
  have steady := steady1.trans steady2
  have seen : pc ∈ s2.observed := holds2.owns.sound.stands.upright.noted pc entry
  obtain ⟨ranges, lastKnown⟩ := mem_rangesBetween first known
  have covers : ∀ row ∈ rowsFor pc [none] (rangesBetween start gaps), s2.Covers row :=
    covers_rowsFor fits entry fun range member =>
      ⟨steady.known (ranges range member).1, steady.known (ranges range member).2,
        below _ (steady1.known (ranges range member).1)⟩
  obtain ⟨s3, grows3, observed3, entries3, catches3, holds3⟩ := holds2.rows covers
  refine ⟨s3, steady.toGrows.trans grows3, ?_, rfl, holds3, entries3 ▸ entry, observed3 ▸ seen,
    fun old => fresh (steady1.entries pc old), ?_, rfl, observed3 ▸ steady.known lastKnown,
    below _ (steady1.known lastKnown), ?_, fits⟩
  · refine (AddsFor.ofSteady steady).trans ⟨_, catches3, fun row member => ?_⟩ steady.toExtends
    exact .inl (mem_rowsFor fits member).2.1
  · obtain ⟨c, _, rfl⟩ := Asm.entryPointWith_ok entered
    rfl
  · rw [Buffer.rowsOf_covered _ fits, noRows, List.nil_append]

theorem keepException {type : VType} (holds : Holds ctx s σ b owned) (alive : b.isAlive = true)
    (lined : beginFinalizer scope mc σ ctx b = .ok ((), σ1) b1)
    (marked : Asm.markLine ctx b1 = .ok () b2)
    (reserved : Asm.newLocal type none ctx b2 = .ok exception b3)
    (stored : Asm.emit (.store .ref exception) ctx b3 = .ok () b') :
    ∃ s', s.Steady s' ∧ σ = σ1 ∧ b'.isAlive = true ∧ Holds ctx s' σ b' owned := by
  have line : ∃ s1, s.Steady s1 ∧ σ = σ1 ∧ b1.isAlive = true ∧ Holds ctx s1 σ b1 owned := by
    unfold beginFinalizer at lined
    cases found : scope.finalizer? with
    | some finalizer =>
      rw [found] at lined
      obtain ⟨rfl, began⟩ := lift_ok.mp lined
      obtain ⟨s1, steady, holds1⟩ := holds.note (.beginStatement _) trivial rfl began
      exact ⟨s1, steady, rfl,
        (Asm.isAlive_of_note (.beginStatement _) ⟨nofun, nofun⟩ began).trans alive, holds1⟩
    | none =>
      rw [found] at lined
      cases lined
      exact ⟨s, .refl s, rfl, alive, holds⟩
  obtain ⟨s1, steady1, rfl, alive1, holds1⟩ := line
  obtain ⟨s2, steady2, holds2⟩ := holds1.note .markLine trivial rfl marked
  have alive2 := (Asm.isAlive_of_note .markLine ⟨nofun, nofun⟩ marked).trans alive1
  obtain ⟨s3, steady3, holds3⟩ := holds2.spend (Asm.keeps_newLocal type none) reserved
  have alive3 : b3.isAlive = true := by
    have core := (Asm.newLocal_ok reserved).core_eq
    have alive : b3.alive = b2.alive := congrArg Buffer.Core.alive core
    have pending : b3.pending = b2.pending := congrArg Buffer.Core.pending core
    rw [← alive2]
    simp only [Buffer.isAlive, alive, pending]
  obtain ⟨s4, steady4, holds4⟩ := holds3.spend (Asm.keeps_emit _) stored
  exact ⟨s4, steady1.trans (steady2.trans (steady3.trans steady4)), rfl, Asm.alive_of_emit alive3 rfl stored,
    holds4⟩

theorem Scope.marks_of_hasFinalizer (has : scope.hasFinalizer = true) :
    Scope.marks scope = true := by
  cases scope with
  | guarded finalizer subroutine => rfl
  | synchronized lock => rfl
  | loop | switch | labelled label => cases has

theorem firstGap_ok {found : Nat} (same : σ.gap 0 = [own])
    (run : firstGap mc σ ctx b = .ok (found, σ') b') : own = found ∧ σ = σ' ∧ b = b' := by
  rw [firstGap, record_bind] at run
  have first : (σ.records.getD 0 {}).gaps[0]? = some own := by
    rw [← Array.getElem?_toList]
    change (σ.gap 0)[0]? = some own
    rw [same]
    rfl
  rw [first] at run
  exact pure_ok.mp run

theorem Marks.cleared (same : { σ with records := σ.records.modify 0 fun record =>
      { record with gaps := #[] } } = σ') : Marks 1 s σ s σ' where
  grows := .refl s
  size := by
    rw [← same]
    exact List.length_modify ..
  gaps := ⟨[], rfl, fun depth above => ⟨[], by
    rw [← same, MethodState.gap_modify, if_neg (by omega), List.append_nil], .slnil⟩⟩

/-- The handler for any exception is entered with no gaps recorded. -/
theorem enterCatchAll_ok (inside : 0 < σ.records.length) (holds : Holds ctx s σ b owned)
    (dead : b.isAlive = false) (first : start ∈ s.observed)
    (run : enterCatchAll scope state start mc σ ctx b = .ok ((exception, last, pc), σ') b') :
    ∃ s', s.Grows s' ∧ AddsFor pc s s' ∧
      { σ with records := σ.records.modify 0 fun record => { record with gaps := #[] } } = σ' ∧
      σ'.gap 0 = [] ∧ Holds ctx s' σ' b' owned ∧ pc ∈ s'.entries ∧ pc ∈ s'.observed ∧
      pc ∉ s.entries ∧ b'.isAlive = true ∧ last = afterGaps start (gapPairs (σ.gap 0)) ∧
      last ∈ s'.observed ∧ last ≤ pc ∧
      Entered b' [none] (rangesBetween start (gapPairs (σ.gap 0))) pc := by
  obtain ⟨_, b1, segment, run⟩ := lift_bind_ok.mp run
  obtain ⟨handler, b2, entered, run⟩ := lift_bind_ok.mp run
  rw [record_bind] at run
  obtain ⟨_, σ1, _, changed, run⟩ := bind_ok.mp run
  obtain ⟨cleared, rfl⟩ := changeRecord_ok.mp changed
  obtain ⟨_, _, b3, covered, run⟩ := bind_ok.mp run
  have known : OfGaps (· ∈ s.observed) (gapPairs (σ.gap 0)) := ofGaps_gapPairs (holds.gap 0)
  have holds0 : Holds ctx s σ1 b owned := cleared ▸ holds.clearGaps
  obtain ⟨s3, grows3, adds3, rfl, holds3, entry3, seen3, fresh, alive3, rfl, lastSeen, lastLe, own3⟩ :=
    coverCatchAll holds0 dead first known segment entered covered
  obtain ⟨_, _, b4, lined, run⟩ := bind_ok.mp run
  obtain ⟨_, b5, marked, run⟩ := lift_bind_ok.mp run
  obtain ⟨_, b6, reserved, run⟩ := lift_bind_ok.mp run
  obtain ⟨_, b7, stored, run⟩ := lift_bind_ok.mp run
  obtain ⟨same, rfl, rfl⟩ := pure_ok.mp run
  cases same
  obtain ⟨s7, steady7, rfl, alive7, holds7⟩ := keepException holds3 alive3 lined marked reserved stored
  refine ⟨s7, grows3.trans steady7.toGrows, adds3.trans (.ofSteady steady7) grows3.toExtends, cleared,
    ?_, holds7, steady7.entries _ entry3, steady7.known seen3, fresh, alive7, rfl,
    steady7.known lastSeen, lastLe, ?_⟩
  · rw [← cleared, MethodState.gap_modify, if_pos ⟨rfl, inside⟩]
  · exact own3.later holds3 holds7 (.same (congrArg _ steady7.catches)) entry3

theorem rethrow_ok (holds : Holds ctx s σ b owned) (gap : σ.gap 0 = [own]) (entry : pc ∈ s.entries)
    (known : last ∈ s.observed) (seen : own ∈ s.observed) (ordered : last ≤ pc)
    (entered : Entered b [none] ranges pc)
    (run : rethrow exception last pc mc σ ctx b = .ok (y, σ') b') :
    ∃ s', s.Grows s' ∧ AddsFor pc s s' ∧ σ = σ' ∧ Holds ctx s' σ b' owned ∧
      Entered b' [none] (ranges ++ oneRange last own) pc := by
  obtain ⟨_, b1, flushed, run⟩ := lift_bind_ok.mp run
  obtain ⟨stop, _, _, found, run⟩ := bind_ok.mp run
  obtain ⟨rfl, rfl, rfl⟩ := firstGap_ok gap found
  obtain ⟨_, b2, loaded, run⟩ := lift_bind_ok.mp run
  -- The pending jumps are resolved by the instruction that follows anyway.
  obtain ⟨s2, steady2, holds2⟩ := holds.spend (Asm.keeps_emit _) (Asm.emit_of_flushed flushed loaded)
  obtain ⟨_, _, b3, covering, run⟩ := bind_ok.mp run
  obtain ⟨rfl, rfl, fits⟩ := cover_ok covering
  have covers : ∀ row ∈ rowsFor pc [none] (oneRange last own), s2.Covers row := by
    refine covers_rowsFor fits (steady2.entries pc entry) fun range member => ?_
    obtain ⟨rfl, _⟩ := mem_oneRange member
    exact ⟨steady2.known known, steady2.known seen, ordered⟩
  obtain ⟨s3, grows3, _, entries3, catches3, holds3⟩ := holds2.rows covers
  obtain ⟨rfl, thrown⟩ := lift_ok.mp run
  obtain ⟨s4, steady4, holds4⟩ := holds3.spend (Asm.keeps_emit _) thrown
  refine ⟨s4, steady2.toGrows.trans (grows3.trans steady4.toGrows), ?_, rfl, holds4, ?_⟩
  · refine (AddsFor.ofSteady steady2).trans (AddsFor.trans ⟨_, catches3, fun row member => ?_⟩
      (.ofSteady steady4) grows3.toExtends) steady2.toExtends
    exact .inl (mem_rowsFor fits member).2.1
  · have own2 := entered.later holds holds2 (.same (congrArg _ steady2.catches)) entry
    refine Entered.later ⟨?_, own2.fits.append fits⟩ holds3 holds4
      (.same (congrArg _ steady4.catches)) (entries3 ▸ steady2.entries pc entry)
    rw [Buffer.rowsOf_covered _ fits, own2.rows, rowsFor_append]

theorem placeSubroutine_ok (sound : scope.Sound) (holds : Holds ctx s σ b owned)
    (run : placeSubroutine scope mc σ ctx b = .ok (y, σ') b') :
    ∃ s', Beyond 1 s σ s' σ' ∧ Holds ctx s' σ' b' owned := by
  rw [placeSubroutine, record_bind] at run
  obtain ⟨_, σ1, _, emptied, run⟩ := bind_ok.mp run
  obtain ⟨taken, rfl⟩ := changeRecord_ok.mp emptied
  have holds1 : Holds ctx s σ1 b ((σ.records.getD 0 {}).calls.pcs + owned) :=
    taken ▸ holds.takeOut .calls 0
  have same : Beyond 1 s σ s σ1 :=
    Change.Lawful.still (.refl s) (taken ▸ gaps_modify 0 fun _ => rfl)
  have skipped : (pure () : Lowering Unit) mc σ1 ctx b = .ok (y, σ') b' →
      ∃ s', Beyond 1 s σ s' σ' ∧ Holds ctx s' σ' b' owned := by
    intro ran
    cases ran
    exact ⟨s, same, holds1.mono (Multiset.le_add_left _ _)⟩
  cases none : List.isEmpty (σ.records.getD 0 {}).calls with
  | true =>
    rw [none] at run
    exact skipped run
  | false =>
    cases found : scope.finalizer? with
    | none =>
      rw [none, found] at run
      exact skipped run
    | some finalizer =>
      rw [none, found] at run
      obtain ⟨s', beyond, holds'⟩ := keeps_genSubroutine _ sound found run holds1 rfl
      exact ⟨s', Change.Lawful.trans same beyond, holds'.mono (zero_add _).ge⟩

/-- What is known about the catch-all handler after it has been lowered. Its last range stops where
its own gap starts. -/
structure Catches (s : Session) (b : Buffer) (start : Nat) (gaps : List Nat) (pc own : Nat) :
    Prop where
  fresh : pc ∉ s.entries
  entered : Entered b [none] (rangesBetween start (gapPairs gaps) ++
    oneRange (afterGaps start (gapPairs gaps)) own) pc
  inside : pc ≤ own
  behind : ∀ p ∈ s.observed, p ≤ own

/-- The catch-all handler as it is lowered. If the finalizer runs in line, its copy starts the gap. -/
def CatchAllRun (scope : Scope) (state : State) (start : Nat) (mc : MethodContext) (ctx : Context)
    (σ : MethodState) (b : Buffer) (pc own : Nat) : Prop :=
  ∃ exception last σ1 b1 σ2 b2,
    enterCatchAll scope state start mc σ ctx b = .ok ((exception, last, pc), σ1) b1 ∧
    finalize 0 scope mc σ1 ctx b1 = .ok ((), σ2) b2 ∧ σ2.gap 0 = [own] ∧
    (scope.isInline = true → ∃ c, Asm.position ctx b1 = .ok own c)

/-- The handler that runs the finalizer on any exception. The gap of its own copy starts the list of
gaps anew. -/
theorem genCatchAll_ok (sound : scope.Sound) (has : scope.hasFinalizer = true)
    (inside : 0 < σ.records.length) (holds : Holds ctx s σ b owned) (dead : b.isAlive = false)
    (first : start ∈ s.observed) (run : genCatchAll scope state start mc σ ctx b = .ok (y, σ') b') :
    ∃ s' pc own, Within s σ s' σ' ∧ Holds ctx s' σ' b' owned ∧ pc ∈ s'.entries ∧
      Catches s b' start (σ.gap 0) pc own ∧ CatchAllRun scope state start mc ctx σ b pc own := by
  obtain ⟨⟨exception, last, pc⟩, σ1, b1, began, run⟩ := bind_ok.mp run
  obtain ⟨s1, grows1, adds1, cleared, empty, holds1, entry1, seen1, fresh, alive1, rfl, lastSeen, lastLe,
    own1⟩ := enterCatchAll_ok inside holds dead first began
  have inside1 : 0 < σ1.records.length := by
    rw [← cleared]
    exact (List.length_modify ..).symm ▸ inside
  obtain ⟨_, σ2, b2, finalized, run⟩ := bind_ok.mp run
  obtain ⟨s2, opens, holds2⟩ := finalize_opens sound (Scope.marks_of_hasFinalizer has) alive1 holds1
    finalized
  obtain ⟨own, opened⟩ := opens.gap inside1
  rw [empty, List.nil_append] at opened
  obtain ⟨ownSeen, behind⟩ := (opens.toMarks.gained holds2 (Nat.zero_le 0)
    (by rw [opened, empty, List.nil_append])).2 own (.head _)
  have own2 := own1.later holds1 holds2 opens.rows entry1
  have sofar := opens.grows.toExtends
  obtain ⟨_, _, b3, throwing, run⟩ := bind_ok.mp run
  obtain ⟨s3, grows3, adds3, rfl, holds3, own3⟩ := rethrow_ok holds2 opened (sofar.entries pc entry1)
    (sofar.known lastSeen) ownSeen lastLe own2 throwing
  obtain ⟨s', beyond, holds'⟩ := placeSubroutine_ok sound holds3 run
  have later : s1.Extends s3 := sofar.trans grows3.toExtends
  have through : Shuts (0 ≤ ·) (1 ≤ ·) s σ1 s' σ' :=
    (Shuts.still grows1 rfl).trans (opens.toShuts.trans ((Shuts.still grows3 rfl).trans beyond.toShuts))
  refine ⟨s', pc, own, ⟨?_, ?_, ?_⟩, holds', ?_, ⟨fresh, ?_, ?_, ?_⟩,
    ⟨exception, _, σ1, b1, σ2, b2, began, finalized, opened, fun inline => ?_⟩⟩
  · exact (Marks.cleared cleared).trans through.toMarks.weaken
  · intro shut
    refine through.shut fun i _ => ?_
    unfold MethodState.ShutAt
    rw [← cleared, MethodState.gap_modify]
    split
    · rfl
    · exact shut i
  · refine AddsFor.adds ?_ fresh
    refine adds1.trans ((AddsFor.ofAdds opens.rows).trans (adds3.trans (.ofAdds beyond.rows)
      grows3.toExtends) sofar) grows1.toExtends
  · exact (later.trans beyond.grows.toExtends).entries pc entry1
  · exact own3.later holds3 holds' beyond.rows (later.entries pc entry1)
  · exact behind pc seen1
  · exact fun p known => behind p (grows1.known known)
  · obtain ⟨p, c, asked, here⟩ := finalize_inline sound inline alive1 inside1 holds1 finalized
    rw [opened, empty] at here
    cases here
    exact ⟨c, asked⟩

theorem Holds.le_latest (holds : Holds ctx s' σ b owned) (latest : s'.observed = pc :: s.observed)
    (known : p ∈ s.observed) : p ≤ pc := by
  have sorted := holds.owns.sound.stands.upright.sorted
  rw [latest] at sorted
  exact (List.pairwise_cons.mp sorted).1 p known

theorem Beyond.tracks (beyond : Beyond 1 s σ s' σ') : Tracks s σ s' σ' := by
  refine ⟨⟨beyond.toMarks, fun shut i _ => ?_⟩, beyond.rows⟩
  cases i with
  | zero =>
    unfold MethodState.ShutAt
    rw [beyond.inner 0 Nat.zero_lt_one]
    exact shut 0 trivial
  | succ i => exact beyond.shut (fun j _ => shut j trivial) (i + 1) (Nat.le_add_left 1 i)

theorem keeps_finalizeBody (sound : scope.Sound) (isEmptyTry : Bool) :
    Keeps (Leaves (fun _ => True) (1 ≤ ·)) 0 (finalizeBody scope isEmptyTry) fun _ => 0 := by
  unfold finalizeBody
  split
  · next finalizer =>
    split
    · refine keeps_isAlive.ahead fun alive => ?_
      split
      · exact Yields.weaken (keeps_outer 1 sound rfl) fun beyond =>
          (Beyond.tracks beyond).weaken fun _ _ => trivial
      · exact keeps_idle _ fun _ _ => trivial
    · exact keeps_finalize_zero sound
  · exact keeps_finalize_zero sound

theorem leaveBody_ok (sound : scope.Sound) (inside : 0 < σ.records.length)
    (holds : Holds ctx s σ b owned)
    (run : leaveBody scope isEmptyTry mc σ ctx b = .ok (exit, σ') b') :
    ∃ s', Tracks s σ s' σ' ∧ Holds ctx s' σ' b' (exit.pcs + owned) ∧
      (isEmptyTry = false → b'.isAlive = false) ∧
      (σ.ShutAt 0 → scope.isInline = true → b.isAlive = true → Copied ctx (σ'.gap 0) b b') := by
  obtain ⟨_, σ1, b1, finalized, run⟩ := bind_ok.mp run
  obtain ⟨s1, leaves1, holds1⟩ :=
    keeps_finalizeBody sound isEmptyTry finalized (holds.mono (zero_add owned).le) rfl
  obtain ⟨jump, b2, jumped, run⟩ := lift_bind_ok.mp run
  obtain ⟨s2, steady2, holds2⟩ := holds1.asm (Asm.keeps_branch _) jumped
  obtain ⟨_, σ3, b3, ended, run⟩ := bind_ok.mp run
  cases run
  obtain ⟨s3, leaves3, holds3⟩ := keeps_endGap_zero.run ended holds2
  refine ⟨s3, leaves1.trans ((Leaves.still steady2 rfl).trans leaves3), holds3,
    fun full => ?_, fun shut inline alive => ?_⟩
  · rw [full] at jumped
    exact dead_of_endGap (Asm.dead_of_goto jumped) ended
  · rw [finalizeBody_inline inline] at finalized
    exact copied_of_endGap sound inline alive shut inside holds finalized ended

/-- The rest of a protected statement after its clauses. -/
theorem closeGuarded_ok {limit : UInt16} (sound : scope.Sound) (inside : 0 < σ.records.length)
    (holds : Holds ctx s σ b (exit.pcs + owned))
    (dead : (scope.hasFinalizer && !isEmptyTry) = true → b.isAlive = false)
    (first : start ∈ s.observed) (run : (do
      if scope.hasFinalizer && !isEmptyTry then genCatchAll scope state start
      Asm.resolve exit
      Asm.endScopes limit : Lowering Unit) mc σ ctx b = .ok (y, σ') b') :
    ∃ s', Within s σ s' σ' ∧ Holds ctx s' σ' b' owned ∧
      ((scope.hasFinalizer && !isEmptyTry) = true →
        ∃ pc own, Catches s b' start (σ.gap 0) pc own ∧
          CatchAllRun scope state start mc ctx σ b pc own) := by
  have close {s1 : Session} {σ1 : MethodState} {b1 : Buffer}
      (holds1 : Holds ctx s1 σ1 b1 (exit.pcs + owned)) (ran : (do
        Asm.resolve exit
        Asm.endScopes limit : Lowering Unit) mc σ1 ctx b1 = .ok (y, σ') b') :
      ∃ s', Still s1 σ1 s' σ' ∧ Holds ctx s' σ' b' owned := by
    have keeps : Keeps Still exit.pcs (do
        Asm.resolve exit
        Asm.endScopes limit : Lowering Unit) fun _ => 0 :=
      (keeps_resolve exit).bind (fun _ => (keeps_endScopes limit).mono (Multiset.zero_le _))
        (add_zero _).le
    obtain ⟨s', still, holds'⟩ := keeps ran holds1 rfl
    exact ⟨s', still, holds'.mono (zero_add owned).ge⟩
  by_cases guarded : (scope.hasFinalizer && !isEmptyTry) = true
  · rw [if_pos guarded] at run
    obtain ⟨_, σ1, b1, caught, run⟩ := bind_ok.mp run
    have has : scope.hasFinalizer = true := (Bool.and_eq_true_iff.mp guarded).1
    obtain ⟨s1, pc, own, within, holds1, entry, catches, caughtAll⟩ :=
      genCatchAll_ok sound has inside holds (dead guarded) first caught
    obtain ⟨s2, still, holds2⟩ := close holds1 run
    refine ⟨s2, within.still still, holds2, fun _ =>
      ⟨pc, own, { catches with entered := ?_ }, caughtAll⟩⟩
    exact catches.entered.later holds1 holds2 (.same (congrArg _ still.steady.catches)) entry
  · rw [if_neg guarded] at run
    obtain ⟨s2, still, holds2⟩ := close holds run
    have tracks : Tracks s σ s2 σ' := .still still.steady still.gaps
    exact ⟨s2, tracks.within, holds2, fun yes => absurd yes guarded⟩

theorem genClauses_ok (whole : scope.Sound)
    (sound : ∀ clause ∈ clauses, Keeps Tracks 0 clause.code fun _ => 0)
    (inside : 0 < σ.records.length) (holds : Holds ctx s σ b (exit.pcs + owned))
    (dead : start ≠ stop → b.isAlive = false) (first : start ∈ s.observed)
    (last : stop ∈ s.observed) (known : OfGaps (· ∈ s.observed) gaps)
    (run : genClauses scope state start stop gaps exit clauses mc σ ctx b = .ok (exit', σ') b') :
    ∃ s', Tracks s σ s' σ' ∧ Holds ctx s' σ' b' (exit'.pcs + owned) ∧ (start = stop → b = b') ∧
      (start ≠ stop → (scope.hasFinalizer = true → b'.isAlive = false) ∧
        ∃ pcs, List.Forall₂ (fun clause pc => pc ∈ s'.entries ∧ pc ∉ s.entries ∧
          Entered b' (clause.types.map some) (bodyRanges start stop gaps) pc) clauses pcs ∧
          (σ.Shut → ClauseExits (Copied ctx (σ'.gap 0)) scope state start stop gaps mc ctx clauses pcs
            exit σ b)) := by
  unfold genClauses at run
  by_cases empty : start = stop
  · rw [if_neg (by simpa using empty)] at run
    cases run
    exact ⟨s, Change.Lawful.refl s σ, holds, fun _ => rfl, fun differ => absurd empty differ⟩
  · rw [if_pos (by simpa using empty)] at run
    obtain ⟨s', pcs, tracks, holds', stopped, entered, exits⟩ := genHandlers_ok whole sound inside holds
      (dead empty) first last known run
    exact ⟨s', tracks, holds', fun same => absurd same empty, fun _ => ⟨stopped, pcs, entered, exits⟩⟩

/-- Gaps that are recorded before and after a position lie before and after it. -/
theorem sorted_gaps {s2 s3 s4 : Session} {σ2 σ4 : MethodState} {b4 : Buffer}
    {before after : Multiset Nat} {outer : List Nat} (none : σ1.gap 0 = [])
    (started : start ∈ s1.observed) (body : Tracks s1 σ1 s2 σ2) (holds2 : Holds ctx s2 σ2 b2 before)
    (latest : s3.observed = stop :: s2.observed) (holds3 : Holds ctx s3 σ2 b3 owned)
    (rest : Tracks s3 σ2 s4 σ4) (holds4 : Holds ctx s4 σ4 b4 after)
    (more : σ4.gap 0 = σ2.gap 0 ++ outer) :
    (start :: (σ2.gap 0 ++ stop :: outer)).Pairwise (· ≤ ·) := by
  obtain ⟨inner, behind⟩ := body.toMarks.gained holds2 (Nat.zero_le 0)
    (show σ2.gap 0 = σ1.gap 0 ++ σ2.gap 0 by rw [none, List.nil_append])
  obtain ⟨outerSorted, outside⟩ := rest.toMarks.gained holds4 (Nat.zero_le 0) more
  have known : start ∈ s2.observed := body.grows.known started
  have older : ∀ p ∈ s2.observed, p ∈ s3.observed := fun p seen =>
    latest ▸ List.mem_cons_of_mem _ seen
  have within : ∀ p ∈ σ2.gap 0, p ∈ s3.observed ∧ start ≤ p ∧ p ≤ stop := by
    intro p gap
    obtain ⟨here, behind⟩ := behind p gap
    exact ⟨older p here, behind start started, holds3.le_latest latest here⟩
  have ends : stop ∈ s3.observed := latest ▸ (.head _)
  refine List.pairwise_cons.mpr ⟨fun p member => ?_, List.pairwise_append.mpr
    ⟨inner, List.pairwise_cons.mpr ⟨fun p gap => (outside p gap).2 stop ends, outerSorted⟩,
      fun p gap q member => ?_⟩⟩
  · rcases List.mem_append.mp member with gap | member
    · exact (within p gap).2.1
    · rcases List.mem_cons.mp member with rfl | gap
      · exact holds3.le_latest latest known
      · exact (outside p gap).2 start (older start known)
  · rcases List.mem_cons.mp member with rfl | later
    · exact (within p gap).2.2
    · exact (outside q later).2 p (within p gap).1

/-- The body of a protected statement with its way out, as they are lowered. -/
structure BodyRun (scope : Scope) (body : Lowering Unit) (isTry : Bool) (mc : MethodContext)
    (ctx : Context) (σ : MethodState) (b : Buffer) (start stop : Nat) (b1 : Buffer)
    (σ1 : MethodState) (b2 : Buffer) (exit : Chain) (σ2 : MethodState) (b3 : Buffer) : Prop where
  starts : Asm.position ctx b = .ok start b1
  stops : ∃ c, body mc σ ctx b1 = .ok ((), σ1) c ∧ Asm.position ctx c = .ok stop b2
  left : leaveBody scope (start == stop && isTry) mc σ1 ctx b2 = .ok (exit, σ2) b3

/-- What is known about a protected statement after it has been lowered: where its body starts and
stops, and the gaps up to there and from there on. -/
structure Protected (scope : Scope) (handlers : List Handler) (isTry : Bool) (mc : MethodContext)
    (ctx : Context) (s : Session) (σ : MethodState) (b' : Buffer) (start stop : Nat)
    (inner outer : List Nat) (b1 : Buffer) (σ1 : MethodState) (b2 : Buffer) (exit : Chain)
    (σ2 : MethodState) (b3 : Buffer) : Prop where
  gaps : σ1.gap 0 = inner
  sorted : (start :: (inner ++ stop :: outer)).Pairwise (· ≤ ·)
  paired : σ.Shut → inner.length % 2 = 0 ∧ outer.length % 2 = 0
  copied : σ.Shut → scope.isInline = true → b2.isAlive = true → Copied ctx (inner ++ outer) b2 b3
  clauses : start ≠ stop → ∃ pcs, List.Forall₂ (fun clause pc => pc ∉ s.entries ∧
    Entered b' (clause.types.map some) (bodyRanges start stop (gapPairs inner)) pc) handlers pcs ∧
    (σ.Shut → ClauseExits (Copied ctx (inner ++ outer)) scope b1.state start stop (gapPairs inner) mc
      ctx handlers pcs exit σ2 b3)
  catchAll : (scope.hasFinalizer && !(start == stop && isTry)) = true → ∃ pc own exit' σ3 b4,
    Catches s b' start (inner ++ outer) pc own ∧ (∀ p ∈ inner ++ stop :: outer, p ≤ own) ∧
    genClauses scope b1.state start stop (gapPairs inner) exit handlers mc σ2 ctx b3 =
      .ok (exit', σ3) b4 ∧ σ3.gap 0 = inner ++ outer ∧
    CatchAllRun scope b1.state start mc ctx σ3 b4 pc own

theorem genGuarded_ok (whole : scope.Sound) (sound : Keeps Tracks 0 body fun _ => 0)
    (clauses : ∀ clause ∈ handlers, Keeps Tracks 0 clause.code fun _ => 0)
    (inside : 0 < σ.records.length) (none : σ.gap 0 = []) (holds : Holds ctx s σ b owned)
    (run : genGuarded scope body handlers isTry mc σ ctx b = .ok (y, σ') b') :
    ∃ s', Within s σ s' σ' ∧ Holds ctx s' σ' b' owned ∧
      ∃ start stop inner outer b1 σ1 b2 exit σ2 b3,
        BodyRun scope body isTry mc ctx σ b start stop b1 σ1 b2 exit σ2 b3 ∧
        Protected scope handlers isTry mc ctx s σ b' start stop inner outer b1 σ1 b2 exit σ2 b3 := by
  rw [genGuarded, nextRegister_bind] at run
  obtain ⟨start, b1, asked, run⟩ := lift_bind_ok.mp run
  rw [buffer_bind] at run
  obtain ⟨_, σ2, b2, bodied, run⟩ := bind_ok.mp run
  obtain ⟨stop, b3, stopped, run⟩ := lift_bind_ok.mp run
  rw [record_bind] at run
  obtain ⟨exit, σ4, b4, left, run⟩ := bind_ok.mp run
  obtain ⟨exit', σ5, b5, caught, run⟩ := bind_ok.mp run
  obtain ⟨s1, steady1, observed1, holds1⟩ := holds.position asked
  obtain ⟨s2, tracks2, holds2⟩ := sound.run bodied holds1
  obtain ⟨s3, steady3, observed3, holds3⟩ := holds2.position stopped
  have inside2 : 0 < σ2.records.length := tracks2.size ▸ inside
  obtain ⟨s4, tracks4, holds4, dead4, copied4⟩ := leaveBody_ok whole inside2 holds3 left
  have inside4 : 0 < σ4.records.length := tracks4.size ▸ inside2
  have started : start ∈ s1.observed := observed1 ▸ (.head _)
  have ends : stop ∈ s3.observed := observed3 ▸ (.head _)
  have sofar : s1.Extends s4 :=
    tracks2.grows.toExtends.trans (steady3.toExtends.trans tracks4.grows.toExtends)
  have known : OfGaps (· ∈ s4.observed) (gapPairs (σ2.gap 0)) :=
    ofGaps_gapPairs fun p gap => (steady3.toExtends.trans tracks4.grows.toExtends).known
      (holds2.gap 0 p gap)
  obtain ⟨s5, tracks5, holds5, same5, entered5⟩ := genClauses_ok whole clauses inside4 holds4
    (fun differ => dead4 (by simp [differ])) (sofar.known started) (tracks4.grows.known ends) known
    caught
  have inside5 : 0 < σ5.records.length := tracks5.size ▸ inside4
  have dead5 : (scope.hasFinalizer && !(start == stop && isTry)) = true → b5.isAlive = false := by
    intro guarded
    obtain ⟨has, full⟩ := Bool.and_eq_true_iff.mp guarded
    by_cases empty : start = stop
    · rw [← same5 empty]
      exact dead4 (Bool.not_eq_true' _ |>.mp full)
    · exact (entered5 empty).1 has
  obtain ⟨s', within, holds', closed⟩ := closeGuarded_ok whole inside5 holds5 dead5
    ((sofar.trans tracks5.grows.toExtends).known started) run
  have before : Tracks s σ s3 σ2 :=
    (Leaves.still steady1 rfl).trans (tracks2.trans (Leaves.still steady3 rfl))
  have after : Tracks s3 σ2 s5 σ5 := Leaves.trans tracks4 tracks5
  obtain ⟨outer, more⟩ := after.toMarks.sooner (Nat.zero_le 0)
  have shut2 (shut : σ.Shut) : σ2.Shut := fun i => before.shut (fun j _ => shut j) i trivial
  refine ⟨s', .after (Leaves.trans before after) within, holds', start, stop, σ2.gap 0, outer, b1, σ2,
    b3, exit, σ4, b4, ⟨asked, ⟨b2, bodied, stopped⟩, left⟩, rfl,
    sorted_gaps none started tracks2 holds2 observed3 holds3 after holds5 more.symm, fun shut => ?_,
    fun shut inline alive => ?_, fun differ => ?_, fun guarded => ?_⟩
  · have even := shut2 shut 0
    have even' := after.shut (fun i _ => shut2 shut i) 0 trivial
    unfold MethodState.ShutAt at even even'
    rw [← more, List.length_append] at even'
    exact ⟨even, by omega⟩
  · rw [more]
    exact (copied4 (shut2 shut 0) inline alive).later (tracks5.toMarks.sooner (Nat.zero_le 0))
  · obtain ⟨_, pcs, entered, exits⟩ := entered5 differ
    refine ⟨pcs, ?_, fun shut => ?_⟩
    · refine entered.imp fun clause pc ⟨entry, fresh, own⟩ => ⟨fun old => fresh ?_, ?_⟩
      · exact (before.grows.toExtends.trans tracks4.grows.toExtends).entries pc old
      · exact own.later holds5 holds' within.rows entry
    · rw [more]
      exact exits fun i => tracks4.shut (fun j _ => shut2 shut j) i trivial
  · obtain ⟨pc, own, catches, caughtAll⟩ := closed guarded
    rw [more]
    have sooner := (before.grows.trans after.grows).toExtends
    refine ⟨pc, own, exit', σ5, b5, { catches with
      fresh := fun old => catches.fresh (sooner.entries pc old)
      behind := fun p old => catches.behind p (sooner.known old) }, fun p member => ?_, caught, rfl,
      caughtAll⟩
    have seen : p ∈ σ5.gap 0 ∨ p = stop := by
      rw [← more]
      simpa [or_comm, or_assoc, or_left_comm] using member
    rcases seen with gap | rfl
    · exact catches.behind p (holds5.gap 0 p gap)
    · exact catches.behind p (after.grows.known ends)

theorem keeps_guarded (whole : scope.Sound) (sound : Keeps Tracks 0 body fun _ => 0)
    (clauses : ∀ clause ∈ handlers, Keeps Tracks 0 clause.code fun _ => 0) :
    Keeps Tracks 0 (enclosed (genGuarded scope body handlers isTry)) fun found => found.2.pcs := by
  intro mc ctx σ σ' b b' found run s rest _ holds known
  cases known
  obtain ⟨inner, ran, record, rfl⟩ := of_enclosed run
  obtain ⟨s', within, holds', _⟩ := genGuarded_ok whole sound clauses (by exact Nat.succ_pos _) rfl
    holds.enclose ran
  dsimp only
  rw [record]
  refine ⟨s', within.enclosed, holds'.disclose.mono ?_⟩
  rw [zero_add, add_comm]

end Lowering

end ClassForge
