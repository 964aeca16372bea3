import ClassForge.Proofs.Upright

namespace ClassForge

variable {bytes : Bytes} {opcode : UInt8}

namespace Bytes

theorem word16At?_append (code bytes : Bytes) (pos : Nat) :
    word16At? (code ++ bytes) (code.length + pos) = word16At? bytes pos := by
  unfold word16At?
  rw [List.getElem?_append_right (by omega), List.getElem?_append_right (by omega),
    Nat.add_sub_cancel_left, show code.length + pos + 1 - code.length = pos + 1 by omega]

end Bytes

namespace Aims

variable {wide needsWide : Bool} {log : List (Nat × Nat)} {entries filled : List Nat}
  {sites : Multiset Nat} {places : List SwitchPlace} {code : Bytes}

theorem jump {tail : Bytes} (aims : Aims wide log entries places filled code)
    (more : List (Nat × Nat)) (wired : Wired wide needsWide 0 sites log code)
    (slotted : Slotted 0 places code) (isJump : Opcode.isJump opcode = true)
    (size : tail.length + 1 = Opcode.jumpLength opcode) (target : Nat)
    (decoded : (code ++ opcode :: tail).jumpTargets code.length opcode = [(target : Int)])
    (logged : more = [(code.length, target)] ∨ more = [] ∧ target = code.length) :
    Aims wide (log ++ more) entries places filled (code ++ opcode :: tail) := by
  have complete := Bytes.instructionLength?_of_jump code isJump size
  have leads : (code ++ opcode :: tail).targets code.length = [(target : Int)] := by
    rw [(wired.jumpAt_end isJump).targets_eq, decoded]
  have same := aims.extend more [] wired slotted complete ?_ ?_ (by simp) ?_
  · rw [List.nil_append] at same
    exact same
  · intro entry member
    rcases logged with rfl | ⟨rfl, _⟩
    · cases List.mem_singleton.mp member
      exact leads
    · cases member
  · intro _ _ _ unwritten
    rcases logged with rfl | ⟨_, rfl⟩
    · simp at unwritten
    · exact leads
  · rintro (⟨⟨⟩⟩ | ⟨⟨⟩⟩) <;> cases isJump

end Aims

namespace Asm

variable {places : List SwitchPlace}

/-- The bytes of a jump lead to the jump itself, and the jump over a wide one leads behind it. -/
theorem aims_jump {wide needsWide : Bool} {back : Nat} {sites : Multiset Nat}
    {log : List (Nat × Nat)} {entries filled : List Nat} {code : Bytes} (valid : IsShortJump opcode)
    (chosen : jumpBytes wide opcode = some (bytes, back))
    (aims : Aims wide log entries places filled code)
    (wired : Wired wide needsWide 0 sites log code) (slotted : Slotted 0 places code) :
    Aims wide (log ++ skips bytes back code.length) entries places filled (code ++ bytes) := by
  have long : ∀ op, Opcode.jumpLength op = 5 → ∀ front : Bytes,
      (front ++ [op, 0, 0, 0, 0]).jumpTargets front.length op = [(front.length : Int)] := by
    intro op length front
    have found : (front ++ [op, 0, 0, 0, 0]).word32At? (front.length + 1) = some 0 := by
      rw [Bytes.word32At?_append]
      rfl
    rw [Bytes.jumpTargets_long length found]
    simp
  rcases jumpBytes_cases chosen with ⟨rfl, rfl, rfl⟩ | ⟨rfl, rfl, form⟩ |
    ⟨rfl, rfl, _, _, negated, known, rfl⟩
  · have found : (code ++ [opcode, 0, 0]).word16At? (code.length + 1) = some 0 := by
      rw [Bytes.word16At?_append]
      rfl
    refine aims.jump _ wired slotted valid.isJump valid.short.symm code.length ?_ (.inr ⟨rfl, rfl⟩)
    rw [Bytes.jumpTargets_short valid.short found]
    simp
  · rcases form with ⟨rfl, _⟩ | ⟨rfl, _⟩
    · exact aims.jump _ wired slotted rfl rfl code.length (long _ rfl code) (.inr ⟨rfl, rfl⟩)
    · exact aims.jump _ wired slotted rfl rfl code.length (long _ rfl code) (.inr ⟨rfl, rfl⟩)
  · obtain ⟨isJump, short, _⟩ := valid.opposite negated known
    have found : (code ++ [negated, 0, 8]).word16At? (code.length + 1) = some 8 := by
      rw [Bytes.word16At?_append]
      rfl
    have skipped : Aims true (log ++ [(code.length, code.length + 8)]) entries places filled
        (code ++ [negated, 0, 8]) := by
      refine aims.jump _ wired slotted isJump short.symm (code.length + 8) ?_ (.inl rfl)
      rw [Bytes.jumpTargets_short short found]
      rfl
    have both : Aims true (_ ++ []) entries places filled
        ((code ++ [negated, 0, 8]) ++ Opcode.gotoWide :: [0, 0, 0, 0]) :=
      skipped.jump [] (wired.appendKnown isJump short.symm) (slotted.append wired.tiled _) rfl rfl _
        (long _ rfl _) (.inr ⟨rfl, rfl⟩)
    rw [List.append_nil, List.append_assoc] at both
    exact both

end Asm

/-- What is appended leads where it should, if the offsets in a new switch are open. -/
theorem Addition.Fits.aims {wide needsWide : Bool} {pool : Pool} {new : Addition} {code : Bytes}
    {sites : Multiset Nat} {log : List (Nat × Nat)} {entries filled : List Nat}
    {places : List SwitchPlace} (fits : new.Fits wide code pool) (whole : new.whole)
    (aims : Aims wide log entries places filled code)
    (wired : Wired wide needsWide 0 sites log code) (slotted : Slotted 0 places code)
    (opened : ∀ place ∈ new.places, ∀ pos, place.IsOffset pos →
      (code ++ new.bytes).word32At? pos = some (-1)) :
    Aims wide (log ++ new.log) entries (new.places ++ places) filled (code ++ new.bytes) := by
  cases fits with
  | plain encoded =>
    have plain := Instruction.isPlain_encode encoded
    have next := plain.isNext code
    refine aims.extend [] [] wired slotted next.complete (by simp) (fun opcode head isJump => ?_)
      (by simp) ?_
    · rw [next.noJump opcode head] at isJump
      cases isJump
    · rintro (form | form)
      · exact absurd form plain.no_switch.1
      · exact absurd form plain.no_switch.2
  | switch table operands =>
    have next := SwitchOperands.isNext code whole
    refine aims.extend [] _ wired slotted next.complete (by simp) (fun opcode head isJump => ?_) ?_
      fun _ => ⟨_, .head _, rfl⟩
    · rw [next.noJump opcode head] at isJump
      cases isJump
    · intro place member pos offset
      refine ⟨?_, opened place member pos offset⟩
      cases List.mem_singleton.mp member
      obtain ⟨i, _, _, rfl⟩ := offset
      exact (Bytes.lt_switchBase code.length).le.trans (Nat.le_add_right _ _)
  | jump valid chosen => exact Asm.aims_jump valid chosen aims wired slotted

namespace Asm

variable {places : List SwitchPlace} {ctx : Context} {b b' : Buffer} {log : List (Nat × Nat)}

theorem tables_settled (ctx : Context) (merged : Option State) (b : Buffer) :
    (settled ctx merged b).tables = b.tables := by
  cases merged <;> rfl

theorem Flushes.slotted {base : Nat} {rest : Multiset Nat} {before : List (Nat × Nat)}
    (flushes : Flushes ctx b b' log) (carries : b.core.Carries ctx.wide base rest before)
    (slotted : Slotted base places b.bytes) : Slotted base places b'.bytes := by
  have reworked : Reworked _ base b.bytes (b'.bytes ++ []) :=
    (flushes.trims carries).reworked (by simp)
  rw [List.append_nil] at reworked
  exact reworked.slotted carries.wired.tiled slotted

theorem rows_begun (alive : b.alive = true) (tiled : Boundary b.bytes 0 b.bytes.length)
    (frames : Rows b.alive b.bytes b.frames) (lines : Rows b.alive b.bytes b.lines) :
    Rows true b.bytes (begun ctx b).frames ∧ Rows true b.bytes (begun ctx b).lines ∧
      (begun ctx b).catches = b.catches := by
  rw [alive] at frames lines
  have marks : Rows true b.bytes (marked ctx b).frames ∧ Rows true b.bytes (marked ctx b).lines ∧
      (marked ctx b).catches = b.catches := by
    rcases marked_cases ctx b with same | same | ⟨line, _, same⟩
    · rw [same]
      exact ⟨frames, lines, rfl⟩
    · rw [same]
      exact ⟨frames, lines, rfl⟩
    · rw [same]
      refine ⟨frames, ?_, rfl⟩
      change Rows true b.bytes (addLine b.lines b.code.size line)
      rw [← Buffer.length_bytes]
      exact rows_addLine lines tiled
  obtain ⟨frames, lines, catches⟩ := marks
  have bytes : (marked ctx b).bytes = b.bytes := congrArg Buffer.Core.bytes (core_marked ctx b)
  unfold begun
  split
  · have recorded : Rows true (marked ctx b).bytes
        (framed ctx { marked ctx b with frameDue := false }).frames :=
      rows_framed (b := { marked ctx b with frameDue := false })
        (by rw [← bytes] at frames; exact frames) (by rw [← bytes] at tiled; exact tiled)
    have rest : ∀ c, (framed ctx c).lines = c.lines ∧ (framed ctx c).catches = c.catches := by
      intro c
      unfold framed
      split <;> exact ⟨rfl, rfl⟩
    rw [bytes] at recorded
    refine ⟨recorded, ?_, (rest _).2.trans catches⟩
    rw [(rest _).1]
    exact lines
  · exact ⟨frames, lines, catches⟩

end Asm

namespace Session

variable {ctx : Context} {s : Session} {b : Buffer} {rest : Multiset Nat} {log : List (Nat × Nat)}

theorem moved_moved (s : Session) (b c : Buffer) (log more : List (Nat × Nat)) :
    (s.moved b log).moved c more = s.moved c (log ++ more) := by
  simp [moved, List.append_assoc]

namespace Upright

variable {added : List SwitchPlace}

variable {due : Bool} (upright : s.Upright ctx due)

include upright

theorem hold {held discarded : Multiset Nat} : ({ s with held, discarded } : Session).Upright ctx due :=
  ⟨upright.aims, upright.known, upright.sorted, upright.noted, upright.entered, upright.landed,
    upright.frames, upright.lines, upright.covered, upright.started, fun maps => (upright.framed maps).hold⟩

theorem append (some : bytes ≠ []) (code : b.bytes = s.buffer.bytes ++ bytes)
    (aims : Aims ctx.wide (s.written ++ log) s.entries (added ++ s.switches) s.filled b.bytes)
    (landed : ∀ entry ∈ log, Inside b.alive b.bytes entry.2)
    (frames : Rows s.buffer.alive s.buffer.bytes b.frames)
    (lines : Rows s.buffer.alive s.buffer.bytes b.lines) (catches : b.catches = s.buffer.catches)
    (framed : ctx.settings.stackMaps = true →
      ({ s.moved b log with switches := added ++ s.switches } : Session).Framed b.frameDue) :
    ({ s.moved b log with switches := added ++ s.switches } : Session).Upright ctx b.frameDue := by
  have keeps : ∀ p, Inside s.buffer.alive s.buffer.bytes p → Inside b.alive b.bytes p := by
    intro p inside
    rw [code]
    exact inside.append some
  refine ⟨aims, fun p member => ?_, upright.sorted, upright.noted,
    fun p member => keeps p (upright.entered p member), fun entry member => ?_, frames.imp keeps,
    lines.imp keeps, ?_, fun none => ?_, framed⟩
  · change Boundary b.bytes 0 p
    rw [code]
    exact (upright.known p member).append bytes
  · rcases List.mem_append.mp member with old | new
    · exact keeps _ (upright.landed entry old)
    · exact landed entry new
  · change ∀ row ∈ b.catches.toList, _
    rw [catches]
    exact upright.covered
  · have size := congrArg List.length code
    rw [Buffer.length_bytes, List.length_append] at size
    have := List.length_pos_iff.mpr some
    change b.code.size = 0 at none
    omega

theorem firm_append (some : bytes ≠ []) (code : b.bytes = s.buffer.bytes ++ bytes)
    (landed : ∀ entry ∈ log, entry.2 = b.code.size → b.fixed = true) :
    ({ s.moved b log with switches := added ++ s.switches } : Session).Firm := by
  have size := congrArg List.length code
  rw [Buffer.length_bytes, List.length_append] at size
  have positive := List.length_pos_iff.mpr some
  refine ⟨fun p member here => ?_, fun entry member here => ?_⟩
  · have := (upright.known p member).le_length
    change p = b.code.size at here
    omega
  · rcases List.mem_append.mp member with old | new
    · have := (upright.landed entry old).le_length
      change entry.2 = b.code.size at here
      omega
    · exact landed entry new here

theorem marked (tiled : Boundary s.buffer.bytes 0 s.buffer.bytes.length) :
    (s.moved (Asm.marked ctx s.buffer) []).Upright ctx due := by
  rcases Asm.marked_cases ctx s.buffer with same | same | ⟨line, alive, same⟩
  · rw [same]
    exact upright.congr rfl id rfl fun _ => ⟨id, .inl⟩
  · rw [same]
    exact upright.congr rfl id rfl fun _ => ⟨id, .inl⟩
  · rw [same]
    refine upright.layout (.refl 0 _) ?_ id (by simp) upright.frames ?_ rfl fun maps =>
      (upright.framed maps).layout rfl (fun _ _ => id) rfl id .inl (by simp)
    · rw [List.append_nil]
      exact upright.aims
    · change Rows s.buffer.alive s.buffer.bytes (Asm.addLine s.buffer.lines s.buffer.code.size line)
      have lines := upright.lines
      rw [alive] at lines ⊢
      rw [← Buffer.length_bytes]
      exact Asm.rows_addLine lines tiled

theorem observe (tiled : Boundary s.buffer.bytes 0 s.buffer.bytes.length) :
    ({ s with observed := s.buffer.code.size :: s.observed } : Session).Upright ctx due where
  aims := upright.aims
  known p member := by
    rcases List.mem_cons.mp member with rfl | old
    · rw [← Buffer.length_bytes]
      exact tiled
    · exact upright.known p old
  sorted := by
    refine List.pairwise_cons.mpr ⟨fun p member => ?_, upright.sorted⟩
    have bound := (upright.known p member).le_length
    rw [Buffer.length_bytes] at bound
    exact bound
  noted p member := .tail _ (upright.noted p member)
  entered := upright.entered
  landed := upright.landed
  frames := upright.frames
  lines := upright.lines
  covered row member := by
    obtain ⟨start, stop, rest⟩ := upright.covered row member
    exact ⟨List.mem_cons_of_mem _ start, List.mem_cons_of_mem _ stop, rest⟩
  started := upright.started
  framed maps := (upright.framed maps).hold

end Upright

namespace Upright

variable (upright : s.Upright ctx s.buffer.frameDue) (firm : s.Firm)

include upright firm

theorem lands {chain : Chain} {target : Nat} (carries : s.buffer.core.Carries ctx.wide 0 (chain.pcs + rest) s.written)
    (slotted : Slotted 0 s.switches s.buffer.bytes)
    (lands : Asm.Lands ctx chain target s.buffer b log) (goal : Goal s target) :
    (s.moved b log).Upright ctx b.frameDue := by
  obtain ⟨merged, b1, resolved, rfl⟩ := lands
  have wired := carries.wired
  rw [add_left_comm] at wired
  let counted : Buffer := { s.buffer with unresolved := s.buffer.unresolved - chain.length }
  have upright' := upright.congr (b := counted) (d := s.buffer.frameDue || false) rfl id rfl
    fun _ => ⟨by simp, .inl⟩
  rw [moved_nil] at upright'
  have done : (s.moved b1 log).Upright ctx _ :=
    .resolves (s := { s with buffer := counted }) resolved rfl upright' ⟨firm.known, firm.landed⟩ wired slotted goal
  have core := Asm.core_settled ctx merged b1
  have last := done.congr (b := Asm.settled ctx merged b1) (d := (Asm.settled ctx merged b1).frameDue)
    (congrArg Buffer.Core.bytes core) (congrArg Buffer.Core.alive core).trans
    (Asm.tables_settled ctx merged b1) fun maps => ?_
  · rw [moved_moved, List.append_nil] at last
    exact last
  · refine ⟨fun isDue => ?_, fun goes => .inl ((congrArg Buffer.Core.alive core).symm.trans goes)⟩
    cases merged with
    | none => exact (Bool.or_false _).symm.trans isDue
    | some state => exact maps

theorem flushes (carries : s.buffer.core.Carries ctx.wide 0 rest s.written)
    (slotted : Slotted 0 s.switches s.buffer.bytes) (flushes : Asm.Flushes ctx s.buffer b log) :
    (s.moved b log).Upright ctx b.frameDue := by
  have upright' := upright.congr (b := { s.buffer with pending := [] }) (d := s.buffer.frameDue) rfl id
    rfl fun _ => ⟨id, .inl⟩
  rw [moved_nil] at upright'
  exact lands (s := { s with buffer := { s.buffer with pending := [] } }) upright' ⟨firm.known, firm.landed⟩ carries.relieve
    slotted flushes (.inl le_rfl)

theorem adds {c : Buffer} {new : Addition} (carries : s.buffer.core.Carries ctx.wide 0 rest s.written)
    (slotted : Slotted 0 s.switches s.buffer.bytes) (flushes : Asm.Flushes ctx s.buffer c log)
    (adds : Asm.Adds ctx c b new) (whole : new.whole)
    (opened : ∀ place ∈ new.places, ∀ pos, place.IsOffset pos → b.bytes.word32At? pos = some (-1)) :
    ({ s.moved b (log ++ new.log) with switches := new.places ++ s.switches } : Session).Upright ctx
        b.frameDue ∧
      ({ s.moved b (log ++ new.log) with switches := new.places ++ s.switches } : Session).Firm := by
  have flushed := upright.flushes firm carries slotted flushes
  have carried := carries.flushes flushes
  have code := adds.bytes_eq
  have goes : b.alive = new.goes := congrArg Buffer.Core.alive adds.core
  obtain ⟨frames, lines, catches⟩ :=
    Asm.rows_begun adds.alive carried.wired.tiled flushed.frames flushed.lines
  have frames' : b.frames = (Asm.begun ctx c).frames := congrArg Buffer.Tables.frames adds.tables
  have lines' : b.lines = (Asm.begun ctx c).lines := congrArg Buffer.Tables.lines adds.tables
  have catches' : b.catches = (Asm.begun ctx c).catches :=
    congrArg Buffer.Tables.catches adds.tables
  have some := adds.fits.ne_nil
  rw [← moved_moved s c]
  refine ⟨flushed.append some code ?_ (fun entry member => ?_) ?_ ?_ (catches'.trans catches)
      fun maps => ?_,
    flushed.firm_append some code fun entry member _ => (adds.marks (List.ne_nil_of_mem member)).1⟩
  · rw [code] at opened ⊢
    exact adds.fits.aims whole flushed.aims carried.wired (flushes.slotted carries slotted) opened
  · obtain ⟨last, on⟩ := adds.fits.lands member
    rw [last, ← code]
    exact ⟨code ▸ (adds.fits.wired whole carried.wired).tiled, fun _ => goes.trans on⟩
  · change Rows c.alive c.bytes b.frames
    rw [adds.alive, frames']
    exact frames
  · change Rows c.alive c.bytes b.lines
    rw [adds.alive, lines']
    exact lines
  · have size : b.code.size = (c.bytes ++ new.bytes).length := by rw [← code, Buffer.length_bytes]
    have due : new.log ≠ [] → b.frameDue = true := fun some => (adds.marks some).2.trans maps
    refine (flushed.framed maps).append maps adds.alive frames' (fun entry member => ?_) fun p q stops => ?_
    · exact .inr ⟨(adds.fits.lands member).1.trans size.symm, due (List.ne_nil_of_mem member)⟩
    · rw [code] at stops
      refine (adds.fits.stops whole carried.wired.tiled stops).imp_right fun ⟨last, skips⟩ =>
        ⟨last.trans size.symm, fun alive => due (skips (goes.symm.trans alive))⟩

end Upright

theorem Upright.enter (upright : s.Upright ctx ctx.settings.stackMaps) (alive : s.buffer.alive = true)
    (seen : s.buffer.code.size ∈ s.observed) :
    ({ s with entries := s.buffer.code.size :: s.entries } : Session).Upright ctx
      ctx.settings.stackMaps where
  aims := upright.aims.mono fun p member => .tail _ member
  known := upright.known
  sorted := upright.sorted
  noted := List.forall_mem_cons.mpr ⟨seen, upright.noted⟩
  entered := List.forall_mem_cons.mpr ⟨⟨upright.known _ seen, fun _ => alive⟩, upright.entered⟩
  landed := upright.landed
  frames := upright.frames
  lines := upright.lines
  covered row member := by
    obtain ⟨start, stop, handler, order⟩ := upright.covered row member
    exact ⟨start, stop, List.mem_cons_of_mem _ handler, order⟩
  started := upright.started
  framed maps := by
    have framed := upright.framed maps
    rw [maps] at framed ⊢
    exact framed.enter

end Session

end ClassForge
