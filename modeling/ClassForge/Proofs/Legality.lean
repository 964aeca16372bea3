import ClassForge.Proofs.Soundness

namespace ClassForge

namespace Session

/-- Nothing that is recorded so far is about the end of the code. -/
structure Clear (s : Session) : Prop where
  started : s.buffer.code.size ≠ 0
  entered : ∀ p ∈ s.entries, p ≠ s.buffer.code.size
  landed : ∀ entry ∈ s.written, entry.2 ≠ s.buffer.code.size
  frames : ∀ row ∈ s.buffer.frames.toList, row.1 ≠ s.buffer.code.size
  lines : ∀ row ∈ s.buffer.lines.toList, row.1 ≠ s.buffer.code.size

/-- Nothing has been emitted, and no frame is due. -/
structure Fresh (s : Session) : Prop where
  empty : s.buffer.code.size = 0
  settled : s.buffer.frameDue = false

/-- A row of the exception table covers a range between known positions, for a handler that has been
entered after the start of the range was known. -/
structure Covers (s : Session) (row : CatchEntry) : Prop where
  start : row.start.toNat ∈ s.observed
  stop : row.stop.toNat ∈ s.observed
  handler : row.handler.toNat ∈ s.entries
  ordered : row.start.toNat ≤ row.handler.toNat

end Session

/-- What a user has to respect in a note. -/
def Note.Legal (s : Session) : Note → Prop
  | .beginBody => s.Fresh
  | .markDead => s.Clear
  | .addCatch row => s.Covers row
  | _ => True

def Session.LeadsIn (s : Session) (start : Nat) (word : Int32) : Prop :=
  0 ≤ word.toInt ∧ ∃ target ∈ s.entries, (start : Int) + word.toInt = (target : Nat)

/-- What a user has to respect in a call. Pending jumps are left to the calls that need the
position. -/
def Call.Legal (s : Session) : {α : Type} → Call α → Prop
  | _, .resolvePending => False
  | _, .resolveTo _ target => target ∈ s.entries
  | _, .note change => change.Legal s
  | _, .switch table operands => ∀ i word, IsOffsetOperand table i → operands[i]? = some word →
      word = -1
  | _, .putWord pc value => ∃ place ∈ s.switches, place.IsSlot pc ∧
      (place.IsOffset pc → s.LeadsIn place.start value)
  | _, _ => True

namespace Session

variable {held discarded : Multiset Nat} {pc : Nat} {b1 : Buffer}
variable {ctx : Context} {s : Session} {b : Buffer} {rest : Multiset Nat} {log : List (Nat × Nat)}

theorem Firm.hold (firm : s.Firm) : ({ s with held, discarded } : Session).Firm :=
  ⟨firm.known, firm.landed⟩

/-- The session is upright, and the end of its code is marked if something depends on it. -/
structure Stands (ctx : Context) (s : Session) : Prop where
  upright : s.Upright ctx s.buffer.frameDue
  firm : s.Firm

namespace Stands

variable {jump : Jump} {chain : Chain}

section

variable (stands : s.Stands ctx)

include stands

theorem hold : ({ s with held, discarded } : Session).Stands ctx :=
  ⟨stands.upright.hold, stands.firm.hold⟩

theorem congr (bytes : b.bytes = s.buffer.bytes) (fixed : b.fixed = s.buffer.fixed)
    (goes : s.buffer.alive = true → b.alive = true) (tables : b.tables = s.buffer.tables)
    (dues : ctx.settings.stackMaps = true → (s.buffer.frameDue = true → b.frameDue = true) ∧
      (b.alive = true → s.buffer.alive = true ∨ b.frameDue = true)) : (s.moved b []).Stands ctx :=
  ⟨stands.upright.congr bytes goes tables dues, stands.firm.congr (congrArg List.length bytes) fixed⟩

theorem same : (s.moved s.buffer []).Stands ctx :=
  stands.congr rfl rfl id rfl fun _ => ⟨id, .inl⟩

theorem only (only : Asm.RegistersOnly s.buffer b) : (s.moved b []).Stands ctx := by
  rw [only]
  exact stands.congr rfl rfl id rfl fun _ => ⟨id, .inl⟩

theorem observe (fixed : s.buffer.fixed = true)
    (tiled : Boundary s.buffer.bytes 0 s.buffer.bytes.length) :
    ({ s with observed := s.buffer.code.size :: s.observed } : Session).Stands ctx :=
  ⟨stands.upright.observe tiled, .of_fixed fixed⟩

theorem enter (alive : s.buffer.alive = true) (due : s.buffer.frameDue = ctx.settings.stackMaps)
    (seen : s.buffer.code.size ∈ s.observed) :
    ({ s with entries := s.buffer.code.size :: s.entries } : Session).Stands ctx := by
  obtain ⟨upright, firm⟩ := stands
  rw [due] at upright
  refine ⟨?_, firm.known, firm.landed⟩
  rw [due]
  exact upright.enter alive seen

theorem resolveTo {target : Nat}
    (carries : s.buffer.core.Carries ctx.wide 0 (chain.pcs + rest) s.written)
    (slotted : Slotted 0 s.switches s.buffer.bytes) (entered : target ∈ s.entries)
    (lands : Asm.Lands ctx chain target s.buffer b log) : (s.moved b log).Stands ctx := by
  refine ⟨stands.upright.lands stands.firm carries slotted lands (.inr entered), ?_⟩
  cases lands.trims carries with
  | drop elides =>
    obtain ⟨site, _, drop⟩ := elides
    exact absurd drop (stands.upright.not_droppable stands.firm carries.wired entered)
  | keep _ same mark =>
    rcases mark with ⟨rfl, fixed⟩ | fixed
    · obtain ⟨merged, b1, resolved, rfl⟩ := lands
      cases resolved
      exact stands.firm.congr rfl rfl
    · exact .of_fixed fixed

end

section Steps

variable (stands : s.Stands ctx) (carries : s.buffer.core.Carries ctx.wide 0 rest s.written)
  (slotted : Slotted 0 s.switches s.buffer.bytes)
include stands carries slotted

theorem adds {c : Buffer} {new : Addition} (flushes : Asm.Flushes ctx s.buffer c log)
    (adds : Asm.Adds ctx c b new) (whole : new.whole)
    (opened : ∀ place ∈ new.places, ∀ pos, place.IsOffset pos → b.bytes.word32At? pos = some (-1)) :
    ({ s.moved b (log ++ new.log) with switches := new.places ++ s.switches } : Session).Stands
      ctx := by
  obtain ⟨upright, firm⟩ :=
    stands.upright.adds stands.firm carries slotted flushes adds whole opened
  exact ⟨upright, firm⟩

theorem position (flushes : Asm.Flushes ctx s.buffer b1 log) :
    (s.moved { Asm.marked ctx b1 with fixed := true } log).Stands ctx := by
  have flushed := stands.upright.flushes stands.firm carries slotted flushes
  have marked := flushed.marked (carries.flushes flushes).wired.tiled
  have done := marked.congr (b := { Asm.marked ctx b1 with fixed := true }) (d := b1.frameDue) rfl id
    rfl fun _ => ⟨id, .inl⟩
  rw [moved_moved, moved_moved, List.append_nil, List.append_nil, ← Asm.marked_frameDue ctx b1] at done
  exact ⟨done, .of_fixed rfl⟩

theorem scopesEnd (ended : Asm.ScopesEnd ctx s.buffer b log) : (s.moved b log).Stands ctx := by
  rcases ended with ⟨only, rfl⟩ | ⟨c, d, before, flushes, only⟩
  · exact stands.only only
  · have cleared := stands.only before
    rw [← before.core_eq, ← List.append_nil s.written] at carries
    rw [← show c.bytes = s.buffer.bytes from congrArg Buffer.Core.bytes before.core_eq] at slotted
    have last := (cleared.position carries slotted flushes).only only
    rw [moved_moved, moved_moved, List.nil_append, List.append_nil] at last
    exact last

theorem switch {table : Bool} {operands : List Int32} {answer : Option SwitchPlace}
    (complete : SwitchOperands table operands)
    (legal : ∀ i word, IsOffsetOperand table i → operands[i]? = some word → word = -1)
    (run : Asm.placeSwitch table operands ctx s.buffer = .ok answer b)
    (logs : (Call.switch table operands).Logs ctx s.buffer b log) :
    ({ s.moved b log with switches := answer.toList ++ s.switches } : Session).Stands ctx := by
  obtain ⟨c, flushes⟩ := logs
  rcases Asm.placeSwitch_core run with ⟨dead, rfl, rfl⟩ | ⟨_, _, flushes', rfl, grows⟩
  · obtain ⟨_, rfl⟩ := flushes.of_nil (Asm.pending_nil_of_dead dead)
    exact stands.same
  obtain ⟨rfl, rfl⟩ := flushes.unique flushes'
  have done := stands.adds carries slotted flushes ⟨grows, .switch table operands, absurd rfl⟩ complete
    fun place member pos offset => ?_
  · rw [List.append_nil] at done
    exact done
  cases List.mem_singleton.mp member
  obtain ⟨i, less, which, rfl⟩ := offset
  have word := Bytes.word32At?_ofSwitch table c.bytes operands i
  rw [List.getElem?_eq_getElem less, legal i _ which (List.getElem?_eq_getElem less)] at word
  rw [grows.bytes_eq]
  exact word

theorem put {value : Int32} {place : SwitchPlace} (member : place ∈ s.switches)
    (slot : place.IsSlot pc) (leads : place.IsOffset pc → s.LeadsIn place.start value)
    (run : Asm.putWord pc value ctx s.buffer = .ok () b) :
    ({ s.moved b [] with filled := pc :: s.filled } : Session).Stands ctx := by
  obtain ⟨same, size, outside⟩ := Asm.putWord_ok run
  have length : b.bytes.length = s.buffer.bytes.length := by
    rw [Buffer.length_bytes, Buffer.length_bytes, size]
  have layout := slotted.fill member slot length outside
  have inCode : place.InCode 0 s.buffer.bytes := by
    obtain ⟨i, less, _⟩ := slot
    exact (slotted place member).resolve_left (by omega)
  have room : pc + 4 ≤ s.buffer.code.size := by
    have := inCode.end_le carries.wired.tiled inCode.lt_length
    obtain ⟨i, less, _, rfl⟩ := slot
    rw [Buffer.core_bytes, Buffer.length_bytes] at this
    omega
  have written : b.bytes.word32At? pc = some value := by
    cases Asm.modify_ok.mp run
    exact Buffer.word32At?_overwrite value room
  obtain ⟨alive, tables, dues⟩ : b.alive = s.buffer.alive ∧ b.tables = s.buffer.tables ∧
      b.frameDue = s.buffer.frameDue := by
    cases Asm.modify_ok.mp run
    exact ⟨rfl, rfl, rfl⟩
  have aims := stands.upright.aims.of_filled_slot carries.wired slotted member slot length outside written leads
  have keeps : ∀ p, Inside s.buffer.alive s.buffer.bytes p → Inside b.alive b.bytes p :=
    fun p inside => inside.layout layout alive.trans
  have frames : b.frames = s.buffer.frames := congrArg Buffer.Tables.frames tables
  have lines : b.lines = s.buffer.lines := congrArg Buffer.Tables.lines tables
  have catches : b.catches = s.buffer.catches := congrArg Buffer.Tables.catches tables
  have firm := stands.firm.congr length (congrArg Buffer.Core.fixed same)
  have framed maps : (s.moved b []).Framed b.frameDue := (stands.upright.framed maps).layout size
    (fun p q stops => stops.layout layout carries.wired.tiled) frames dues.trans
    (.inl <| alive.symm.trans ·) (by simp)
  rw [moved_nil] at firm framed ⊢
  exact ⟨⟨aims, fun p seen => layout.boundary p (stands.upright.known p seen),
    stands.upright.sorted, stands.upright.noted, fun p seen => keeps p (stands.upright.entered p seen),
    fun entry logged => keeps _ (stands.upright.landed entry logged),
    frames ▸ stands.upright.frames.imp keeps, lines ▸ stands.upright.lines.imp keeps,
    catches ▸ stands.upright.covered,
    fun none => alive.trans (stands.upright.started (size.symm.trans none)),
    fun maps => (framed maps).hold⟩, firm.known, firm.landed⟩

theorem asked (run : Asm.position ctx s.buffer = .ok pc b)
    (logs : Call.position.Logs ctx s.buffer b log) :
    ({ s.moved b log with observed := pc :: s.observed } : Session).Stands ctx ∧ pc = b.code.size :=
      by
  obtain ⟨_, flushes'⟩ := logs
  obtain ⟨b1, _, flushes, rfl, rfl⟩ := Asm.position_ok run
  obtain ⟨rfl, rfl⟩ := flushes.unique flushes'
  have core := Asm.core_marked ctx b1
  have bytes : (Asm.marked ctx b1).bytes = b1.bytes := congrArg Buffer.Core.bytes core
  have size : b1.code.size = (Asm.marked ctx b1).code.size := by
    rw [← Buffer.length_bytes, ← bytes, Buffer.length_bytes]
  have tiled := (carries.flushes flushes).wired.tiled
  rw [Buffer.core_bytes, ← bytes] at tiled
  have standing := (stands.position carries slotted flushes).observe rfl tiled
  rw [size]
  exact ⟨standing, rfl⟩

theorem entered (run : Asm.position ctx s.buffer = .ok pc b1)
    (logs : Call.position.Logs ctx s.buffer b1 log) (bytes : b.bytes = b1.bytes)
    (fixed : b.fixed = b1.fixed) (alive : b.alive = true) (tables : b.tables = b1.tables)
    (due : b.frameDue = ctx.settings.stackMaps) :
    ({ s.moved b log with observed := pc :: s.observed, entries := pc :: s.entries } :
      Session).Stands ctx := by
  obtain ⟨asked, rfl⟩ := stands.asked carries slotted run logs
  have size : b1.code.size = b.code.size := by
    rw [← Buffer.length_bytes, ← bytes, Buffer.length_bytes]
  have reached := asked.congr bytes fixed (fun _ => alive) tables fun maps =>
    ⟨fun _ => due.trans maps, fun _ => .inr (due.trans maps)⟩
  have done := reached.enter alive due (by
    change b.code.size ∈ b1.code.size :: s.observed
    rw [size]
    exact .head _)
  change (Session.mk _ _ _ _ (b.code.size :: s.entries) _ _ ((s.written ++ log) ++ [])).Stands ctx
    at done
  rw [List.append_nil, ← size] at done
  exact done

end Steps

theorem kill (stands : s.Stands ctx) (clear : s.Clear) :
    (s.moved { s.buffer with alive := false } []).Stands ctx := by
  have upright := stands.upright
  have firm := stands.firm
  have before : ∀ p, Inside s.buffer.alive s.buffer.bytes p → p ≠ s.buffer.code.size →
      Inside false s.buffer.bytes p := by
    intro p inside differ
    refine ⟨inside.boundary, fun last => ?_⟩
    rw [Buffer.length_bytes] at last
    exact absurd last differ
  rw [moved_nil]
  refine ⟨⟨upright.aims, upright.known, upright.sorted, upright.noted,
    fun p member => before p (upright.entered p member) (clear.entered p member),
    fun entry member => before _ (upright.landed entry member) (clear.landed entry member),
    ⟨upright.frames.sorted, fun row member =>
      before _ (upright.frames.inside row member) (clear.frames row member)⟩,
    ⟨upright.lines.sorted, fun row member =>
      before _ (upright.lines.inside row member) (clear.lines row member)⟩,
    upright.covered, fun none => absurd none clear.started, fun maps => ?_⟩, firm.known, firm.landed⟩
  rw [← moved_nil]
  exact (upright.framed maps).layout rfl (fun _ _ => id) rfl id nofun (by simp)

theorem cover {row : CatchEntry} (stands : s.Stands ctx) (covers : s.Covers row) :
    (s.moved { s.buffer with catches := s.buffer.catches.push row } []).Stands ctx := by
  obtain ⟨upright, firm⟩ := stands
  rw [moved_nil]
  refine ⟨⟨upright.aims, upright.known, upright.sorted, upright.noted, upright.entered, upright.landed,
    upright.frames, upright.lines, fun other member => ?_, upright.started, fun maps => ?_⟩, firm.known, firm.landed⟩
  · change other ∈ (s.buffer.catches.push row).toList at member
    rw [Array.toList_push] at member
    rcases List.mem_append.mp member with old | new
    · exact upright.covered other old
    · cases List.mem_singleton.mp new
      exact ⟨covers.start, covers.stop, covers.handler, covers.ordered⟩
  · rw [← moved_nil]
    exact (upright.framed maps).layout rfl (fun _ _ => id) rfl id .inl (by simp)

theorem note {change : Note} (stands : s.Stands ctx)
    (tiled : Boundary s.buffer.bytes 0 s.buffer.bytes.length) (legal : change.Legal s)
    (run : change.perform ctx s.buffer = .ok () b) : (s.moved b []).Stands ctx := by
  cases Note.does_of_perform run with
  | markLine =>
    have core := Asm.core_marked ctx s.buffer
    refine ⟨?_,
      stands.firm.congr (congrArg (·.bytes.length) core) (congrArg (·.fixed) core)⟩
    rw [moved, Asm.marked_frameDue]
    exact stands.upright.marked tiled
  | markDead => exact stands.kill legal
  | addCatch entry => exact stands.cover legal
  | beginBody =>
    refine stands.congr rfl rfl (fun _ => rfl) rfl fun _ => ⟨fun isDue => ?_, fun _ =>
      .inl (stands.upright.started legal.empty)⟩
    rw [legal.settled] at isDue
    cases isDue
  | plain => exact stands.congr rfl rfl id rfl fun _ => ⟨id, .inl⟩

end Stands

/-- The session is accounted for and stands. -/
structure Sound (ctx : Context) (s : Session) : Prop where
  accounted : s.Accounted ctx 0
  stands : s.Stands ctx

theorem Sound.start (ctx : Context) (pool : Pool) : (start pool).Sound ctx :=
  ⟨.start ctx pool, .start ctx pool, .start pool⟩

namespace Sound

variable {α : Type} {call : Call α} {answer : α}

theorem stands_after (sound : s.Sound ctx) (permits : s.Permits call) (legal : call.Legal s)
    (run : call.perform ctx s.buffer = .ok answer b) (logs : call.Logs ctx s.buffer b log) :
    (s.after call answer b log).Stands ctx := by
  have stands := sound.stands
  have carries := sound.accounted.carries
  have slotted := sound.accounted.slotted
  cases call with
  | resolvePending => exact legal.elim
  | resolveTo chain target =>
    obtain ⟨rest, held⟩ := Multiset.le_iff_exists_add.mp permits.owns
    rw [held, add_assoc] at carries
    exact (stands.resolveTo carries slotted legal logs).hold
  | position => exact (stands.asked carries slotted run logs).1.hold
  | entryPoint =>
    obtain ⟨b1, asked, same⟩ := Asm.entryPoint_ok run
    have alive : b.alive = true := by rw [same]
    exact (stands.entered carries slotted asked logs (by rw [same]; rfl) (by rw [same]) alive
      (by rw [same]; rfl) (by rw [same])).hold
  | entryPointWith state pushed =>
    obtain ⟨b1, asked, same⟩ := Asm.entryPointWith_ok run
    have alive : b.alive = true := by rw [same]
    exact (stands.entered carries slotted asked logs (by rw [same]; rfl) (by rw [same]; rfl) alive
      (by rw [same]; rfl) (by rw [same])).hold
  | endScopes first => exact (stands.scopesEnd carries slotted logs).hold
  | note change =>
    cases logs
    exact (stands.note carries.wired.tiled legal run).hold
  | switch table operands =>
    exact (stands.switch carries slotted permits.complete legal run logs).hold
  | putWord pc value =>
    cases logs
    obtain ⟨place, member, slot, leads⟩ := legal
    exact (stands.put carries slotted member slot leads run).hold
  | emit | branch | jsr | merge | resolve | newLocal | setDefined | discard =>
    cases Call.does_of_perform run logs with
    | still core stays _ _ _ _ same silent =>
      obtain ⟨alive, tables, dues⟩ := same.resolve_left nofun
      have bytes := List.ext_getElem? fun i => stays i nofun
      rw [silent]
      exact (stands.congr bytes (congrArg Buffer.Core.fixed core) alive.trans tables fun _ =>
        ⟨dues.trans, fun goes => .inl (alive.symm.trans goes)⟩).hold
    | append kept taken flushes adds _ _ split _ _ whole places logged =>
      have kept := stands.congr (b := { s.buffer with pending := kept }) rfl rfl id rfl fun _ =>
        ⟨id, .inl⟩
      have carries := carries.split split
      rw [← List.append_nil s.written] at carries
      have done := kept.adds carries slotted flushes adds (whole trivial) (by rw [← places]; nofun)
      rw [moved_moved, ← places, ← logged] at done
      exact done.hold
    | flush asks => cases asks
    | land _ _ _ _ _ bare => cases bare

end Sound

/-- Sessions that legal calls lead to, from the start of a method on. -/
inductive Course (ctx : Context) (pool : Pool) : Session → Prop
  | start : Course ctx pool (start pool)
  | next {s : Session} {α : Type} (call : Call α) {answer : α} {b : Buffer} {log : List (Nat × Nat)} :
      Course ctx pool s → s.Permits call → call.Legal s → call.perform ctx s.buffer = .ok answer b →
      call.Logs ctx s.buffer b log → Course ctx pool (s.after call answer b log)

namespace Course

variable {pool : Pool}

theorem reach (course : s.Course ctx pool) : s.Reach ctx pool := by
  induction course with
  | start => exact .start
  | next call _ permits _ run logs ih => exact ih.next (.call call permits run logs)

/-- The invariant of legal sessions: each call keeps it, from the start on. -/
theorem sound (course : s.Course ctx pool) : s.Sound ctx := by
  induction course with
  | start => exact .start ctx pool
  | next call _ permits legal run logs ih =>
    exact ⟨ih.accounted.step (.call call permits run logs), ih.stands_after permits legal run logs⟩

end Course

end Session

end ClassForge
