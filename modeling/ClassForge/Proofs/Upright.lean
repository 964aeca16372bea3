import ClassForge.Proofs.Framing

namespace ClassForge

namespace Buffer

variable {b : Buffer} {pos : Nat}

theorem exists_word16At? (b : Buffer) (pos : Nat) (inside : pos + 2 ≤ b.code.size) :
    ∃ word, b.bytes.word16At? pos = some word := by
  have high : pos < b.bytes.length := by rw [length_bytes]; omega
  have low : pos + 1 < b.bytes.length := by rw [length_bytes]; omega
  unfold Bytes.word16At?
  rw [List.getElem?_eq_getElem high, List.getElem?_eq_getElem low]
  exact ⟨_, rfl⟩

theorem offset16_eq {word : Int16} (found : b.bytes.word16At? pos = some word) :
    b.offset16 pos = word.toInt := by
  unfold Bytes.word16At? at found
  unfold offset16
  rw [getD_code, getD_code]
  split at found
  · rename_i high low atHigh atLow
    rw [atHigh, atLow, ← Option.some.inj found]
    rfl
  · cases found

end Buffer

namespace Session

variable {log : List (Nat × Nat)} {site : JumpSite} {merged merged' : Option State} {b' : Buffer}
  {chain : Chain} {rest : Multiset Nat}

/-- What holds of a session while a frame is due or not at the end of its code. -/
structure Upright (ctx : Context) (due : Bool) (s : Session) : Prop where
  aims : Aims ctx.wide s.written s.entries s.switches s.filled s.buffer.bytes
  known : ∀ p ∈ s.observed, Boundary s.buffer.bytes 0 p
  sorted : s.observed.Pairwise (· ≥ ·)
  noted : ∀ p ∈ s.entries, p ∈ s.observed
  entered : ∀ p ∈ s.entries, Inside s.buffer.alive s.buffer.bytes p
  landed : ∀ entry ∈ s.written, Inside s.buffer.alive s.buffer.bytes entry.2
  frames : Rows s.buffer.alive s.buffer.bytes s.buffer.frames
  lines : Rows s.buffer.alive s.buffer.bytes s.buffer.lines
  covered : ∀ row ∈ s.buffer.catches.toList, row.start.toNat ∈ s.observed ∧
    row.stop.toNat ∈ s.observed ∧ row.handler.toNat ∈ s.entries ∧
    row.start.toNat ≤ row.handler.toNat
  started : s.buffer.code.size = 0 → s.buffer.alive = true
  framed : ctx.settings.stackMaps = true → s.Framed due

/-- The end of the code is marked if something depends on it. -/
structure Firm (s : Session) : Prop where
  known : ∀ p ∈ s.observed, p = s.buffer.code.size → s.buffer.fixed = true
  landed : ∀ entry ∈ s.written, entry.2 = s.buffer.code.size → s.buffer.fixed = true

variable {ctx : Context} {s : Session} {b : Buffer} {sites : Multiset Nat} {pc target : Nat}
  {due d : Bool}

theorem Upright.start (ctx : Context) (pool : Pool) : (start pool).Upright ctx false where
  aims := .empty ctx.wide
  known _ member := absurd member List.not_mem_nil
  sorted := .nil
  noted _ member := absurd member List.not_mem_nil
  entered _ member := absurd member List.not_mem_nil
  landed _ member := absurd member List.not_mem_nil
  frames := .empty
  lines := .empty
  covered _ member := absurd member List.not_mem_nil
  started _ := rfl
  framed _ := .start pool

theorem Firm.start (pool : Pool) : (start pool).Firm :=
  ⟨nofun, nofun⟩

theorem Firm.of_fixed (fixed : s.buffer.fixed = true) : s.Firm :=
  ⟨fun _ _ _ => fixed, fun _ _ _ => fixed⟩

theorem Firm.congr (firm : s.Firm) (bytes : b.bytes.length = s.buffer.bytes.length)
    (fixed : b.fixed = s.buffer.fixed) : (s.moved b []).Firm := by
  rw [Buffer.length_bytes, Buffer.length_bytes] at bytes
  rw [moved_nil]
  exact ⟨fun p member here => fixed.trans (firm.known p member (here.trans bytes)),
    fun entry member here => fixed.trans (firm.landed entry member (here.trans bytes))⟩

namespace Upright

variable (upright : s.Upright ctx due)

include upright

theorem layout (same : SameLayout 0 s.buffer.bytes b.bytes)
    (aims : Aims ctx.wide (s.written ++ log) s.entries s.switches s.filled b.bytes)
    (goes : s.buffer.alive = true → b.alive = true)
    (landed : ∀ entry ∈ log, Inside b.alive b.bytes entry.2)
    (frames : Rows b.alive b.bytes b.frames) (lines : Rows b.alive b.bytes b.lines)
    (catches : b.catches = s.buffer.catches)
    (framed : ctx.settings.stackMaps = true → (s.moved b log).Framed d) :
    (s.moved b log).Upright ctx d where
  aims := aims
  known p member := same.boundary p (upright.known p member)
  sorted := upright.sorted
  noted := upright.noted
  entered p member := (upright.entered p member).layout same goes
  landed entry member := by
    rcases List.mem_append.mp member with old | new
    · exact (upright.landed entry old).layout same goes
    · exact landed entry new
  frames := frames
  lines := lines
  covered := by
    change ∀ row ∈ b.catches.toList, _
    rw [catches]
    exact upright.covered
  started none := by
    have size := same.size
    rw [Buffer.length_bytes, Buffer.length_bytes] at size
    exact goes (upright.started (size.symm.trans none))
  framed := framed

theorem congr (bytes : b.bytes = s.buffer.bytes) (goes : s.buffer.alive = true → b.alive = true)
    (tables : b.tables = s.buffer.tables) (dues : ctx.settings.stackMaps = true →
      (due = true → d = true) ∧ (b.alive = true → s.buffer.alive = true ∨ d = true)) :
    (s.moved b []).Upright ctx d := by
  have frames : b.frames = s.buffer.frames := congrArg Buffer.Tables.frames tables
  have lines : b.lines = s.buffer.lines := congrArg Buffer.Tables.lines tables
  have catches : b.catches = s.buffer.catches := congrArg Buffer.Tables.catches tables
  have same : SameLayout 0 s.buffer.bytes b.bytes := bytes ▸ .refl 0 _
  have keeps : ∀ p, Inside s.buffer.alive s.buffer.bytes p → Inside b.alive b.bytes p :=
    fun p inside => inside.layout same goes
  refine upright.layout same ?_ goes (by simp) (frames ▸ upright.frames.imp keeps)
    (lines ▸ upright.lines.imp keeps) catches fun maps => ?_
  · rw [List.append_nil, bytes]
    exact upright.aims
  · have size : b.code.size = s.buffer.code.size := congrArg List.length bytes
    exact (upright.framed maps).layout size (bytes ▸ fun _ _ => id) frames (dues maps).1 (dues maps).2
      (by simp)

theorem landing_eq (wired : Wired ctx.wide s.buffer.needsWide 0 sites s.written s.buffer.bytes)
    (entered : target ∈ s.entries) :
    Asm.landing s.buffer ctx.wide target = target ∨ ∃ entry ∈ s.written, Asm.landing s.buffer
      ctx.wide target = entry.2 := by
  have boundary := (upright.entered target entered).boundary
  have bound := boundary.le_length
  rw [Buffer.length_bytes] at bound
  unfold Asm.landing
  split
  · exact .inl (by omega)
  rename_i inside
  split
  · rename_i follows
    simp only [Bool.and_eq_true, Bool.not_eq_true', beq_iff_eq] at follows
    obtain ⟨narrow, isGoto⟩ := follows
    have less : target < s.buffer.bytes.length := by
      rw [Buffer.length_bytes]
      omega
    have jump : JumpAt s.buffer.bytes 0 target Opcode.goto := by
      refine ⟨boundary, ?_, rfl⟩
      rw [Buffer.getD_code, List.getElem?_eq_getElem less, Option.getD_some] at isGoto
      rw [List.getElem?_eq_getElem less, isGoto]
    have fits := jump.end_le wired.tiled less
    have short : Opcode.jumpLength Opcode.goto = 3 := rfl
    obtain ⟨offset, found⟩ := s.buffer.exists_word16At? (target + 1)
      (by rw [Buffer.length_bytes] at fits; omega)
    have decoded := jump.targets_eq.trans (Bytes.jumpTargets_short short found)
    rw [Buffer.offset16_eq found]
    by_cases unwritten : writeCount s.written target = 0
    · left
      rw [upright.aims.blank target _ jump unwritten] at decoded
      have := List.singleton_inj.mp decoded
      omega
    · right
      obtain ⟨entry, member, rfl⟩ :=
        List.mem_map.mp (List.count_pos_iff.mp (Nat.pos_of_ne_zero unwritten))
      refine ⟨entry, member, ?_⟩
      rw [upright.aims.aimed entry member (by simp [narrow])] at decoded
      have := List.singleton_inj.mp decoded
      omega
  · exact .inl rfl

/-- Where jumps may be made to go: to the end of the code, or to a position that has been
entered. -/
def Goal (s : Session) (target : Nat) : Prop := s.buffer.code.size ≤ target ∨ target ∈ s.entries

theorem landing_boundary
    (wired : Wired ctx.wide s.buffer.needsWide 0 sites s.written s.buffer.bytes)
    (goal : Goal s target) : Boundary s.buffer.bytes 0 (Asm.landing s.buffer ctx.wide target) := by
  rcases goal with above | entered
  · rw [Asm.landing_of_le above, ← Buffer.length_bytes]
    exact wired.tiled
  · rcases upright.landing_eq wired entered with same | ⟨entry, member, same⟩
    · rw [same]
      exact (upright.entered target entered).boundary
    · rw [same]
      exact (upright.landed entry member).boundary

/-- A waiting jump is made to go to a position. If that is the end of the code, then a frame is due
there. -/
theorem fill (wired : Wired ctx.wide s.buffer.needsWide 0 (pc ::ₘ sites) s.written s.buffer.bytes)
    (slotted : Slotted 0 s.switches s.buffer.bytes) (goal : Goal s target)
    (run : Asm.patch pc (Asm.landing s.buffer ctx.wide target) ctx s.buffer = .ok () b)
    (stays : due = true ∨ b.code.size = Asm.landing s.buffer ctx.wide target → d = true) :
    (s.moved { b with
        fixed := true
        alive := b.alive || decide (b.code.size = Asm.landing s.buffer ctx.wide target) }
      (Asm.writes ctx pc (Asm.landing s.buffer ctx.wide target))).Upright ctx d := by
  have same := Asm.sameLayout_patch wired run
  have aims := Asm.aims_patch upright.aims wired slotted run
  have size : b.code.size = s.buffer.code.size := by
    have size := same.size
    rwa [Buffer.length_bytes, Buffer.length_bytes] at size
  have rest : b.alive = s.buffer.alive ∧ b.frames = s.buffer.frames ∧
      b.lines = s.buffer.lines ∧ b.catches = s.buffer.catches := by
    rcases Asm.patch_ok run with ⟨_, rfl⟩ | ⟨_, _, rfl⟩ <;> exact ⟨rfl, rfl, rfl, rfl⟩
  obtain ⟨alive, frames, lines, catches⟩ := rest
  have goes (before : s.buffer.alive = true) :
      (b.alive || decide (b.code.size = Asm.landing s.buffer ctx.wide target)) = true := by
    rw [alive, before]
    rfl
  have keeps p (inside : Inside s.buffer.alive s.buffer.bytes p) := inside.layout same goes
  have here entry (member : entry ∈ Asm.writes ctx pc (Asm.landing s.buffer ctx.wide target)) :
      entry.2 = Asm.landing s.buffer ctx.wide target := by
    unfold Asm.writes at member
    split at member
    · cases List.mem_singleton.mp member
      rfl
    · cases member
  refine upright.layout same aims goes (fun entry member => ?_) (frames ▸ upright.frames.imp keeps) (lines ▸ upright.lines.imp keeps)
    catches fun maps => ?_
  · have goal := same.boundary _ (upright.landing_boundary wired goal)
    refine ⟨here entry member ▸ goal, fun last => ?_⟩
    change entry.2 = b.bytes.length at last
    rw [here entry member, Buffer.length_bytes] at last
    simp [last]
  have framed := upright.framed maps
  refine framed.layout size (fun p q stops => stops.layout same wired.tiled) frames
    (fun isDue => stays (.inl isDue)) (fun goes => ?_) fun entry member => ?_
  · exact (Bool.or_eq_true_iff.mp goes).imp alive.symm.trans fun lands => stays (.inr (by simpa using lands))
  rw [here entry member]
  by_cases last : b.code.size = Asm.landing s.buffer ctx.wide target
  · exact .inr ⟨last.symm, stays (.inr last)⟩
  -- Before the end a jump lands where a frame is needed anyway.
  have served : s.buffer.Served due (Asm.landing s.buffer ctx.wide target) := by
    rcases goal with above | entered
    · exact absurd (size.trans (Asm.landing_of_le above).symm) last
    · rcases upright.landing_eq wired entered with stay | ⟨other, member, follow⟩
      · rw [stay]
        exact framed.entered target entered
      · rw [follow]
        exact framed.landed other member
  obtain ⟨row, member, at_⟩ := served.hasFrame fun back => last (size.trans back.symm)
  exact .inl ⟨row, frames ▸ member, at_⟩

/-- The `goto` at the end is dropped. Frames before its own end are kept, and nothing has needed one
at the end itself. -/
theorem retract (firm : s.Firm)
    (wired : Wired ctx.wide s.buffer.needsWide 0 (site.pc ::ₘ sites) s.written s.buffer.bytes)
    (slotted : Slotted 0 s.switches s.buffer.bytes)
    (droppable : Asm.Droppable ctx s.buffer target site) (fixed : Bool) :
    (s.moved { s.buffer.retract 3 with alive := true, fixed } []).Upright ctx d := by
  obtain ⟨size, start, bytes, opcode, jump⟩ := droppable.last wired
  have stays p (boundary : Boundary s.buffer.bytes 0 p)
      (marks : p = s.buffer.code.size → s.buffer.fixed = true) :
      Inside true (s.buffer.retract 3).bytes p := by
    rw [bytes]
    refine .take boundary jump size fun here => ?_
    rw [Buffer.length_bytes] at here
    exact absurd (marks here) (by simp [droppable.2.2.2])
  have seen p member := stays p (upright.known p member) (firm.known p member)
  have entered p member := seen p (upright.noted p member)
  have landed entry member := stays entry.2 (upright.landed entry member).boundary (firm.landed entry member)
  rw [moved_nil]
  refine ⟨?_, fun p member => (seen p member).boundary, upright.sorted, upright.noted, entered, landed, ?_,
    ?_, upright.covered, fun _ => rfl, fun maps => ?_⟩
  · change Aims ctx.wide s.written s.entries s.switches s.filled (s.buffer.retract 3).bytes
    rw [bytes]
    exact upright.aims.take_of_last wired slotted size
  · change Rows true (s.buffer.retract 3).bytes (s.buffer.retract 3).frames
    rw [bytes, Buffer.frames_retract, start]
    exact upright.frames.take jump size
  · change Rows true (s.buffer.retract 3).bytes (s.buffer.retract 3).lines
    rw [bytes, Buffer.lines_retract, start]
    exact upright.lines.take jump size
  have last := droppable.pc_eq
  have tiled : Boundary (s.buffer.bytes.take site.pc) 0 (s.buffer.bytes.take site.pc).length := by
    rw [List.length_take, Nat.min_eq_left (by omega)]
    exact jump.boundary.take le_rfl
  have framed := upright.framed maps
  have keeps p (served : s.buffer.Served due p) (bound : p ≤ (s.buffer.retract 3).bytes.length) :
      ({ s.buffer.retract 3 with alive := true, fixed } : Buffer).Served d p := by
    rw [bytes, List.length_take] at bound
    obtain ⟨row, member, rfl⟩ := served.hasFrame (by omega)
    refine .inl ⟨row, ?_, rfl⟩
    change row ∈ (s.buffer.retract 3).frames.toList
    rw [Buffer.frames_retract, start]
    exact Rows.mem_upTo member (by omega)
  refine ⟨fun p member => keeps p (framed.entered p member) (entered p member).le_length,
    fun entry member => keeps _ (framed.landed entry member) (landed entry member).le_length,
    fun p q stops => .inl ?_⟩
  change Stops (s.buffer.retract 3).bytes p q at stops
  rw [bytes] at stops keeps
  have bound := stops.le_of_boundary tiled stops.lt_length
  refine keeps q ((framed.resumed p q (stops.of_take tiled)).resolve_right fun here => ?_) bound
  rw [List.length_take] at bound
  omega

theorem not_droppable (firm : s.Firm)
    (wired : Wired ctx.wide s.buffer.needsWide 0 sites s.written s.buffer.bytes)
    (entered : target ∈ s.entries) : ¬Asm.Droppable ctx s.buffer target site := by
  rintro ⟨_, _, last, loose⟩
  rcases upright.landing_eq wired entered with same | ⟨entry, member, same⟩
  · have := firm.known target (upright.noted target entered) (same.symm.trans last)
    rw [loose] at this
    cases this
  · have := firm.landed entry member (same.symm.trans last)
    rw [loose] at this
    cases this

end Upright

theorem arrive_dropped (drop : Asm.Droppable ctx b target site)
    (arrived : Asm.arrive site (Asm.landing b ctx.wide target - 3) merged ctx (b.retract 3) =
      .ok merged' b') : b' = { b.retract 3 with fixed := true, alive := true } := by
  have here : (b.retract 3).code.size = Asm.landing b ctx.wide target - 3 := by
    rw [Buffer.size_retract, drop.2.2.1]
  rw [Asm.arrive_buffer arrived, here]
  simp

theorem arrive_some (arrived : Asm.arrive site target merged ctx b = .ok merged' b')
    (brings : merged.isSome = true ∨ b.code.size = target) : merged'.isSome = true := by
  rcases Asm.arrive_ok arrived with ⟨away, rfl, _⟩ | ⟨_, _, ⟨state, _, rfl⟩, _⟩ | ⟨_, _, rfl, _⟩
  · exact brings.resolve_right away
  · rfl
  · rfl

/-- Resolving a chain keeps the session upright, as long as nothing depends on what is dropped. On
the way a state that has been brought along stands for a frame that is due. -/
theorem Upright.resolves (resolved : Asm.Resolves ctx target merged chain b merged' b' log)
    (here : s.buffer = b) (upright : s.Upright ctx (b.frameDue || merged.isSome)) (firm : s.Firm)
    (wired : Wired ctx.wide b.needsWide 0 (chain.pcs + rest) s.written b.bytes)
    (slotted : Slotted 0 s.switches b.bytes) (goal : Goal s target) :
    (s.moved b' log).Upright ctx (b'.frameDue || merged'.isSome) := by
  induction resolved generalizing s with
  | done =>
    subst here
    simpa [moved] using upright
  | @dropLast _ site b drop =>
    subst here
    rw [Chain.pcs_cons, Multiset.cons_add] at wired
    exact upright.retract firm wired slotted drop s.buffer.fixed
  | @dropMore _ merged1 _ site _ _ b _ _ _ drop arrived _ ih =>
    subst here
    rw [Chain.pcs_cons, Multiset.cons_add] at wired
    have last := drop.pc_eq
    have after := arrive_dropped drop arrived
    subst after
    have size : (s.buffer.retract 3).code.size = s.buffer.code.size - 3 := Buffer.size_retract 3
    have shorter := drop.wired wired
    rw [← List.append_nil s.written] at shorter
    obtain ⟨_, _, jump⟩ := wired.boundary_of_last (Multiset.mem_cons_self _ _)
      (by rw [Buffer.length_bytes, last])
    have resolved := ih rfl (upright.retract firm wired slotted drop true) (.of_fixed rfl) shorter ?_ ?_
    · simpa [moved] using resolved
    · change Slotted 0 s.switches (s.buffer.retract 3).bytes
      rw [Buffer.bytes_retract, show s.buffer.code.size - 3 = site.pc by omega]
      exact slotted.take jump (by rw [Buffer.length_bytes, last])
    · refine goal.imp_left fun above => ?_
      change (s.buffer.retract 3).code.size ≤ target
      omega
  | @fill _ merged1 _ site _ b b1 _ _ _ keep isJump patched agree arrived _ ih =>
    subst here
    rw [Chain.pcs_cons, Multiset.cons_add] at wired
    have due : b1.frameDue = s.buffer.frameDue := by
      rcases Asm.patch_ok patched with ⟨_, rfl⟩ | ⟨_, _, rfl⟩ <;> rfl
    have filled := upright.fill (d := b1.frameDue || merged1.isSome) wired slotted goal patched
      fun arrives => ?_
    have settled := Asm.wired_patch wired patched
    have same := Asm.sameLayout_patch wired patched
    have size := same.size
    rw [Buffer.length_bytes, Buffer.length_bytes] at size
    have after := Asm.arrive_buffer arrived
    subst after
    have resolved := ih rfl filled (.of_fixed rfl) settled (slotted.sameLayout wired.tiled same)
      (goal.imp_left fun above => ?_)
    · simpa [moved, List.append_assoc] using resolved
    · change b1.code.size ≤ target
      omega
    · rw [due, Bool.or_eq_true]
      rcases arrives with isDue | here
      · exact (Bool.or_eq_true_iff.mp isDue).imp_right fun some => arrive_some arrived (.inl some)
      · exact .inr (arrive_some arrived (.inr here))

end Session

end ClassForge
