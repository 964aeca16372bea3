import ClassForge.Proofs.Exits
import ClassForge.Proofs.Records

namespace ClassForge

variable {pool : Pool}

namespace Buffer

variable {b : Buffer} {due : Bool} {p : Nat}

def HasFrame (b : Buffer) (p : Nat) : Prop := ∃ row ∈ b.frames.toList, row.1 = p

def Served (b : Buffer) (due : Bool) (p : Nat) : Prop :=
  b.HasFrame p ∨ p = b.code.size ∧ due = true

theorem Served.hasFrame (served : b.Served due p) (before : p ≠ b.code.size) : b.HasFrame p :=
  served.resolve_right fun last => before last.1

theorem hasFrame_begun {ctx : Context} (maps : ctx.settings.stackMaps = true)
    (served : b.Served b.frameDue p) : (Asm.begun ctx b).HasFrame p := by
  have frames : (Asm.marked ctx b).frames = b.frames := by rw [Asm.marked_eq]
  have size : (Asm.marked ctx b).code = b.code := by rw [Asm.marked_eq]
  unfold Asm.begun
  split
  · rw [Asm.framed_eq _ maps]
    by_cases last : p = b.code.size
    · refine ⟨_, Array.mem_toList_iff.mpr Array.mem_push_self, ?_⟩
      rw [last, ← size]
    · obtain ⟨row, member, rfl⟩ := served.hasFrame last
      refine ⟨row, ?_, rfl⟩
      change row ∈ (Array.push (Rows.without (Asm.marked ctx b).frames _) _).toList
      rw [Array.toList_push, frames, size]
      exact List.mem_append_left _ (Rows.mem_without member last)
  · rename_i settled
    obtain ⟨row, member, rfl⟩ := served.resolve_right fun last => settled last.2
    exact ⟨row, frames ▸ member, rfl⟩

end Buffer

theorem Addition.Fits.stops {wide : Bool} {code : Bytes} {new : Addition} {p q : Nat}
    (fits : new.Fits wide code pool) (whole : new.whole) (tiled : Boundary code 0 code.length)
    (stops : Stops (code ++ new.bytes) p q) : Stops code p q ∨
      q = (code ++ new.bytes).length ∧ (new.goes = true → new.log ≠ []) := by
  cases fits with
  | plain encoded =>
    have next := (Instruction.isPlain_encode encoded).isNext code
    refine (stops.append_cases tiled next.complete).imp_right fun ⟨ends, last⟩ => ⟨last, fun goes => ?_⟩
    exact absurd (Instruction.continues_encode (by simpa using goes) encoded) ends
  | switch table operands =>
    refine (stops.append_cases tiled (SwitchOperands.isNext code whole).complete).imp_right
      fun ⟨ends, _⟩ => absurd (Instruction.continues_cons ?_) ends
    cases table <;> rfl
  | jump valid chosen =>
    refine (stops.jump_cases valid chosen tiled).imp_right fun ⟨last, form⟩ => ⟨last, fun goes => ?_⟩
    have long := form.resolve_left (of_decide_eq_true goes)
    simp [Asm.skips, long]

namespace Session

variable {ctx : Context} {s : Session} {b : Buffer} {due due' : Bool} {log : List (Nat × Nat)}

def moved (s : Session) (b : Buffer) (log : List (Nat × Nat)) : Session :=
  { s with buffer := b, written := s.written ++ log }

theorem moved_nil (s : Session) (b : Buffer) : s.moved b [] = { s with buffer := b } := by
  simp [moved]

/-- Positions that have been entered, the targets of jumps and the ends of instructions that do not
go on have frames, recorded or due. The end of the code needs none while it cannot be reached. -/
structure Framed (s : Session) (due : Bool) : Prop where
  entered : ∀ p ∈ s.entries, s.buffer.Served due p
  landed : ∀ entry ∈ s.written, s.buffer.Served due entry.2
  resumed : ∀ p q, Stops s.buffer.bytes p q →
    s.buffer.Served due q ∨ q = s.buffer.code.size ∧ s.buffer.alive = false

namespace Framed

theorem start (pool : Pool) : (start pool).Framed false where
  entered _ member := absurd member List.not_mem_nil
  landed _ member := absurd member List.not_mem_nil
  resumed p _ stops := absurd stops.lt_length (Nat.not_lt_zero p)

theorem hold {held discarded : Multiset Nat} {observed filled : List Nat} {switches : List SwitchPlace}
    (framed : s.Framed due) :
    ({ s with held, discarded, observed, filled, switches } : Session).Framed due :=
  ⟨framed.entered, framed.landed, framed.resumed⟩

theorem enter (framed : s.Framed true) :
    ({ s with entries := s.buffer.code.size :: s.entries } : Session).Framed true where
  entered := List.forall_mem_cons.mpr ⟨.inr ⟨rfl, rfl⟩, framed.entered⟩
  landed := framed.landed
  resumed := framed.resumed

/-- The code keeps its layout and no frame is lost. If the end becomes reachable, a frame is due
there. -/
theorem layout (framed : s.Framed due) (size : b.code.size = s.buffer.code.size)
    (stops : ∀ p q, Stops b.bytes p q → Stops s.buffer.bytes p q)
    (frames : b.frames = s.buffer.frames) (stays : due = true → due' = true)
    (wakes : b.alive = true → s.buffer.alive = true ∨ due' = true)
    (landed : ∀ entry ∈ log, b.Served due' entry.2) : (s.moved b log).Framed due' := by
  have keeps : ∀ p, s.buffer.Served due p → b.Served due' p := by
    rintro p (⟨row, member, here⟩ | ⟨last, isDue⟩)
    · exact .inl ⟨row, frames ▸ member, here⟩
    · exact .inr ⟨last.trans size.symm, stays isDue⟩
  refine ⟨fun p member => keeps p (framed.entered p member), fun entry member => ?_,
    fun p q stop => ?_⟩
  · rcases List.mem_append.mp member with old | new
    · exact keeps _ (framed.landed entry old)
    · exact landed entry new
  · rcases framed.resumed p q (stops p q stop) with served | ⟨last, dead⟩
    · exact .inl (keeps q served)
    · have last' := last.trans size.symm
      by_cases alive : b.alive = true
      · exact .inl (.inr ⟨last', (wakes alive).resolve_left (by simp [dead])⟩)
      · exact .inr ⟨last', Bool.eq_false_iff.mpr alive⟩

theorem append {added : List SwitchPlace} (framed : s.Framed s.buffer.frameDue)
    (maps : ctx.settings.stackMaps = true) (alive : s.buffer.alive = true)
    (frames : b.frames = (Asm.begun ctx s.buffer).frames)
    (landed : ∀ entry ∈ log, b.Served b.frameDue entry.2)
    (stops : ∀ p q, Stops b.bytes p q → Stops s.buffer.bytes p q ∨
      q = b.code.size ∧ (b.alive = true → b.frameDue = true)) :
    ({ s.moved b log with switches := added ++ s.switches } : Session).Framed b.frameDue := by
  have keeps : ∀ p, s.buffer.Served s.buffer.frameDue p → b.Served b.frameDue p := by
    intro p served
    obtain ⟨row, member, here⟩ := Buffer.hasFrame_begun maps served
    exact .inl ⟨row, frames ▸ member, here⟩
  refine ⟨fun p member => keeps p (framed.entered p member), fun entry member => ?_,
    fun p q stop => ?_⟩
  · rcases List.mem_append.mp member with old | new
    · exact keeps _ (framed.landed entry old)
    · exact landed entry new
  · rcases stops p q stop with old | ⟨last, wakes⟩
    · refine .inl (keeps q ((framed.resumed p q old).resolve_right fun dead => ?_))
      rw [alive] at dead
      cases dead.2
    · by_cases goes : b.alive = true
      · exact .inl (.inr ⟨last, wakes goes⟩)
      · exact .inr ⟨last, Bool.eq_false_iff.mpr goes⟩

end Framed

end Session

end ClassForge
