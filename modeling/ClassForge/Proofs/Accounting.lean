import ClassForge.Proofs.Alteration

namespace ClassForge

namespace Session

/-- The waiting jumps of a session and the operands of its switches are accounted for. -/
structure Accounted (ctx : Context) (base : Nat) (s : Session) : Prop where
  carries : s.buffer.core.Carries ctx.wide base (s.held + s.discarded) s.written
  slotted : Slotted base s.switches s.buffer.bytes

theorem Accounted.start (ctx : Context) (pool : Pool) : (start pool).Accounted ctx 0 where
  carries := ⟨Wired.empty _ _, rfl⟩
  slotted _ member := absurd member List.not_mem_nil

namespace Accounted

variable {ctx : Context} {base : Nat} {s : Session} {α : Type} {call : Call α} {answer : α}
  {b : Buffer} {log : List (Nat × Nat)}

variable (accounted : s.Accounted ctx base)

include accounted

theorem sameLayout_putWord {pc : Nat} {value : Int32} (permits : s.Permits (.putWord pc value))
    (run : Asm.putWord pc value ctx s.buffer = .ok () b) :
    SameLayout base s.buffer.bytes b.bytes := by
  obtain ⟨place, member, slot⟩ := permits.slots pc (List.mem_singleton_self pc)
  obtain ⟨_, size, same⟩ := Asm.putWord_ok run
  refine accounted.slotted.fill member slot ?_ same
  rw [Buffer.length_bytes, Buffer.length_bytes, size]

section

variable (permits : s.Permits call) (run : call.perform ctx s.buffer = .ok answer b)

include permits run

theorem carries_step (logs : call.Logs ctx s.buffer b log) :
    b.core.Carries ctx.wide base
      ((s.after call answer b log).held + (s.after call answer b log).discarded)
      (s.written ++ log) := by
  obtain ⟨rest, held⟩ := Multiset.le_iff_exists_add.mp permits.owns
  have carries := accounted.carries
  have total : (s.after call answer b log).held + (s.after call answer b log).discarded =
      call.gives answer + (call.discards + (rest + s.discarded)) := by
    simp only [after, held, add_tsub_cancel_left]
    ac_rfl
  rw [total]
  rw [held, add_assoc] at carries
  cases call.does_of_perform run logs with
  | still core stays _ _ waits _ _ silent =>
    have same : b.pending.pcs + (call.gives answer + (call.discards + (rest + s.discarded))) =
        s.buffer.pending.pcs + (call.takes + (rest + s.discarded)) := by
      rw [← add_assoc, ← add_assoc, add_comm _ call.discards, ← waits, add_assoc]
    have layout : SameLayout base s.buffer.bytes b.bytes := by
      cases call with
      | putWord pc value => exact accounted.sameLayout_putWord permits run
      | _ =>
        rw [List.ext_getElem? fun i => stays i (by simp [Call.fills])]
        exact .refl base _
    rw [core, silent, List.append_nil]
    exact ⟨same ▸ carries.wired.congr layout, same ▸ carries.count⟩
  | flush asks before flushes core =>
    obtain ⟨free, gives, _⟩ := Call.free_of_asks asks answer b b
    rw [free.takes, zero_add, ← before.core_eq] at carries
    rw [gives, free.discards, zero_add, zero_add, core]
    exact ⟨(carries.flushes flushes).wired, (carries.flushes flushes).count⟩
  | append kept taken flushes adds free _ split gives _ whole _ logged =>
    rw [free.takes, zero_add] at carries
    have flushed := ((carries.split split).flushes flushes).adds (whole permits.complete) adds
    rw [gives, free.discards, zero_add, logged, add_assoc, ← List.append_assoc]
    exact flushed
  | land lands _ _ takes gives _ rest =>
    rw [takes] at carries
    rw [gives, rest.1, zero_add, zero_add]
    exact carries.lands lands

theorem alters : call.Alters ctx base s.buffer b := by
  obtain ⟨rest, held⟩ := Multiset.le_iff_exists_add.mp permits.owns
  have carries := accounted.carries
  rw [held, add_assoc] at carries
  refine call.alters carries ?_ run
  intro fills
  cases call with
  | putWord pc value => exact accounted.sameLayout_putWord permits run
  | _ => exact absurd rfl fills

theorem places_inCode {place : SwitchPlace} (member : place ∈ call.places answer) :
    place.InCode base b.bytes := by
  obtain ⟨_, logs⟩ := call.exists_logs run
  cases call.does_of_perform run logs with
  | still _ _ _ places => rw [places] at member; cases member
  | flush asks => rw [(Call.free_of_asks asks answer b b).2.2.1] at member; cases member
  | land _ _ _ _ _ _ rest => rw [rest.2.2] at member; cases member
  | @append c _ _ kept taken flushes adds free _ split _ _ whole places =>
    have carries := accounted.carries
    have whole := whole permits.complete
    have tiled := ((carries.split split).flushes flushes).wired.tiled
    rw [places] at member
    rw [adds.bytes_eq]
    cases adds.fits with
    | plain | jump => cases member
    | switch table operands =>
      cases List.mem_singleton.mp member
      have total := Bytes.length_ofSwitch table c.bytes.length operands
      refine ⟨tiled.append _, ?_, rfl, ?_⟩
      · rw [List.getElem?_append_right (le_rfl), Nat.sub_self]
        rfl
      · rw [(SwitchOperands.isNext c.bytes whole).complete]
        congr 1
        change _ = Bytes.switchBase c.bytes.length + 4 * operands.length - c.bytes.length
        omega

end

theorem step {s' : Session} (step : Step ctx s s') : s'.Accounted ctx base := by
  obtain ⟨call, permits, run, logs⟩ := step
  have carries := accounted.carries_step permits run logs
  refine ⟨carries, ?_⟩
  intro place member
  rcases List.mem_append.mp member with new | old
  · exact .inr (accounted.places_inCode permits run new)
  · exact (accounted.alters permits run).reworked.slotted accounted.carries.wired.tiled
      accounted.slotted place old

end Accounted

/-- After any calls every waiting jump is a jump in the code, and all other jumps have an offset. -/
theorem Reach.accounted {ctx : Context} {pool : Pool} {s : Session} (reach : Reach ctx pool s) :
    s.Accounted ctx 0 := by
  induction reach with
  | start => exact Accounted.start ctx pool
  | next _ step ih => exact ih.step step

end Session

end ClassForge
