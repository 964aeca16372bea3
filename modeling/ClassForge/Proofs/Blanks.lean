import ClassForge.Proofs.Accounting
import ClassForge.Proofs.Aiming

namespace ClassForge

variable {opcode : UInt8} {α : Type} {call : Call α} {answer : α}

theorem three_le_siteLength (wide : Bool) : 3 ≤ siteLength wide := by
  unfold siteLength
  split <;> omega

namespace Bytes

def Outside (wide : Bool) (sites : Multiset Nat) (i : Nat) : Prop :=
  ∀ pc ∈ sites, i < pc ∨ pc + siteLength wide ≤ i

/-- From one code to another where some of the waiting jumps are gone. New ones are blank and come
after all that stays. -/
structure Moves (wide : Bool) (fills : List Nat) (gone new : Multiset Nat) (code other : Bytes) :
    Prop where
  stays : ∀ i < code.length, Outside wide gone i → (∀ pos ∈ fills, i < pos ∨ pos + 4 ≤ i) →
    other[i]? = code[i]?
  blank : ∀ pc ∈ new, other[pc + 1]? = some 0 ∧ other[pc + 2]? = some 0
  later : ∀ pc ∈ new, ∀ i < code.length, Outside wide gone i → i < pc

namespace Moves

variable {wide : Bool} {fills : List Nat} {code other : Bytes} {gone new : Multiset Nat}

theorem apart (moves : Moves wide [] gone new code other) : Moves wide fills gone new code other :=
  ⟨fun i inside outside _ => moves.stays i inside outside (by simp), moves.blank, moves.later⟩

theorem append (moves : Moves wide fills gone new code other) (bytes : Bytes) :
    Moves wide fills gone new code (other ++ bytes) where
  stays i inside outside away := by
    have same := moves.stays i inside outside away
    have found := same.trans (List.getElem?_eq_getElem inside)
    rw [List.getElem?_append_left (List.getElem?_eq_some_iff.mp found).1, same]
  blank pc member := by
    obtain ⟨high, low⟩ := moves.blank pc member
    have inside := (List.getElem?_eq_some_iff.mp low).1
    rw [List.getElem?_append_left (by omega), List.getElem?_append_left inside]
    exact ⟨high, low⟩
  later := moves.later

theorem jump {bytes : Bytes} {back : Nat} (moves : Moves wide [] gone 0 code other)
    (chosen : Asm.jumpBytes wide opcode = some (bytes, back)) :
    Moves wide [] gone {other.length + bytes.length - back} code (other ++ bytes) where
  stays := (moves.append bytes).stays
  blank pc member := by
    have zero : bytes[bytes.length - back + 1]? = some 0 ∧ bytes[bytes.length - back + 2]? = some 0 := by
      rcases Asm.jumpBytes_cases chosen with ⟨_, rfl, rfl⟩ | ⟨_, rfl, ⟨rfl, _⟩ | ⟨rfl, _⟩⟩ |
        ⟨_, rfl, _, _, _, _, rfl⟩ <;> exact ⟨rfl, rfl⟩
    have fits := Asm.length_of_jumpBytes chosen
    obtain rfl := Multiset.mem_singleton.mp member
    rw [List.getElem?_append_right (by omega), List.getElem?_append_right (by omega),
      show other.length + bytes.length - back + 1 - other.length = bytes.length - back + 1 by omega,
      show other.length + bytes.length - back + 2 - other.length = bytes.length - back + 2 by omega]
    exact zero
  later pc member i inside outside := by
    have same := moves.stays i inside outside (by simp)
    have found := (List.getElem?_eq_some_iff.mp (same.trans (List.getElem?_eq_getElem inside))).1
    have fits := Asm.length_of_jumpBytes chosen
    rw [Multiset.mem_singleton.mp member]
    omega

end Moves

end Bytes

open Bytes (Outside Moves)

namespace Asm

variable {ctx : Context} {b b' : Buffer} {log : List (Nat × Nat)} {chain : Chain} {target : Nat}

theorem Resolves.stays {merged merged' : Option State} {i : Nat}
    (resolved : Resolves ctx target merged chain b merged' b' log) (inside : i < b.bytes.length)
    (outside : Outside ctx.wide chain.pcs i) : b'.bytes[i]? = b.bytes[i]? := by
  have long := three_le_siteLength ctx.wide
  -- The code before a jump that is dropped from its end stays.
  have dropped {b : Buffer} {site : JumpSite} (drop : Droppable ctx b target site)
      (inside : i < b.bytes.length) (away : i < site.pc ∨ site.pc + siteLength ctx.wide ≤ i) :
      i < (b.retract 3).bytes.length ∧ (b.retract 3).bytes[i]? = b.bytes[i]? := by
    have last := drop.pc_eq
    rw [Buffer.length_bytes] at inside
    rw [Buffer.bytes_retract, List.length_take, Buffer.length_bytes, List.getElem?_take_of_lt (by omega)]
    exact ⟨by omega, rfl⟩
  induction resolved with
  | done => rfl
  | dropLast drop => exact (dropped drop inside (outside _ (by simp [Chain.pcs_cons]))).2
  | @dropMore _ _ _ site next rest _ _ _ _ drop arrived _ ih =>
    rw [Chain.pcs_cons] at outside
    obtain ⟨still, same⟩ := dropped drop inside (outside _ (Multiset.mem_cons_self _ _))
    rw [arrive_buffer arrived] at ih
    exact (ih still fun pc member => outside pc (Multiset.mem_cons_of_mem member)).trans same
  | @fill _ _ _ site _ c _ _ _ _ keep isJump patched agree arrived _ ih =>
    rw [Chain.pcs_cons] at outside
    have away := outside _ (Multiset.mem_cons_self _ _)
    have others : Outside ctx.wide (Chain.pcs _) i := fun pc member =>
      outside pc (Multiset.mem_cons_of_mem member)
    rw [arrive_buffer arrived] at ih
    rcases patch_ok patched with ⟨_, rfl⟩ | ⟨_, _, rfl⟩
    · have length := length_offsetBytes ctx site.pc (landing c ctx.wide target)
      have same : (c.overwrite (site.pc + 1)
          (offsetBytes ctx site.pc (landing c ctx.wide target))).bytes[i]? = c.bytes[i]? := by
        rw [Buffer.bytes_overwrite, if_neg (by omega)]
      refine (ih ?_ others).trans same
      exact (List.getElem?_eq_some_iff.mp (same.trans (List.getElem?_eq_getElem inside))).1
    · exact ih inside others

theorem Lands.moves (lands : Lands ctx chain target b b' log) :
    Moves ctx.wide [] chain.pcs 0 b.bytes b'.bytes := by
  obtain ⟨merged, b1, resolved, rfl⟩ := lands
  have bytes : (settled ctx merged b1).bytes = b1.bytes :=
    congrArg Buffer.Core.bytes (core_settled ctx merged b1)
  exact ⟨fun i inside outside _ => bytes ▸ resolved.stays inside outside, by simp, by simp⟩

theorem Flushes.moves (flushes : Flushes ctx b b' log) :
    Moves ctx.wide [] b.pending.pcs 0 b.bytes b'.bytes :=
  Lands.moves (b := { b with pending := [] }) flushes

end Asm

theorem Call.moves {ctx : Context} {b b' : Buffer} (run : call.perform ctx b = .ok answer b') :
    ∃ gone kept new : Multiset Nat,
      b.pending.pcs + call.takes = gone + kept ∧ b'.pending.pcs + call.gives answer = new + kept ∧
      Moves ctx.wide call.fills gone new b.bytes b'.bytes := by
  obtain ⟨_, logs⟩ := call.exists_logs run
  cases call.does_of_perform run logs with
  | still core stays _ _ waits =>
    exact ⟨_, _, 0, waits, (zero_add _).symm, fun i _ _ => stays i, by simp, by simp⟩
  | @flush a c asks before flushes core =>
    obtain ⟨free, gives, _⟩ := free_of_asks asks answer b b'
    have pending : b'.pending = [] := (congrArg Buffer.Core.pending core).trans flushes.pending_eq
    have bytes : b'.bytes = c.bytes := congrArg Buffer.Core.bytes core
    refine ⟨_, 0, 0, by rw [free.takes], by rw [pending, gives]; rfl, ?_⟩
    rw [bytes, ← show a.bytes = b.bytes from congrArg Buffer.Core.bytes before.core_eq,
      ← show a.pending = b.pending from congrArg Buffer.Core.pending before.core_eq]
    exact flushes.moves.apart
  | @append c _ new kept taken flushes adds free _ split gives =>
    have pending : b'.pending = [] := (congrArg Buffer.Core.pending adds.core).trans flushes.pending_eq
    refine ⟨kept.pcs, taken, new.sites, by rw [free.takes, split, add_zero],
      by rw [pending, gives]; exact zero_add _, ?_⟩
    rw [adds.bytes_eq]
    cases adds.fits with
    | plain | switch => exact (flushes.moves.append _).apart
    | jump _ chosen => exact (flushes.moves.jump chosen).apart
  | land lands _ _ takes gives =>
    refine ⟨_, b.pending.pcs, 0, by rw [takes, add_comm], ?_, lands.moves.apart⟩
    rw [gives, lands.frame.1]
    exact add_comm _ _

namespace Buffer.Core

def Blank (rest : Multiset Nat) (core : Core) : Prop :=
  ∀ pc ∈ core.pending.pcs + rest, core.bytes[pc + 1]? = some 0 ∧ core.bytes[pc + 2]? = some 0

end Buffer.Core

/-- A waiting jump has no offset yet, whatever calls are made. -/
theorem Call.blank {ctx : Context} {b b' : Buffer} {rest : Multiset Nat} {log : List (Nat × Nat)}
    {places : List SwitchPlace} (blank : b.core.Blank (call.takes + rest))
    (carries : b.core.Carries ctx.wide 0 (call.takes + rest) log)
    (slotted : Slotted 0 places b.bytes)
    (slots : ∀ pos ∈ call.fills, ∃ place ∈ places, place.IsSlot pos)
    (run : call.perform ctx b = .ok answer b') : b'.core.Blank (call.gives answer + rest) := by
  obtain ⟨gone, kept, new, split, gave, moves⟩ := call.moves run
  have waited : b.core.pending.pcs + (call.takes + rest) = gone + (kept + rest) := by
    rw [← add_assoc, show b.core.pending.pcs + call.takes = _ from split, add_assoc]
  have wired := carries.wired
  unfold Buffer.Core.Blank at blank
  rw [waited] at wired blank
  intro pc member
  rw [← add_assoc, show b'.core.pending.pcs + call.gives answer = _ from gave, add_assoc] at member
  rcases Multiset.mem_add.mp member with fresh | old
  · exact moves.blank pc fresh
  -- The jump has waited before, apart from those that are gone and from the operands of switches.
  have waits : pc ∈ gone + (kept + rest) := Multiset.mem_add.mpr (.inr old)
  obtain ⟨opcode, jump, length⟩ := wired.jumps pc waits (Nat.zero_le _)
  have fits := jump.end_le wired.tiled jump.lt_length
  have long := three_le_siteLength ctx.wide
  have kept (i : Nat) (lower : pc ≤ i) (upper : i < pc + siteLength ctx.wide) :
      b'.bytes[i]? = b.bytes[i]? := by
    refine moves.stays i (by rw [Buffer.core_bytes] at fits; omega) (fun left member => ?_)
      fun pos filled => ?_
    · obtain ⟨_, found, size⟩ := wired.jumps left (Multiset.mem_add.mpr (.inl member)) (Nat.zero_le _)
      have differ : pc ≠ left := by
        rintro rfl
        exact Multiset.disjoint_left.mp (Multiset.nodup_add.mp wired.distinct).2.2 member old
      have apart := jump.boundary.apart found.boundary jump.instructionLength?
        found.instructionLength? differ
      omega
    · obtain ⟨place, listed, j, inside, _, rfl⟩ := slots pos filled
      have inCode : place.InCode 0 b.bytes := (slotted place listed).resolve_left (by omega)
      have after := inCode.start_lt
      have apart := jump.boundary.apart inCode.boundary jump.instructionLength? inCode.length
        (inCode.start_ne jump).symm
      omega
  change b'.bytes[pc + 1]? = some 0 ∧ b'.bytes[pc + 2]? = some 0
  rw [kept _ (by omega) (by omega), kept _ (by omega) (by omega)]
  exact blank pc waits

end ClassForge
