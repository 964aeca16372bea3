import ClassForge.Proofs.Ownership
import ClassForge.Proofs.Stocking

namespace ClassForge

variable {pc : Nat}

namespace Asm

variable {ctx : Context} {target : Nat} {merged merged' : Option State} {chain : Chain}
  {b b' : Buffer} {log : List (Nat × Nat)}

theorem needsWide_of_patch {goal : Nat} (run : patch pc goal ctx b = .ok () b')
    (short : b'.needsWide = false) : b.needsWide = false := by
  rcases patch_ok run with ⟨_, rfl⟩ | ⟨_, _, rfl⟩
  · exact short
  · cases short


theorem Resolves.short (resolved : Resolves ctx target merged chain b merged' b' log)
    (short : b'.needsWide = false) : b.needsWide = false := by
  induction resolved with
  | done => exact short
  | dropLast => exact short
  | dropMore _ arrived _ ih =>
    have before := ih short
    rw [arrive_buffer arrived] at before
    exact before
  | fill _ _ patched _ arrived _ ih =>
    have before := ih short
    rw [arrive_buffer arrived] at before
    exact needsWide_of_patch patched before

theorem needsWide_settled (ctx : Context) (merged : Option State) (b : Buffer) :
    (settled ctx merged b).needsWide = b.needsWide :=
  congrArg Buffer.Core.needsWide (core_settled ctx merged b)

theorem Lands.short (lands : Lands ctx chain target b b' log) (short : b'.needsWide = false) :
    b.needsWide = false := by
  obtain ⟨merged, b1, resolved, rfl⟩ := lands
  rw [needsWide_settled] at short
  exact resolved.short short

theorem Flushes.short (flushes : Flushes ctx b b' log) (short : b'.needsWide = false) :
    b.needsWide = false :=
  Lands.short (b := { b with pending := [] }) flushes short

end Asm


/-- Values are only put into the pool, and the need for wide jumps stays. -/
structure Buffer.Onward (b b' : Buffer) : Prop where
  short : b'.needsWide = false → b.needsWide = false
  pool : b.pool.Stocked b'.pool

namespace Buffer.Onward

variable {b b1 b' : Buffer}

theorem trans (first : b.Onward b1) (second : b1.Onward b') : b.Onward b' :=
  ⟨fun short => first.short (second.short short), first.pool.trans second.pool⟩

theorem same (short : b'.needsWide = b.needsWide) (pool : b'.pool = b.pool) : b.Onward b' :=
  ⟨fun none => short.symm.trans none, pool ▸ .refl⟩

end Buffer.Onward

namespace Asm

variable {chain : Chain} {target : Nat}
variable {ctx : Context} {b b' : Buffer} {log : List (Nat × Nat)}

theorem Lands.pool_eq (lands : Lands ctx chain target b b' log) : b'.pool = b.pool := by
  obtain ⟨merged, b1, resolved, rfl⟩ := lands
  have settled : (settled ctx merged b1).pool = b1.pool := by cases merged <;> rfl
  rw [settled, resolved.frame]

theorem Lands.onward (lands : Lands ctx chain target b b' log) : b.Onward b' :=
  ⟨lands.short, lands.pool_eq ▸ .refl⟩

theorem Flushes.pool_eq (flushes : Flushes ctx b b' log) : b'.pool = b.pool :=
  Lands.pool_eq (b := { b with pending := [] }) flushes

theorem Flushes.onward (flushes : Flushes ctx b b' log) : b.Onward b' :=
  ⟨flushes.short, flushes.pool_eq ▸ .refl⟩

end Asm

theorem Addition.Fits.stocked {wide : Bool} {code : Bytes} {pool : Pool} {new : Addition}
    (fits : new.Fits wide code pool) : pool.Stocked new.pool := by
  cases fits with
  | plain encoded => exact Instruction.stocked_encode encoded
  | switch | jump => exact .refl

/-- No call takes anything out of the pool or unlearns that wide jumps are needed. -/
theorem Call.onward {ctx : Context} {α : Type} (call : Call α) {answer : α} {b b' : Buffer}
    (run : call.perform ctx b = .ok answer b') : b.Onward b' := by
  obtain ⟨_, logs⟩ := call.exists_logs run
  cases call.does_of_perform run logs with
  | still core _ _ _ _ rest => exact .same (congrArg Buffer.Core.needsWide core) rest.1
  | flush _ before flushes core rest =>
    have onward := flushes.onward
    rw [before] at onward
    exact .trans ⟨onward.short, onward.pool⟩ (.same (congrArg Buffer.Core.needsWide core) rest.1)
  | append kept taken flushes adds =>
    have onward := flushes.onward
    refine .trans ⟨onward.short, onward.pool⟩ ⟨?_, adds.pool ▸ adds.fits.stocked⟩
    exact fun short => (congrArg Buffer.Core.needsWide adds.core).symm.trans short
  | land lands => exact lands.onward

end ClassForge
