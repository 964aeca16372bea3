import ClassForge.Proofs.Coverage
import ClassForge.Proofs.Liveness
import ClassForge.Proofs.Scopes

namespace ClassForge

variable {gaps all : List Nat} {first last : Nat}

theorem gapPairs_append {more : List Nat} (even : gaps.length % 2 = 0) :
    gapPairs (gaps ++ more) = gapPairs gaps ++ gapPairs more := by
  induction gaps using gapPairs.induct with
  | case1 start stop rest ih =>
    have even : rest.length % 2 = 0 := by
      simp only [List.length_cons] at even
      omega
    simp only [List.cons_append, gapPairs, ih even]
  | case2 start => cases even
  | case3 => rfl

theorem mem_gapPairs_later (sooner : gaps <+: all) (member : (first, some last) ∈ gapPairs gaps) :
    (first, some last) ∈ gapPairs all := by
  obtain ⟨more, rfl⟩ := sooner
  induction gaps using gapPairs.induct with
  | case1 start stop rest ih =>
    rcases List.mem_cons.mp member with same | member
    · rw [same]
      exact .head _
    · exact .tail _ (ih member)
  | case2 start => cases List.mem_singleton.mp member
  | case3 => cases member

def Scope.isInline : Scope → Bool
  | .guarded _ false => true
  | _ => false

theorem Scope.eq_of_isInline (scope : Scope) (inline : scope.isInline = true) :
    ∃ finalizer, scope = .guarded finalizer false := by
  cases scope with
  | guarded finalizer subroutine =>
    cases subroutine with
    | true => cases inline
    | false => exact ⟨finalizer, rfl⟩
  | loop | switch | labelled label | synchronized lock => cases inline

namespace Lowering

variable {finalizer : Option Finalizer} {scope : Scope} {y : Unit}
variable {mc : MethodContext} {ctx : Context} {σ σ' σ0 σ1 σ2 : MethodState}
  {b b' b0 b1 b2 : Buffer} {s : Session} {owned : Multiset Nat} {depth pc : Nat}

theorem finalize_inline (sound : scope.Sound) (inline : scope.isInline = true)
    (alive : b.isAlive = true) (inside : depth < σ.records.length) (holds : Holds ctx s σ b owned)
    (run : finalize depth scope mc σ ctx b = .ok (y, σ') b') :
    ∃ pc c, Asm.position ctx b = .ok pc c ∧ σ'.gap depth = σ.gap depth ++ [pc] := by
  obtain ⟨finalizer, rfl⟩ := scope.eq_of_isInline inline
  rw [finalize.eq_def, isAlive_bind] at run
  rw [if_pos alive] at run
  obtain ⟨_, _, c, marked, run⟩ := bind_ok.mp run
  obtain ⟨s1, pc, _, _, _, asked, rfl, holds1⟩ := markGap_ok holds marked
  refine ⟨pc, c, asked, ?_⟩
  have opened := MethodState.gap_push σ depth depth pc
  rw [if_pos ⟨rfl, inside⟩] at opened
  rw [← opened]
  cases finalizer with
  | none =>
    obtain ⟨_, rfl, _⟩ := pure_ok.mp run
    rfl
  | some finalizer =>
    obtain ⟨_, beyond, _⟩ := (keeps_outer (depth + 1) sound rfl).run run holds1
    exact beyond.inner depth (Nat.lt_succ_self depth)

/-- One of the gaps starts where the code in the first buffer ends, and stops where the code in the
second one does. -/
def Copied (ctx : Context) (gaps : List Nat) (b b' : Buffer) : Prop :=
  ∃ pc c, Asm.position ctx b = .ok pc c ∧ (pc, some b'.code.size) ∈ gapPairs gaps

theorem Copied.later (copied : Copied ctx gaps b b') (sooner : gaps <+: all) :
    Copied ctx all b b' := by
  obtain ⟨pc, c, asked, member⟩ := copied
  exact ⟨pc, c, asked, mem_gapPairs_later sooner member⟩

theorem mem_gapPairs_last (even : gaps.length % 2 = 0) :
    (first, some last) ∈ gapPairs (gaps ++ [first, last]) := by
  rw [gapPairs_append even]
  exact List.mem_append_right _ (.head _)

theorem copied_of_endGap (sound : scope.Sound) (inline : scope.isInline = true)
    (alive : b.isAlive = true) (shut : σ.ShutAt depth) (inside : depth < σ.records.length)
    (holds : Holds ctx s σ b owned) (finalized : finalize depth scope mc σ ctx b = .ok (y, σ1) b1)
    (run : endGap depth mc σ1 ctx b2 = .ok (y, σ') b') : Copied ctx (σ'.gap depth) b b' := by
  obtain ⟨pc, c, asked, opened⟩ := finalize_inline sound inline alive inside holds finalized
  refine ⟨pc, c, asked, ?_⟩
  rcases endGap_cases run with ⟨even, _⟩ | ⟨_, inside, stop, ended, rfl⟩
  · unfold MethodState.ShutAt at even shut
    rw [opened, List.length_append, List.length_singleton] at even
    omega
  · rw [MethodState.gap_push, if_pos ⟨rfl, inside⟩, opened, List.append_assoc,
      ← Asm.position_size ended]
    exact mem_gapPairs_last shut

theorem finalizeBody_inline (inline : scope.isInline = true) (isEmptyTry : Bool) :
    finalizeBody scope isEmptyTry = finalize 0 scope := by
  obtain ⟨finalizer, rfl⟩ := scope.eq_of_isInline inline
  cases finalizer <;> rfl

theorem endGapsFrom_dead {count : Nat} (dead : b.isAlive = false)
    (run : endGapsFrom depth count mc σ ctx b = .ok (y, σ') b') :
    b'.code.size = b.code.size ∧ b'.isAlive = false ∧ ∀ i,
      ((i < depth ∨ depth + count ≤ i) → σ'.gap i = σ.gap i) ∧
      (depth ≤ i → i < depth + count → ¬σ.ShutAt i → σ'.gap i = σ.gap i ++ [b.code.size]) := by
  induction count generalizing depth σ b with
  | zero =>
    cases run
    exact ⟨rfl, dead, fun i => ⟨fun _ => rfl, fun above below => by omega⟩⟩
  | succ count ih =>
    obtain ⟨_, σ1, b1, ended, run⟩ := bind_ok.mp run
    have first : b1.code.size = b.code.size ∧ b1.isAlive = false ∧
        (∀ i, i ≠ depth → σ1.gap i = σ.gap i) ∧
        (¬σ.ShutAt depth → σ1.gap depth = σ.gap depth ++ [b.code.size]) := by
      rcases endGap_cases ended with ⟨even, rfl, rfl⟩ | ⟨_, inside, stop, asked, rfl⟩
      · exact ⟨rfl, dead, fun _ _ => rfl, fun odd => absurd even odd⟩
      · obtain ⟨here, dead1⟩ := Asm.position_of_dead dead asked
        refine ⟨(Asm.position_size asked).symm.trans here, dead1, fun i away => ?_, fun _ => ?_⟩
        · rw [MethodState.gap_push, if_neg fun both => away both.1, List.append_nil]
        · rw [MethodState.gap_push, if_pos ⟨rfl, inside⟩, here]
    obtain ⟨size, dead1, others, own⟩ := first
    obtain ⟨size', dead', rest⟩ := ih dead1 run
    refine ⟨size'.trans size, dead', fun i => ⟨fun outside => ?_, fun above below odd => ?_⟩⟩
    · rw [(rest i).1 (by omega), others i (by omega)]
    · by_cases here : i = depth
      · subst here
        rw [(rest i).1 (by omega), own odd]
      · have same := others i here
        have odd1 : ¬σ1.ShutAt i := by
          unfold MethodState.ShutAt at odd ⊢
          rwa [same]
        rw [(rest i).2 (by omega) (by omega) odd1, same, size]

theorem unwindFrom_append {scopes others : List Scope} :
    unwindFrom depth (scopes ++ others) mc σ ctx b = .ok (y, σ') b' ↔
      ∃ σ1 b1, unwindFrom depth scopes mc σ ctx b = .ok ((), σ1) b1 ∧
        unwindFrom (depth + scopes.length) others mc σ1 ctx b1 = .ok (y, σ') b' := by
  induction scopes generalizing depth σ b with
  | nil =>
    constructor
    · exact fun run => ⟨σ, b, pure_ok.mpr ⟨rfl, rfl, rfl⟩, run⟩
    · rintro ⟨_, _, ran, run⟩
      cases ran
      exact run
  | cons scope rest ih =>
    have shift : depth + (scope :: rest).length = depth + 1 + rest.length := by
      rw [List.length_cons]
      omega
    rw [shift]
    constructor
    · intro run
      obtain ⟨_, σ1, b1, first, run⟩ := bind_ok.mp run
      obtain ⟨σ2, b2, second, run⟩ := ih.mp run
      exact ⟨σ2, b2, bind_ok.mpr ⟨_, σ1, b1, first, second⟩, run⟩
    · rintro ⟨σ2, b2, ran, run⟩
      obtain ⟨_, σ1, b1, first, second⟩ := bind_ok.mp ran
      exact bind_ok.mpr ⟨_, σ1, b1, first, ih.mpr ⟨σ2, b2, second, run⟩⟩

/-- Leaving statements records a gap for each copy of a finalizer that runs in line: it starts where
the copy starts and ends after the instruction that leaves. -/
theorem copied_of_unwind {left : List Scope} {i : Nat} {z w : Unit}
    (sound : ∀ scope ∈ left, scope.Sound) (here : left[i]? = some (.guarded finalizer false))
    (holds : Holds ctx s σ b owned) (shut : σ.Shut) (inside : left.length ≤ σ.records.length)
    (unwound : unwind left mc σ ctx b = .ok (y, σ1) b1)
    (reached : unwind (left.take i) mc σ ctx b = .ok (z, σ0) b0) (alive : b0.isAlive = true)
    (same : σ2.gaps = σ1.gaps) (dead : b2.isAlive = false)
    (ended : endGaps left mc σ2 ctx b2 = .ok (w, σ') b') : Copied ctx (σ'.gap i) b0 b' := by
  obtain ⟨bound, found⟩ := List.getElem?_eq_some_iff.mp here
  have split : left = left.take i ++ .guarded finalizer false :: left.drop (i + 1) := by
    rw [← found, List.getElem_cons_drop, List.take_append_drop]
  have size : (left.take i).length = i := List.length_take_of_le bound.le
  have before : ∀ scope ∈ left.take i, scope.Sound := fun scope member =>
    sound scope (List.mem_of_mem_take member)
  have after : ∀ scope ∈ left.drop (i + 1), scope.Sound := fun scope member =>
    sound scope (List.mem_of_mem_drop member)
  have whole : (Scope.guarded finalizer false).Sound := sound _ (List.mem_of_getElem? here)
  unfold unwind at unwound reached
  rw [split] at unwound
  obtain ⟨_, _, ran, unwound⟩ := unwindFrom_append.mp unwound
  rw [reached] at ran
  cases ran
  rw [size, zero_add] at unwound
  obtain ⟨_, σ3, b3, copied, unwound⟩ := bind_ok.mp unwound
  obtain ⟨s0, first, holds0⟩ := (keeps_unwindFrom 0 before).run reached holds
  have inside0 : i < σ0.records.length := by
    have length := first.size
    omega
  obtain ⟨pc, c, asked, opened⟩ := finalize_inline whole rfl alive inside0 holds0 copied
  obtain ⟨s3, second, holds3⟩ := (keeps_finalize i whole).run copied holds0
  obtain ⟨s1, third, _⟩ := (keeps_unwindFrom (i + 1) after).run unwound holds3
  have even := first.shut (fun j _ => shut j) i (by omega)
  have kept := third.inner i (Nat.lt_succ_self i)
  have odd : ¬σ2.ShutAt i := by
    unfold MethodState.ShutAt at even ⊢
    rw [MethodState.gap_congr same, kept, opened, List.length_append, List.length_singleton]
    omega
  obtain ⟨ends, _, gaps⟩ := endGapsFrom_dead dead ended
  refine ⟨pc, c, asked, ?_⟩
  rw [(gaps i).2 (Nat.zero_le i) (by omega) odd, MethodState.gap_congr same, kept, opened,
    List.append_assoc, ends]
  exact mem_gapPairs_last even

end Lowering

end ClassForge
