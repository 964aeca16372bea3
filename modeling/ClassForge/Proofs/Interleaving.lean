import ClassForge.Proofs.Resolution
import Mathlib

namespace ClassForge

namespace Chain

/-- The jumps of the two chains are taken with the same stack depth and the same monitors. -/
def Agrees (chain other : Chain) : Prop :=
  ∀ site ∈ chain, ∀ jump ∈ other,
    site.state.depth = jump.state.depth ∧ site.state.locks = jump.state.locks

def Descending (chain : Chain) : Prop := chain.Pairwise fun site jump => jump.pc ≤ site.pc

variable {chain other merged : Chain}

theorem agrees_append : (chain ++ other).Agrees (chain ++ other) ↔
    chain.Agrees chain ∧ other.Agrees other ∧ chain.Agrees other := by
  constructor
  · intro same
    refine ⟨fun site member jump found => ?_, fun site member jump found => ?_,
      fun site member jump found => ?_⟩ <;> exact same _ (by simp [member]) _ (by simp [found])
  · rintro ⟨first, second, both⟩ site member jump found
    rcases List.mem_append.mp member with left | right <;>
      rcases List.mem_append.mp found with before | after
    · exact first site left jump before
    · exact both site left jump after
    · exact (both jump before site right).imp Eq.symm Eq.symm
    · exact second site right jump after

theorem Agrees.of_perm {more extra : Chain} (same : chain.Agrees other) (first : more.Perm chain)
    (second : extra.Perm other) : more.Agrees extra :=
  fun site member jump found => same site (first.mem_iff.mp member) jump (second.mem_iff.mp found)

theorem le_later_trans (a b c : JumpSite) (first : decide (b.pc ≤ a.pc) = true)
    (second : decide (c.pc ≤ b.pc) = true) : decide (c.pc ≤ a.pc) = true :=
  decide_eq_true ((of_decide_eq_true second).trans (of_decide_eq_true first))

theorem le_later_total (a b : JumpSite) : (decide (b.pc ≤ a.pc) || decide (a.pc ≤ b.pc)) = true := by
  simpa using le_total b.pc a.pc

/-- Two level chains are merged if their first sites agree, and then all of their sites do. -/
theorem merge_spec (first : chain.Descending ∧ chain.Agrees chain)
    (second : other.Descending ∧ other.Agrees other) :
    (chain.Agrees other ∧ ∃ merged, chain.merge other = .ok merged ∧ merged.Descending) ∨
      ¬ chain.Agrees other ∧ ∃ pc target, chain.merge other = .error (.chainsDiffer pc target) := by
  unfold merge
  split
  · exact .inl ⟨fun _ member => absurd member List.not_mem_nil, _, rfl, second.1⟩
  · exact .inl ⟨fun _ _ _ member => absurd member List.not_mem_nil, _, rfl, first.1⟩
  · next site rest jump more =>
    split
    · next differ =>
      refine .inr ⟨fun same => ?_, _, _, rfl⟩
      have heads := same site List.mem_cons_self jump List.mem_cons_self
      exact differ.elim (absurd heads.1) (absurd heads.2)
    · next heads =>
      rw [not_or, not_ne_iff, not_ne_iff] at heads
      refine .inl ⟨fun left member right found => ?_, _, rfl, ?_⟩
      · have before := first.2 left member site List.mem_cons_self
        have after := second.2 jump List.mem_cons_self right found
        exact ⟨before.1.trans (heads.1.trans after.1), before.2.trans (heads.2.trans after.2)⟩
      · exact (List.pairwise_merge le_later_trans le_later_total _ _
          (first.1.imp decide_eq_true) (second.1.imp decide_eq_true)).imp of_decide_eq_true

theorem Descending.eq_of_perm (first : chain.Descending) (second : other.Descending)
    (distinct : (chain.map (·.pc)).Nodup) (perm : chain.Perm other) : chain = other := by
  refine perm.eq_of_pairwise (fun site jump member found below above => ?_) first second
  exact List.inj_on_of_nodup_map distinct member (perm.mem_iff.mpr found) (above.antisymm below)

theorem Descending.strict (sorted : chain.Descending) (distinct : (chain.map (·.pc)).Nodup) :
    chain.Pairwise fun site jump => jump.pc < site.pc :=
  sorted.imp₂ (fun _ _ below differ => below.lt_of_ne differ.symm) (List.pairwise_map.mp distinct)

end Chain

/-- An order and association in which chains are merged. -/
inductive MergeTree where
  | leaf (chain : Chain)
  | node (left right : MergeTree)

namespace MergeTree

def leaves : MergeTree → List Chain
  | leaf chain => [chain]
  | node left right => left.leaves ++ right.leaves

def run : MergeTree → Except Fault Chain
  | leaf chain => .ok chain
  | node left right => do (← left.run).merge (← right.run)

def sites (tree : MergeTree) : Chain := tree.leaves.flatten

variable {tree : MergeTree}

theorem run_spec (level : ∀ chain ∈ tree.leaves, chain.Descending ∧ chain.Agrees chain) :
    (tree.sites.Agrees tree.sites ∧
      ∃ merged, tree.run = .ok merged ∧ merged.Perm tree.sites ∧ merged.Descending) ∨
    ¬ tree.sites.Agrees tree.sites ∧ ∃ pc target, tree.run = .error (.chainsDiffer pc target) := by
  induction tree with
  | leaf chain =>
    have own := level chain (.head _)
    exact .inl ⟨by simpa [sites, leaves] using own.2, chain, rfl, by simp [sites, leaves], own.1⟩
  | node left right ihl ihr =>
    rw [leaves, List.forall_mem_append] at level
    rw [sites, leaves, List.flatten_append, Chain.agrees_append, run]
    rcases ihl level.1 with ⟨before, first, ranl, perml, downl⟩ | ⟨differ, pc, target, failed⟩
    · rw [ranl]
      rcases ihr level.2 with ⟨after, second, ranr, permr, downr⟩ | ⟨differ, pc, target, failed⟩
      · rw [ranr]
        rcases Chain.merge_spec ⟨downl, before.of_perm perml perml⟩ ⟨downr, after.of_perm permr permr⟩
          with ⟨both, merged, ran, down⟩ | ⟨differ, failed⟩
        · exact .inl ⟨⟨before, after, both.of_perm perml.symm permr.symm⟩, merged, ran,
            (Chain.merge_perm ran).trans (perml.append permr), down⟩
        · exact .inr ⟨fun all => differ (all.2.2.of_perm perml permr), failed⟩
      · exact .inr ⟨fun all => differ all.2.1, pc, target, by rw [failed]; rfl⟩
    · exact .inr ⟨fun all => differ all.1, pc, target, by rw [failed]; rfl⟩

/-- Chains with sites of their own are merged into the same chain in every order and association,
and it holds each of their sites once; if two of them differ, every order fails. -/
theorem run_order_irrelevant {chains : List Chain} (sorted : ∀ chain ∈ chains, chain.Descending)
    (level : ∀ chain ∈ chains, chain.Agrees chain)
    (distinct : (chains.flatten.map (·.pc)).Nodup) :
    ((∀ chain ∈ chains, ∀ other ∈ chains, chain.Agrees other) →
      ∃ merged : Chain, merged.Perm chains.flatten ∧
        (merged.Pairwise fun site jump => jump.pc < site.pc) ∧ merged.Agrees merged ∧
        ∀ tree : MergeTree, tree.leaves.Perm chains → tree.run = .ok merged) ∧
    ((∃ chain ∈ chains, ∃ other ∈ chains, ¬ chain.Agrees other) →
      ∀ tree : MergeTree, tree.leaves.Perm chains →
        ∃ pc target, tree.run = .error (.chainsDiffer pc target)) := by
  have leafwise {tree : MergeTree} (perm : tree.leaves.Perm chains) :=
    @run_spec tree fun chain member =>
      ⟨sorted chain (perm.mem_iff.mp member), level chain (perm.mem_iff.mp member)⟩
  constructor
  · intro same
    let merged : Chain := chains.flatten.mergeSort fun a b => b.pc ≤ a.pc
    have perm : merged.Perm chains.flatten := List.mergeSort_perm _ _
    have down : merged.Descending :=
      (List.pairwise_mergeSort Chain.le_later_trans Chain.le_later_total _).imp of_decide_eq_true
    have apart : (merged.map (·.pc)).Nodup := (perm.map _).nodup_iff.mpr distinct
    have all : Chain.Agrees chains.flatten chains.flatten := by
      intro site member jump found
      obtain ⟨chain, inside, here⟩ := List.mem_flatten.mp member
      obtain ⟨other, within, there⟩ := List.mem_flatten.mp found
      exact same chain inside other within site here jump there
    refine ⟨merged, perm, down.strict apart, all.of_perm perm perm, fun tree leaves => ?_⟩
    rcases leafwise leaves with ⟨-, result, ran, whole, sunk⟩ | ⟨differ, -⟩
    · rw [ran, down.eq_of_perm sunk apart (perm.trans (whole.trans leaves.flatten).symm)]
    · exact absurd (all.of_perm leaves.flatten leaves.flatten) differ
  · rintro ⟨chain, inside, other, within, differ⟩ tree leaves
    refine ((leafwise leaves).resolve_left fun all => differ ?_).2
    intro site member jump found
    exact all.1 site (List.mem_flatten.mpr ⟨chain, leaves.mem_iff.mpr inside, member⟩) jump
      (List.mem_flatten.mpr ⟨other, leaves.mem_iff.mpr within, found⟩)

/-- Jumps with an empty stack are merged alike in every order, and one with a value on the stack
makes every order fail. -/
theorem run_order_irrelevant_four :
    (∀ tree : MergeTree, tree.leaves.Perm [[⟨9, .empty⟩, ⟨2, .empty⟩], [⟨5, .empty⟩]] →
      tree.run = .ok [⟨9, .empty⟩, ⟨5, .empty⟩, ⟨2, .empty⟩]) ∧
    ∀ tree : MergeTree,
      tree.leaves.Perm
        [[⟨9, .empty⟩, ⟨2, .empty⟩], [⟨5, .empty⟩], [⟨7, State.empty.push .integer⟩]] →
      ∃ pc target, tree.run = .error (.chainsDiffer pc target) := by
  constructor
  · have same := @run_order_irrelevant [[⟨9, .empty⟩, ⟨2, .empty⟩], [⟨5, .empty⟩]]
      (by simp [Chain.Descending]) (by simp [Chain.Agrees]) (by simp)
    obtain ⟨merged, -, -, -, run⟩ := same.1 (by simp [Chain.Agrees])
    have one : (node (leaf [⟨9, .empty⟩, ⟨2, .empty⟩]) (leaf [⟨5, .empty⟩])).run =
        .ok [⟨9, .empty⟩, ⟨5, .empty⟩, ⟨2, .empty⟩] := by cbv
    rw [← one, run _ (.refl _)]
    exact run
  · refine (run_order_irrelevant ?_ ?_ ?_).2 ?_
    · simp [Chain.Descending]
    · simp [Chain.Agrees]
    · simp
    · simp [Chain.Agrees, State.depth, State.push, State.empty, SlotSeq.push, Width.width,
        VerificationType.width]

end MergeTree

end ClassForge
