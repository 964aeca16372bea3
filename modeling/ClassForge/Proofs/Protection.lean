import ClassForge.Proofs.Statements
import Mathlib

namespace ClassForge

variable {gaps : List Nat} {pc : Nat} {y : Unit} {kind : StmtKind} {row : CatchEntry}

def InGap (gaps : List Nat) (pc : Nat) : Prop :=
  ∃ first last, (first, some last) ∈ gapPairs gaps ∧ first ≤ pc ∧ pc < last

theorem inGap_append {more : List Nat} (even : gaps.length % 2 = 0) :
    InGap (gaps ++ more) pc ↔ InGap gaps pc ∨ InGap more pc := by
  unfold InGap
  rw [gapPairs_append even]
  constructor
  · rintro ⟨first, last, member, inside⟩
    rcases List.mem_append.mp member with member | member
    · exact .inl ⟨first, last, member, inside⟩
    · exact .inr ⟨first, last, member, inside⟩
  · rintro (⟨first, last, member, inside⟩ | ⟨first, last, member, inside⟩)
    · exact ⟨first, last, List.mem_append_left _ member, inside⟩
    · exact ⟨first, last, List.mem_append_right _ member, inside⟩

theorem le_of_inGap {bound : Nat} (above : ∀ p ∈ gaps, bound ≤ p) (inside : InGap gaps pc) :
    bound ≤ pc := by
  obtain ⟨first, last, member, lower, _⟩ := inside
  have known := (Lowering.ofGaps_gapPairs above _ member).1
  exact known.trans lower

/-- The ranges are not empty, in order, and make up all that lies between two positions except for
the gaps. -/
structure CoverExactly (ranges : List (Nat × Nat)) (start stop : Nat) (gaps : List Nat) : Prop where
  nonempty : ∀ range ∈ ranges, range.1 < range.2
  ascending : ranges.Pairwise fun range next => range.2 ≤ next.1
  exactly : ∀ pc, (∃ range ∈ ranges, range.1 ≤ pc ∧ pc < range.2) ↔
    start ≤ pc ∧ pc < stop ∧ ¬InGap gaps pc

theorem coverExactly_bodyRanges {start stop : Nat} (even : gaps.length % 2 = 0)
    (sorted : (start :: (gaps ++ [stop])).Pairwise (· ≤ ·)) :
    CoverExactly (bodyRanges start stop (gapPairs gaps)) start stop gaps := by
  induction gaps using gapPairs.induct generalizing start with
  | case1 first last rest ih =>
    have even : rest.length % 2 = 0 := by
      simp only [List.length_cons] at even
      omega
    simp only [List.cons_append, List.pairwise_cons] at sorted
    obtain ⟨afterStart, afterFirst, sorted⟩ := sorted
    have opened : start ≤ first := afterStart first (.head _)
    have closed : first ≤ last := afterFirst last (.head _)
    have inner := ih even (List.pairwise_cons.mpr sorted)
    have later : ∀ pc, InGap rest pc → last ≤ pc := fun pc =>
      le_of_inGap fun p member => sorted.1 p (List.mem_append_left _ member)
    have behind : last ≤ stop := sorted.1 stop (by simp)
    have split (pc : Nat) : InGap (first :: last :: rest) pc ↔
        (first ≤ pc ∧ pc < last) ∨ InGap rest pc := by
      simp [InGap, gapPairs, or_and_right, exists_or, and_assoc]
    have one : ∀ range ∈ oneRange start first, range = (start, first) ∧ start < first := by
      intro range member
      obtain ⟨rfl, differ⟩ := Lowering.mem_oneRange member
      exact ⟨rfl, by omega⟩
    unfold gapPairs bodyRanges
    refine ⟨fun range member => ?_, List.pairwise_append.mpr ⟨?_, inner.ascending, ?_⟩, fun pc => ?_⟩
    · rcases List.mem_append.mp member with member | member
      · obtain ⟨rfl, before⟩ := one range member
        exact before
      · exact inner.nonempty range member
    · unfold oneRange
      split
      · exact .nil
      · exact List.pairwise_singleton _ _
    · intro range member next later
      obtain ⟨rfl, _⟩ := one range member
      have within := (inner.exactly next.1).mp ⟨next, later, le_rfl, inner.nonempty next later⟩
      exact closed.trans within.1
    · rw [split]
      have rest_ := inner.exactly pc
      simp only [Option.getD_some, List.mem_append, or_and_right, exists_or, rest_]
      constructor
      · rintro (⟨range, member, inside⟩ | ⟨lower, upper, free⟩)
        · obtain ⟨rfl, before⟩ := one range member
          refine ⟨inside.1, by have := inside.2; omega, ?_⟩
          rintro (⟨above, _⟩ | gap)
          · have := inside.2
            omega
          · have := later pc gap
            have := inside.2
            omega
        · exact ⟨by omega, upper, fun gap => gap.elim (fun inside => by omega) free⟩
      · rintro ⟨lower, upper, free⟩
        by_cases before : pc < first
        · refine .inl ⟨(start, first), ?_, lower, before⟩
          unfold oneRange
          rw [if_neg (by omega)]
          exact .head _
        · refine .inr ⟨?_, upper, fun gap => free (.inr gap)⟩
          by_contra below
          exact free (.inl ⟨by omega, by omega⟩)
  | case2 start => cases even
  | case3 =>
    have noGap : ∀ pc, ¬InGap [] pc := by
      rintro pc ⟨_, _, member, _⟩
      cases member
    unfold gapPairs bodyRanges
    split
    · next before =>
      refine ⟨by simpa using before, List.pairwise_singleton _ _, fun pc => ?_⟩
      simp [noGap]
    · next after =>
      refine ⟨by simp, .nil, fun pc => ?_⟩
      simp only [List.not_mem_nil, false_and, exists_false, false_iff]
      omega

theorem rangesBetween_append {start own : Nat} (even : gaps.length % 2 = 0)
    (sorted : (start :: (gaps ++ [own])).Pairwise (· ≤ ·)) :
    rangesBetween start (gapPairs gaps) ++ oneRange (afterGaps start (gapPairs gaps)) own =
      bodyRanges start own (gapPairs gaps) := by
  induction gaps using gapPairs.induct generalizing start with
  | case1 first last rest ih =>
    have even : rest.length % 2 = 0 := by
      simp only [List.length_cons] at even
      omega
    have sorted : (last :: (rest ++ [own])).Pairwise (· ≤ ·) :=
      (List.pairwise_cons.mp (List.pairwise_cons.mp sorted).2).2
    simp only [gapPairs, rangesBetween, afterGaps, bodyRanges, Option.getD_some, List.append_assoc,
      ih even sorted]
  | case2 start => cases even
  | case3 =>
    have ordered : start ≤ own := (List.pairwise_cons.mp sorted).1 own (by simp)
    simp only [gapPairs, rangesBetween, afterGaps, bodyRanges, oneRange, List.nil_append]
    by_cases same : start = own
    · rw [if_pos same, if_neg (by omega)]
    · rw [if_neg same, if_pos (by omega)]

def Catch.types : Catch → List BinaryName
  | .mk types _ _ => types

def Buffer.rangesFor (b : Buffer) (handler : Nat) (type : Option BinaryName) : List (Nat × Nat) :=
  ((b.rowsOf handler).filter (·.catchType == type)).map fun row =>
    (row.start.toNat, row.stop.toNat)

namespace Lowering

theorem Entered.rangesFor {b : Buffer} {types : List (Option BinaryName)}
    {ranges : List (Nat × Nat)} {type : Option BinaryName} (entered : Entered b types ranges pc)
    (distinct : types.Nodup) (member : type ∈ types) : b.rangesFor pc type = ranges := by
  have fits := entered.fits
  unfold Buffer.rangesFor
  rw [entered.rows]
  clear entered
  induction ranges with
  | nil => rfl
  | cons range rest ih =>
    have room := fits range (.head _) (List.ne_nil_of_mem member)
    have same {n : Nat} (bound : n ≤ 0xFFFF) : (UInt16.ofNat n).toNat = n :=
      UInt16.toNat_ofNat_of_lt' (by simpa [UInt16.size] using Nat.lt_succ_of_le bound)
    have once : types.filter (· == type) = [type] := by
      rw [List.filter_beq, List.count_eq_one_of_mem distinct member]
      rfl
    have front : rowsFor pc types (range :: rest) =
        (types.map fun type => ⟨.ofNat range.1, .ofNat range.2, .ofNat pc, type⟩) ++
          rowsFor pc types rest := rfl
    have chosen : ((fun row : CatchEntry => row.catchType == type) ∘ fun type =>
        (⟨.ofNat range.1, .ofNat range.2, .ofNat pc, type⟩ : CatchEntry)) = (· == type) := rfl
    rw [front, List.filter_append, List.filter_map, chosen, once, List.map_append, ih fun other inside =>
      fits other (.tail _ inside)]
    simp only [List.map_cons, List.map_nil, same room.1, same room.2.1]
    rfl

/-- The state in which a statement inside the given ones is lowered. -/
structure Amid (scopes : List Scope) (ctx : Context) (s : Session) (σ : MethodState) (b : Buffer)
    (owned : Multiset Nat) : Prop where
  sound : ∀ scope ∈ scopes, scope.Sound
  holds : Holds ctx s σ b owned
  shut : σ.Shut
  sized : σ.records.length = scopes.length

variable {mc : MethodContext} {ctx : Context} {σ σ' σ0 : MethodState} {b b' b0 : Buffer}
  {s : Session} {owned : Multiset Nat} {scopes left : List Scope}

theorem Amid.start (ctx : Context) (pool : Pool) :
    Amid [] ctx (.start pool) {} (.empty pool) 0 where
  sound := by simp
  holds := ⟨⟨rfl, by rfl, pool, .start⟩, by simp⟩
  shut depth := by cases depth <;> rfl
  sized := rfl

theorem Amid.enclose {scope : Scope} (amid : Amid scopes ctx s σ b owned) (whole : scope.Sound) :
    Amid (scope :: scopes) ctx s { σ with records := {} :: σ.records } b owned where
  sound := sound_cons whole amid.sound
  holds := amid.holds.enclose
  shut depth := by
    cases depth with
    | zero => rfl
    | succ depth => exact amid.shut depth
  sized := congrArg Nat.succ amid.sized

/-- Lowered statements lead to the state in which the next one is lowered. -/
theorem Amid.next {stmts : List Stmt} {inSwitch : Bool} (amid : Amid scopes ctx s σ b owned)
    (run : genStmts scopes inSwitch stmts mc σ ctx b = .ok ((), σ') b') :
    ∃ s', Tracks s σ s' σ' ∧ Amid scopes ctx s' σ' b' owned := by
  obtain ⟨s', tracks, holds⟩ := (keeps_genStmts amid.sound inSwitch stmts).run run amid.holds
  have shut : σ'.Shut := fun i => tracks.shut (fun i _ => amid.shut i) i trivial
  exact ⟨s', tracks, amid.sound, holds, shut, tracks.size.trans amid.sized⟩

end Lowering

/-- The statements that a jump or a return leaves. -/
def StmtKind.leaves (scopes : List Scope) : StmtKind → Option (List Scope)
  | .breakTo label => (Scope.breakTarget? scopes label).map fun depth => scopes.take (depth + 1)
  | .continueTo label =>
    (Scope.continueTarget? scopes label).map fun depth => scopes.take (depth + 1)
  | .ret _ => some scopes
  | _ => none

namespace Lowering

variable {label : Option String} {depth : Nat}

/-- What comes before the statements are left: a value to be returned is put aside. -/
def beforeLeaving (scopes : List Scope) : StmtKind → Lowering Unit
  | .ret value => discard (heldResult scopes value)
  | _ => pure ()

variable {mc : MethodContext} {ctx : Context} {σ σ' σ0 σ1 : MethodState} {b b' b0 b1 : Buffer}
  {s : Session} {owned : Multiset Nat} {scopes left : List Scope} {i : Nat}
  {finalizer : Option Finalizer}

theorem breakTarget_ok :
    breakTarget scopes label mc σ ctx b = .ok (depth, σ') b' ↔
      Scope.breakTarget? scopes label = some depth ∧ σ = σ' ∧ b = b' := by
  unfold breakTarget
  cases Scope.breakTarget? scopes label with
  | some target => simp [pure_ok]
  | none =>
    cases label <;> simp [fail, throw_ok]

theorem continueTarget_ok :
    continueTarget scopes label mc σ ctx b = .ok (depth, σ') b' ↔
      Scope.continueTarget? scopes label = some depth ∧ σ = σ' ∧ b = b' := by
  unfold continueTarget
  cases Scope.continueTarget? scopes label with
  | some target => simp [pure_ok]
  | none =>
    cases label <;> simp [fail, throw_ok]

theorem restoreLine_ok {line : Option UInt16} (run : restoreLine line mc σ ctx b = .ok (y, σ') b') :
    σ = σ' := by
  unfold restoreLine at run
  split at run
  · exact (lift_ok.mp run).1
  · exact (lift_ok.mp run).1

/-- A jump out of some statements records a gap for each copy of a finalizer. -/
theorem copied_of_leave (lens : RecordChain) (amid : Amid scopes ctx s σ b owned)
    (here : (scopes.take (depth + 1))[i]? = some (.guarded finalizer false))
    (reached : unwind ((scopes.take (depth + 1)).take i) mc σ ctx b = .ok ((), σ0) b0)
    (alive : b0.isAlive = true) (run : (do
      let jump ← leave scopes depth
      let joined ← Asm.mergeChains (lens.chain (← record depth)) jump
      changeRecord depth (lens.put joined)
      endGaps (scopes.take (depth + 1)) : Lowering Unit) mc σ ctx b = .ok (y, σ') b') :
    Copied ctx (σ'.gap i) b0 b' := by
  obtain ⟨jump, _, b2, left, run⟩ := bind_ok.mp run
  rw [leave, pendingLine_bind] at left
  obtain ⟨_, σ1, b1, unwound, left⟩ := bind_ok.mp left
  obtain ⟨_, _, _, lined, left⟩ := bind_ok.mp left
  obtain rfl := restoreLine_ok lined
  obtain ⟨rfl, jumped⟩ := lift_ok.mp left
  rw [record_bind] at run
  obtain ⟨joined, _, merged, onward⟩ := lift_bind_ok.mp run
  obtain ⟨_, rfl⟩ := Asm.mergeChains_ok merged
  obtain ⟨_, _, _, changed, ended⟩ := bind_ok.mp onward
  obtain ⟨rfl, rfl⟩ := changeRecord_ok.mp changed
  refine copied_of_unwind (fun scope member => amid.sound scope (List.mem_of_mem_take member)) here
    amid.holds amid.shut ?_ unwound reached alive (gaps_modify depth (lens.gaps joined))
    (Asm.dead_of_goto jumped) ended
  rw [amid.sized, List.length_take]
  exact Nat.min_le_right _ _

theorem copied_of_genReturn {value : Option Expr} {result : Option Item}
    (amid : Amid scopes ctx s σ b owned) (here : scopes[i]? = some (.guarded finalizer false))
    (held : heldResult scopes value mc σ ctx b = .ok (result, σ1) b1)
    (reached : unwind (scopes.take i) mc σ1 ctx b1 = .ok ((), σ0) b0) (alive : b0.isAlive = true)
    (run : genReturn scopes value mc σ ctx b = .ok (y, σ') b') : Copied ctx (σ'.gap i) b0 b' := by
  rw [genReturn, nextRegister_bind, pendingLine_bind] at run
  obtain ⟨_, _, _, again, run⟩ := bind_ok.mp run
  rw [held] at again
  cases again
  have keeps : Keeps Still 0 (heldResult scopes value) fun _ => 0 := keeps_heldResult value
  obtain ⟨s1, still, holds1⟩ := keeps.run held amid.holds
  have shut1 : σ1.Shut := fun depth => by
    unfold MethodState.ShutAt
    rw [MethodState.gap_congr still.gaps]
    exact amid.shut depth
  have size1 : σ1.records.length = scopes.length := by
    have size := congrArg List.length still.gaps
    simpa [MethodState.gaps, amid.sized] using size
  obtain ⟨_, σ2, b2, unwound, run⟩ := bind_ok.mp run
  obtain ⟨_, _, _, lined, run⟩ := bind_ok.mp run
  obtain rfl := restoreLine_ok lined
  obtain ⟨_, σ3, b3, returned, run⟩ := bind_ok.mp run
  have stopped : σ2 = σ3 ∧ b3.isAlive = false := by
    cases result with
    | none =>
      obtain ⟨rfl, emitted⟩ := lift_ok.mp returned
      exact ⟨rfl, Asm.dead_of_emit rfl emitted⟩
    | some result =>
      obtain ⟨_, _, _, loaded, returned⟩ := bind_ok.mp returned
      obtain ⟨_, ran⟩ := discard_ok.mp loaded
      obtain ⟨rfl, _⟩ := lift_ok.mp ran
      rw [read_bind] at returned
      obtain ⟨rfl, emitted⟩ := lift_ok.mp returned
      exact ⟨rfl, Asm.dead_of_emit (by cases mc.result <;> rfl) emitted⟩
  obtain ⟨rfl, dead⟩ := stopped
  obtain ⟨_, σ4, b4, ended, run⟩ := bind_ok.mp run
  obtain ⟨rfl, closed⟩ := lift_ok.mp run
  obtain ⟨pc, c, asked, member⟩ := copied_of_unwind amid.sound here holds1 shut1 size1.ge unwound reached
    alive rfl dead ended
  obtain ⟨_, dead4, _⟩ := endGapsFrom_dead dead ended
  rw [← (Asm.endScopes_dead dead4 closed).2] at member
  exact ⟨pc, c, asked, member⟩

/-- Whatever leaves a statement records a gap for each copy of a finalizer that runs in line. -/
theorem copied_of_leaves (amid : Amid scopes ctx s σ b owned)
    (leaves : kind.leaves scopes = some left) (here : left[i]? = some (.guarded finalizer false))
    (began : beforeLeaving scopes kind mc σ ctx b = .ok ((), σ1) b1)
    (reached : unwind (left.take i) mc σ1 ctx b1 = .ok ((), σ0) b0) (alive : b0.isAlive = true)
    (run : genStmtKind scopes kind mc σ ctx b = .ok ((), σ') b') : Copied ctx (σ'.gap i) b0 b' := by
  cases kind with
  | breakTo label =>
    cases began
    rw [genStmtKind] at run
    obtain ⟨depth, _, _, target, run⟩ := bind_ok.mp run
    obtain ⟨found, rfl, rfl⟩ := breakTarget_ok.mp target
    obtain ⟨_, found', rfl⟩ := Option.map_eq_some_iff.mp leaves
    rw [found] at found'
    cases found'
    exact copied_of_leave .exit amid here reached alive run
  | continueTo label =>
    cases began
    rw [genStmtKind] at run
    obtain ⟨depth, _, _, target, run⟩ := bind_ok.mp run
    obtain ⟨found, rfl, rfl⟩ := continueTarget_ok.mp target
    obtain ⟨_, found', rfl⟩ := Option.map_eq_some_iff.mp leaves
    rw [found] at found'
    cases found'
    exact copied_of_leave .next amid here reached alive run
  | ret value =>
    cases leaves
    rw [genStmtKind] at run
    obtain ⟨result, held⟩ := discard_ok.mp began
    exact copied_of_genReturn amid here held reached alive run
  | _ => cases leaves

end Lowering

def Buffer.rowsOfAny (b : Buffer) (handlers : List Nat) : List CatchEntry :=
  b.catches.toList.filter fun row => handlers.contains row.handler.toNat

theorem Buffer.mem_rangesFor {b : Buffer} {handler : Nat} (member : row ∈ b.rowsOf handler) :
    (row.start.toNat, row.stop.toNat) ∈ b.rangesFor handler row.catchType :=
  List.mem_map.mpr ⟨row, List.mem_filter.mpr ⟨member, beq_self_eq_true _⟩, rfl⟩

/-- What the exception table says about a `try` statement whose body starts and stops at given
positions. Gaps are recorded up to its end and from there on. The clauses are entered at some
positions, and so may be a handler for everything else, which has a gap of its own. -/
structure TryTable (b : Buffer) (handlers : List Handler) (start stop : Nat)
    (inner outer pcs : List Nat) (rest : Option (Nat × Nat)) : Prop where
  sorted : (start :: (inner ++ stop :: outer)).Pairwise (· ≤ ·)
  paired : inner.length % 2 = 0 ∧ outer.length % 2 = 0
  clauses : if start = stop then pcs = [] else List.Forall₂ (fun clause pc =>
    (∀ row ∈ b.rowsOf pc, row.catchType ∈ clause.types.map some) ∧
    ∀ type ∈ clause.types, CoverExactly (b.rangesFor pc (some type)) start stop inner) handlers pcs
  catchAll : ∀ found ∈ rest, (∀ row ∈ b.rowsOf found.1, row.catchType = none) ∧
    CoverExactly (b.rangesFor found.1 none) start found.2 (inner ++ outer) ∧
    ∀ p ∈ inner ++ stop :: outer, p ≤ found.2

namespace TryTable

variable {b : Buffer} {handlers : List Handler} {start stop : Nat} {inner outer pcs : List Nat}
  {rest : Option (Nat × Nat)}

abbrev rows (b : Buffer) (pcs : List Nat) (rest : Option (Nat × Nat)) : List CatchEntry :=
  b.rowsOfAny (pcs ++ (rest.map Prod.fst).toList)

theorem covered (table : TryTable b handlers start stop inner outer pcs rest)
    (member : row ∈ rows b pcs rest) (lower : row.start.toNat ≤ pc) (upper : pc < row.stop.toNat) :
    ¬InGap (inner ++ outer) pc ∧
      ∀ found ∈ rest, pc < found.2 := by
  obtain ⟨listed, among⟩ := List.mem_filter.mp member
  have handler : row.handler.toNat ∈ pcs ++ (rest.map Prod.fst).toList := by simpa using among
  have own : row ∈ b.rowsOf row.handler.toNat :=
    List.mem_filter.mpr ⟨listed, beq_self_eq_true _⟩
  have range := Buffer.mem_rangesFor own
  rw [inGap_append table.paired.1]
  rcases List.mem_append.mp handler with clause | all
  · have clauses := table.clauses
    split at clauses
    · rw [clauses] at clause
      cases clause
    · obtain ⟨_, _, classes, covers⟩ := exists_of_forall₂ clauses clause
      obtain ⟨type, caught, same⟩ := List.mem_map.mp (classes row own)
      rw [← same] at range
      obtain ⟨_, before, free⟩ := ((covers type caught).exactly pc).mp ⟨_, range, lower, upper⟩
      refine ⟨fun gap => gap.elim free fun outside => ?_, fun found known => ?_⟩
      · have behind := (List.pairwise_append.mp (List.pairwise_cons.mp table.sorted).2).2.1
        have above := le_of_inGap (List.pairwise_cons.mp behind).1 outside
        omega
      · have behind := (table.catchAll found known).2.2 stop (by simp)
        omega
  · obtain ⟨found, known, here⟩ : ∃ found ∈ rest, found.1 = row.handler.toNat := by
      simpa using all
    obtain ⟨classes, covers, _⟩ := table.catchAll found known
    rw [here] at classes covers
    rw [classes row own] at range
    obtain ⟨_, before, free⟩ := (covers.exactly pc).mp ⟨_, range, lower, upper⟩
    rw [inGap_append table.paired.1] at free
    refine ⟨free, fun other same => ?_⟩
    cases Option.mem_unique known same
    exact before

end TryTable

namespace Lowering

variable {mc : MethodContext} {ctx : Context} {σ σ' : MethodState} {b b' : Buffer} {s : Session}
  {owned : Multiset Nat} {scopes : List Scope} {start stop : Nat} {inner outer pcs : List Nat}
  {rest : Option (Nat × Nat)} {handlers : List Handler} {rows : List CatchEntry}

/-- No row covers code between the end of the code in the first buffer and that in the second. -/
def Uncovered (ctx : Context) (rows : List CatchEntry) (b b' : Buffer) : Prop :=
  ∀ start c, Asm.position ctx b = .ok start c → ∀ pc, start ≤ pc → pc < b'.code.size →
    ∀ row ∈ rows, ¬(row.start.toNat ≤ pc ∧ pc < row.stop.toNat)

theorem Copied.uncovered (table : TryTable b handlers start stop inner outer pcs rest)
    {b1 b2 : Buffer} (copied : Copied ctx (inner ++ outer) b1 b2) :
    Uncovered ctx (TryTable.rows b pcs rest) b1 b2 := by
  obtain ⟨first, c, asked, member⟩ := copied
  intro start' c' asked' pc lower upper row own inside
  rw [asked] at asked'
  cases asked'
  exact (table.covered own inside.1 inside.2).1 ⟨first, _, member, lower, upper⟩

/-- The ways out of a `try` statement after its body. If the finalizer runs in line, no row of the
statement covers any of its copies or the instruction that leaves after it: neither where the body or
a clause ends, nor in the handler for everything else, nor where some statement inside leaves this
one. -/
structure TryExits (scope : Scope) (scopes : List Scope) (handlers : List Handler)
    (mc : MethodContext) (ctx : Context) (start stop : Nat) (inner outer pcs : List Nat)
    (rest : Option (Nat × Nat)) (rows : List CatchEntry) (b1 b2 : Buffer) (exit : Chain)
    (σ2 : MethodState) (b3 : Buffer) : Prop where
  body : scope.isInline = true → b2.isAlive = true → Uncovered ctx rows b2 b3
  clauses : start ≠ stop → ClauseExits (Uncovered ctx rows) scope b1.state start stop (gapPairs inner)
    mc ctx handlers pcs exit σ2 b3
  catchAll : ∀ found ∈ rest, ∃ exit' σ3 b4 exception last σ4 b5 σ5 b6,
    genClauses scope b1.state start stop (gapPairs inner) exit handlers mc σ2 ctx b3 =
      .ok (exit', σ3) b4 ∧ σ3.gap 0 = inner ++ outer ∧
    enterCatchAll scope b1.state start mc σ3 ctx b4 = .ok ((exception, last, found.1), σ4) b5 ∧
    finalize 0 scope mc σ4 ctx b5 = .ok ((), σ5) b6 ∧ σ5.gap 0 = [found.2] ∧
    (scope.isInline = true → ∀ later, Uncovered ctx rows b5 later)
  leaving : ∀ kind nested left s1 σ1 b1 owned σ2 b2 σ3 b3 σ4 b4,
    Amid (nested ++ scope :: scopes) ctx s1 σ1 b1 owned →
    kind.leaves (nested ++ scope :: scopes) = some left → nested.length < left.length →
    beforeLeaving (nested ++ scope :: scopes) kind mc σ1 ctx b1 = .ok ((), σ2) b2 →
    unwind nested mc σ2 ctx b2 = .ok ((), σ3) b3 →
    genStmtKind (nested ++ scope :: scopes) kind mc σ1 ctx b1 = .ok ((), σ4) b4 →
    σ4.gap nested.length <+: inner ++ outer →
    scope.isInline = true → b3.isAlive = true → Uncovered ctx rows b3 b4

theorem leaves_take {left : List Scope} (leaves : kind.leaves scopes = some left) :
    left <+: scopes := by
  cases kind with
  | breakTo label | continueTo label =>
    obtain ⟨depth, _, rfl⟩ := Option.map_eq_some_iff.mp leaves
    exact List.take_prefix _ _
  | ret value =>
    cases leaves
    exact List.prefix_rfl
  | _ => cases leaves

section Known

variable {scope : Scope} {isTry : Bool} {σ1 σ2 : MethodState} {b1 b2 b3 : Buffer} {exit : Chain}

variable (known : Protected scope handlers isTry mc ctx s σ b' start stop inner outer b1 σ1 b2 exit σ2 b3)
  (shut : σ.Shut) (distinct : ∀ clause ∈ handlers, clause.types.Nodup)

include known shut distinct

theorem Protected.clauseTable :
    ∃ pcs, (∀ pc ∈ pcs, pc ∉ s.entries) ∧ (if start = stop then pcs = [] else
      List.Forall₂ (fun clause pc => (∀ row ∈ b'.rowsOf pc, row.catchType ∈ clause.types.map some) ∧
        ∀ type ∈ clause.types, CoverExactly (b'.rangesFor pc (some type)) start stop inner)
        handlers pcs) ∧
      (start ≠ stop → ClauseExits (Copied ctx (inner ++ outer)) scope b1.state start stop
        (gapPairs inner) mc ctx handlers pcs exit σ2 b3) := by
  by_cases empty : start = stop
  · exact ⟨[], by simp, by rw [if_pos empty], fun differ => absurd empty differ⟩
  · obtain ⟨pcs, entered, exits⟩ := known.clauses empty
    refine ⟨pcs, fun pc member => ?_, ?_, fun _ => exits shut⟩
    · obtain ⟨_, _, new, _⟩ := exists_of_forall₂ entered member
      exact new
    · rw [if_neg empty]
      refine ((List.forall₂_and_left _ _).mpr ⟨distinct, entered⟩).imp ?_
      rintro clause pc ⟨once, _, own⟩
      have sorted : (start :: (inner ++ [stop])).Pairwise (· ≤ ·) := by
        refine known.sorted.sublist (.cons_cons _ ((List.Sublist.refl inner).append ?_))
        exact .cons_cons _ (List.nil_sublist _)
      refine ⟨fun row member => (mem_rowsFor own.fits (own.rows ▸ member)).2.2, fun type caught => ?_⟩
      rw [own.rangesFor (once.map (Option.some_injective _)) (List.mem_map_of_mem caught)]
      exact coverExactly_bodyRanges (known.paired shut).1 sorted

theorem Protected.table :
    ∃ pcs rest, TryTable b' handlers start stop inner outer pcs rest ∧
      (∀ pc ∈ pcs ++ (rest.map Prod.fst).toList, pc ∉ s.entries) ∧
      rest.isSome = (scope.hasFinalizer && !(start == stop && isTry)) ∧
      (start ≠ stop → ClauseExits (Copied ctx (inner ++ outer)) scope b1.state start stop
        (gapPairs inner) mc ctx handlers pcs exit σ2 b3) ∧
      ∀ found ∈ rest, ∃ exit' σ3 b4,
        genClauses scope b1.state start stop (gapPairs inner) exit handlers mc σ2 ctx b3 =
          .ok (exit', σ3) b4 ∧ σ3.gap 0 = inner ++ outer ∧
        CatchAllRun scope b1.state start mc ctx σ3 b4 found.1 found.2 := by
  obtain ⟨pcs, fresh, clauses, exits⟩ := known.clauseTable shut distinct
  have even := known.paired shut
  cases guarded : scope.hasFinalizer && !(start == stop && isTry) with
  | false =>
    refine ⟨pcs, none, ⟨known.sorted, even, clauses, by simp⟩, ?_, rfl, exits, by simp⟩
    simpa using fresh
  | true =>
    obtain ⟨pc, own, exit', σ3, b4, catches, behind, ran, gaps, caughtAll⟩ := known.catchAll guarded
    have evenAll : (inner ++ outer).length % 2 = 0 := by
      rw [List.length_append]
      omega
    have sorted : (start :: ((inner ++ outer) ++ [own])).Pairwise (· ≤ ·) := by
      have ahead := List.pairwise_cons.mp known.sorted
      have whole : (inner ++ outer).Sublist (inner ++ stop :: outer) :=
        (List.Sublist.refl inner).append (.cons _ (.refl outer))
      refine List.pairwise_cons.mpr ⟨fun p member => ?_, List.pairwise_append.mpr
        ⟨ahead.2.sublist whole, List.pairwise_singleton _ _, fun p member q last => ?_⟩⟩
      · rcases List.mem_append.mp member with gap | last
        · exact ahead.1 p (whole.subset gap)
        · cases List.mem_singleton.mp last
          exact (ahead.1 stop (by simp)).trans (behind stop (by simp))
      · cases List.mem_singleton.mp last
        exact behind p (whole.subset member)
    have entered := catches.entered
    rw [rangesBetween_append evenAll sorted] at entered
    refine ⟨pcs, some (pc, own), ⟨known.sorted, even, clauses, ?_⟩, ?_, rfl, exits, ?_⟩
    · rintro found ⟨⟩
      refine ⟨fun row member => ?_, ?_, behind⟩
      · exact List.mem_singleton.mp (mem_rowsFor entered.fits (entered.rows ▸ member)).2.2
      · rw [entered.rangesFor (List.nodup_singleton _) (.head _)]
        exact coverExactly_bodyRanges evenAll sorted
    · intro p member
      rcases List.mem_append.mp member with clause | all
      · exact fresh p clause
      · cases List.mem_singleton.mp all
        exact catches.fresh
    · rintro found ⟨⟩
      exact ⟨exit', σ3, b4, ran, gaps, caughtAll⟩

end Known

def trySubroutine (mc : MethodContext) (σ : MethodState) (finalizer : Option Stmt) : Bool :=
  σ.subroutines || finalizer.any fun stmt =>
    mc.settings.usesSubroutine (stmt.weight mc.settings.finalizerInlineLimit)

def tryScope (scopes : List Scope) (finalizer : Option Stmt) (subroutine : Bool) : Scope :=
  .guarded (finalizer.map fun stmt => ⟨stmt.line, genStmt scopes false stmt⟩) subroutine

theorem sound_tryScope (sound : ∀ scope ∈ scopes, scope.Sound) (finalizer : Option Stmt)
    (subroutine : Bool) : (tryScope scopes finalizer subroutine).Sound := by
  intro found has
  obtain ⟨stmt, _, rfl⟩ := Option.map_eq_some_iff.mp has
  exact keeps_genStmt sound false stmt

/-- Lowering a `try` statement lowers a protected body in a record of its own. -/
theorem guarded_run {body : Stmt} {catches : List Catch} {finalizer : Option Stmt}
    (run : genStmtKind scopes (.guarded body catches finalizer) mc σ ctx b = .ok (y, σ') b') :
    ∃ σ1, let subroutine := trySubroutine mc σ finalizer
      let scope := tryScope scopes finalizer subroutine
      genGuarded scope (genStmt (scope :: scopes) false body) (catchHandlers (scope :: scopes) catches)
        true mc { σ with subroutines := subroutine, records := {} :: σ.records } ctx b =
        .ok ((), σ1) b' ∧ σ' = { σ1 with records := σ1.records.drop 1 } := by
  obtain ⟨subroutine, same, ran⟩ : ∃ subroutine, trySubroutine mc σ finalizer = subroutine ∧ (do
      let scope := .guarded (finalizer.map fun stmt => ⟨stmt.line, genStmt scopes false stmt⟩)
        (← get).subroutines
      discard (enclosed (genGuarded scope (genStmt (scope :: scopes) false body)
        (catchHandlers (scope :: scopes) catches) true)) : Lowering Unit) mc
        { σ with subroutines := subroutine } ctx b = .ok (y, σ') b' := by
    cases finalizer with
    | none =>
      rw [genStmtKind, genTry, read_bind] at run
      exact ⟨σ.subroutines, Bool.or_false _, run⟩
    | some finalizer =>
      rw [genStmtKind, read_bind, genTry, read_bind] at run
      obtain ⟨_, _, _, changed, run⟩ := bind_ok.mp run
      obtain ⟨rfl, rfl⟩ := modify_ok.mp changed
      exact ⟨_, rfl, run⟩
  subst same
  rw [get_bind] at ran
  obtain ⟨found, ran⟩ := discard_ok.mp ran
  obtain ⟨σ1, inside, _, rfl⟩ := of_enclosed ran
  exact ⟨σ1, inside, rfl⟩

theorem types_catchHandlers (inside : List Scope) (catches : List Catch) :
    (catchHandlers inside catches).map (·.types) = catches.map (·.types) := by
  induction catches with
  | nil => rfl
  | cons clause rest ih =>
    cases clause
    rw [catchHandlers, List.map_cons, List.map_cons, ih]
    rfl

/-- The gaps of a `try` statement are in order and come in pairs. Each clause covers the body except
for the gaps in it, with one sequence of ranges for each of its classes. The handler for everything
else covers all that comes before its own copy of the finalizer, except for the gaps. So no copy of a
finalizer that runs in line is covered, nor is the instruction that leaves after it. -/
theorem guarded_covers {body : Stmt} {catches : List Catch} {finalizer : Option Stmt}
    (amid : Amid scopes ctx s σ b owned) (distinct : ∀ clause ∈ catches, clause.types.Nodup)
    (run : genStmtKind scopes (.guarded body catches finalizer) mc σ ctx b = .ok ((), σ') b') :
    ∃ start stop inner outer pcs rest b1 σ1 b2 exit σ2 b3,
      let subroutine := trySubroutine mc σ finalizer
      let scope := tryScope scopes finalizer subroutine
      let handlers := catchHandlers (scope :: scopes) catches
      BodyRun scope (genStmt (scope :: scopes) false body) true mc ctx
        { σ with subroutines := subroutine, records := {} :: σ.records } b start stop b1 σ1 b2 exit σ2
        b3 ∧ σ1.gap 0 = inner ∧
      TryTable b' handlers start stop inner outer pcs rest ∧
      TryExits scope scopes handlers mc ctx start stop inner outer pcs rest
        (TryTable.rows b' pcs rest) b1 b2 exit σ2 b3 ∧
      (∀ pc ∈ pcs ++ (rest.map Prod.fst).toList, pc ∉ s.entries) ∧
      (rest.isSome = true ↔ finalizer.isSome = true ∧ start ≠ stop) := by
  obtain ⟨σ', ran, rfl⟩ := guarded_run run
  have whole := sound_tryScope amid.sound finalizer (trySubroutine mc σ finalizer)
  have inside := sound_cons whole amid.sound
  have before :
      Amid scopes ctx s { σ with subroutines := trySubroutine mc σ finalizer } b owned :=
    ⟨amid.sound, ⟨amid.holds.owns, amid.holds.gaps⟩, amid.shut, amid.sized⟩
  have enclosed := before.enclose whole
  obtain ⟨s', _, _, start, stop, inner, outer, b1, σ1, b2, exit, σ2, b3, bodied, known⟩ :=
    genGuarded_ok whole (keeps_genStmt inside false body) (keeps_catchHandlers inside catches)
      (by exact Nat.succ_pos _) rfl enclosed.holds ran
  have once : ∀ clause ∈ catchHandlers (tryScope scopes finalizer
      (trySubroutine mc σ finalizer) :: scopes) catches, clause.types.Nodup := by
    intro clause member
    have listed : clause.types ∈ catches.map Catch.types :=
      types_catchHandlers _ catches ▸ List.mem_map_of_mem member
    obtain ⟨source, among, same⟩ := List.mem_map.mp listed
    exact same ▸ distinct source among
  obtain ⟨pcs, rest, table, fresh, has, exits, catchAll⟩ := known.table enclosed.shut once
  refine ⟨start, stop, inner, outer, pcs, rest, b1, σ1, b2, exit, σ2, b3, bodied,
    known.gaps, table, ⟨fun inline alive => ?_, fun differ => ?_, ?_, ?_⟩, fresh, ?_⟩
  · exact (known.copied enclosed.shut inline alive).uncovered table
  · exact (exits differ).imp fun _ _ copied => copied.uncovered table
  · intro found member
    obtain ⟨exit', σ3, b4, ran, gaps, exception, last, σ4, b5, σ5, b6, began, finalized, gap, copied⟩ :=
      catchAll found member
    refine ⟨exit', σ3, b4, exception, last, σ4, b5, σ5, b6, ran, gaps, began, finalized, gap,
      fun inline later first c asked pc lower _ row own covers => ?_⟩
    obtain ⟨c', asked'⟩ := copied inline
    rw [asked'] at asked
    cases asked
    have before := (table.covered own covers.1 covers.2).2 found member
    omega
  · intro kind nested left s1 σ2 b1 owned1 σ3 b2 σ4 b3 σ5 b4 amid1 leaves reaches began unwound ran sooner
      inline alive
    obtain ⟨finalizer', same⟩ := Scope.eq_of_isInline _ inline
    rw [same] at amid1 leaves began ran
    obtain ⟨more, split⟩ := leaves_take leaves
    have taken : left.take nested.length = nested := by
      have front := congrArg (List.take nested.length) split
      rwa [List.take_append_of_le_length reaches.le, List.take_left] at front
    have here : left[nested.length]? = some (.guarded finalizer' false) := by
      have place := congrArg (·[nested.length]?) split
      simpa [List.getElem?_append_left reaches] using place
    rw [← taken] at unwound
    exact ((copied_of_leaves amid1 leaves here began unwound alive ran).later sooner).uncovered table
  · rw [has, Bool.and_true]
    cases finalizer <;> simp [tryScope, Scope.hasFinalizer]

/-- Sets a variable and returns, with a clause for the given classes and a finalizer that sets another
variable. -/
def settling (types : List BinaryName) : StmtKind :=
  let set (id : VarId) (value : Int32) : Stmt :=
    .mk none (.declare ⟨id, ⟨"state"⟩, .base .int, none, none⟩
      (some (.mk (some (.base .int)) (some (.int value)) (.literal (.int value)))))
  .guarded (.mk none (.block [set 0 1, .mk none (.ret none)]))
    [.mk types ⟨1, ⟨"cause"⟩, .object .throwable, none, none⟩ (.mk none .empty)] (some (set 2 0))

def settled (types : List BinaryName) : EStateM.Result Error Buffer (Unit × MethodState) :=
  genStmtKind [] (settling types) ⟨.default, .void⟩ {}
    ⟨.empty, ⟨"Gate"⟩, Settings.default.code, false⟩ (.empty .empty)

set_option maxRecDepth 2000 in
/-- The ranges for both classes stop before the copy of the finalizer in front of the return, and the
handler that throws the exception again covers itself only up to its own copy. -/
theorem guarded_covers_settling : ∃ σ' b', settled [.exception, .error] = .ok ((), σ') b' ∧
    b'.rangesFor 5 (some .exception) = [(0, 2)] ∧ b'.rangesFor 5 (some .error) = [(0, 2)] ∧
    b'.rangesFor 11 none = [(0, 2), (5, 6), (11, 12)] ∧
    ∃ start stop inner outer pcs rest handlers, TryTable b' handlers start stop inner outer pcs rest ∧
      (rest.isSome = true ↔ start ≠ stop) := by
  have found : seen? (fun _ b => (b.rangesFor 5 (some .exception), b.rangesFor 5 (some .error),
      b.rangesFor 11 none)) (settled [.exception, .error]) =
      some ([(0, 2)], [(0, 2)], [(0, 2), (5, 6), (11, 12)]) := by
    cbv
  obtain ⟨result, b', run, ranges⟩ := ok_of_seen? found
  simp only [Prod.mk.injEq] at ranges
  obtain ⟨start, stop, inner, outer, pcs, rest, _, _, _, _, _, _, _, _, table, _, _, has⟩ :=
    guarded_covers (.start _ .empty) (by decide) run
  exact ⟨result.2, b', run, ranges.1, ranges.2.1, ranges.2.2, start, stop, inner, outer, pcs, rest, _,
    table, by simpa using has⟩

set_option maxRecDepth 2000 in
/-- A clause that lists a class twice has its ranges twice. -/
theorem repeated_class_overlaps : ∃ σ' b', settled [.exception, .exception] = .ok ((), σ') b' ∧
    ¬(b'.rangesFor 5 (some .exception)).Pairwise fun range next => range.2 ≤ next.1 := by
  have found : seen? (fun _ b => b.rangesFor 5 (some .exception)) (settled [.exception, .exception]) =
      some [(0, 2), (0, 2)] := by
    cbv
  obtain ⟨result, b', run, ranges⟩ := ok_of_seen? found
  refine ⟨result.2, b', run, ?_⟩
  rw [ranges]
  decide

end Lowering

end ClassForge
