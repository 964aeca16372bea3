import ClassForge.Proofs.Emission

namespace ClassForge

variable {rest bytes code : Bytes} {target pc : Nat} {opcode : UInt8} {log : List (Nat × Nat)}

namespace Opcode

def jumpLength (opcode : UInt8) : Nat := if opcode = gotoWide ∨ opcode = jsrWide then 5 else 3

theorem fixedLength?_of_isJump (jumps : isJump opcode = true) :
    fixedLength? opcode = some (jumpLength opcode) := by
  simp only [isJump, Bool.or_eq_true, Bool.and_eq_true, decide_eq_true_eq,
    UInt8.le_iff_toNat_le] at jumps
  simp only [jumpLength, gotoWide, jsrWide, ← UInt8.toNat_inj, fixedLength?]
  have bounds : (153 ≤ opcode.toNat ∧ opcode.toNat ≤ 168) ∨
    (198 ≤ opcode.toNat ∧ opcode.toNat ≤ 201) := jumps
  rw [if_neg (by omega), if_neg (by omega)]
  have wide : (0xC8 : UInt8).toNat = 200 ∧ (0xC9 : UInt8).toNat = 201 := by decide
  rw [wide.1, wide.2]
  by_cases long : opcode.toNat = 200 ∨ opcode.toNat = 201
  · rw [if_neg (by omega), if_neg (by omega), if_pos (by omega), if_pos long]
  · rw [if_pos (by omega), if_neg long]

theorem jumpLength_pos (opcode : UInt8) : 3 ≤ jumpLength opcode ∧ jumpLength opcode ≤ 5 := by
  unfold jumpLength
  split <;> omega

end Opcode

theorem Bytes.instructionLength?_of_isJump (found : code[pc]? = some opcode)
    (jumps : Opcode.isJump opcode = true) :
    code.instructionLength? pc = some (Opcode.jumpLength opcode) := by
  have known := Opcode.fixedLength?_of_isJump jumps
  have excluded : ∀ special, Opcode.fixedLength? special = none → opcode ≠ special := by
    rintro _ unknown rfl
    rw [unknown] at known
    cases known
  unfold instructionLength?
  rw [found]
  simp only [if_neg (excluded Opcode.tableSwitch rfl), if_neg (excluded Opcode.lookupSwitch rfl),
    if_neg (excluded Opcode.wide rfl), known]

theorem Bytes.instructionLength?_of_jump (code : Bytes) (jumps : Opcode.isJump opcode = true)
    (size : rest.length + 1 = Opcode.jumpLength opcode) :
    (code ++ opcode :: rest).instructionLength? code.length = some (opcode :: rest).length := by
  rw [List.length_cons, size]
  refine instructionLength?_of_isJump ?_ jumps
  rw [List.getElem?_append_right (le_rfl), Nat.sub_self, List.getElem?_cons_zero]

structure JumpAt (code : Bytes) (base pc : Nat) (opcode : UInt8) : Prop where
  boundary : Boundary code base pc
  found : code[pc]? = some opcode
  isJump : Opcode.isJump opcode = true

namespace JumpAt

variable {count : Nat}
variable {code other : Bytes} {base pc : Nat} {opcode : UInt8}

section

variable (jump : JumpAt code base pc opcode)

include jump

theorem lt_length : pc < code.length :=
  (List.getElem?_eq_some_iff.mp jump.found).1

theorem instructionLength? : code.instructionLength? pc = some (Opcode.jumpLength opcode) :=
  Bytes.instructionLength?_of_isJump jump.found jump.isJump

theorem end_le {stop : Nat} (later : Boundary code base stop) (before : pc < stop) :
    pc + Opcode.jumpLength opcode ≤ stop := by
  obtain ⟨length, known, fits⟩ := jump.boundary.instruction_le later before
  rw [jump.instructionLength?] at known
  cases known
  exact fits

theorem append (bytes : Bytes) : JumpAt (code ++ bytes) base pc opcode where
  boundary := jump.boundary.append bytes
  found := by rw [List.getElem?_append_left jump.lt_length, jump.found]
  isJump := jump.isJump

theorem take (before : pc < count) : JumpAt (code.take count) base pc opcode where
  boundary := jump.boundary.take (by omega)
  found := by rw [List.getElem?_take_of_lt before, jump.found]
  isJump := jump.isJump

end

theorem of_take (jump : JumpAt (code.take count) base pc opcode) :
    JumpAt code base pc opcode ∧ pc < count := by
  have inside := jump.lt_length
  rw [List.length_take] at inside
  refine ⟨⟨jump.boundary.of_take, ?_, jump.isJump⟩, by omega⟩
  rw [← jump.found, List.getElem?_take_of_lt (by omega)]

end JumpAt

/-- Two codes of one length that split into instructions in the same way, with the same opcodes and
the same operands except for those of jumps and switches. -/
structure SameLayout (base : Nat) (code other : Bytes) : Prop where
  size : other.length = code.length
  boundary : ∀ pc, Boundary code base pc → Boundary other base pc
  back : ∀ pc, Boundary other base pc → Boundary code base pc
  opcode : ∀ pc, Boundary code base pc → other[pc]? = code[pc]?
  plain : ∀ pc bytes, Boundary code base pc → Bytes.IsPlain bytes →
    (other.StandAt pc bytes ↔ code.StandAt pc bytes)

namespace SameLayout

variable {start length : Nat}
variable {code other : Bytes} {base : Nat}

theorem symm (same : SameLayout base code other) : SameLayout base other code where
  size := same.size.symm
  boundary := same.back
  back := same.boundary
  opcode pc boundary := (same.opcode pc (same.back pc boundary)).symm
  plain pc bytes boundary plain := (same.plain pc bytes (same.back pc boundary) plain).symm

theorem ofEarly (size : other.length = code.length) (same : ∀ i, base ≤ i → other[i]? = code[i]?) :
    SameLayout base code other where
  size := size
  boundary _ boundary := boundary.congr (size ▸ boundary.le_length) fun i lower _ => same i lower
  back _ boundary := boundary.congr (size ▸ boundary.le_length) fun i lower _ =>
    (same i lower).symm
  opcode pc boundary := same pc boundary.base_le
  plain pc bytes boundary _ := by
    have lower := boundary.base_le
    unfold Bytes.StandAt
    simp only [same _ (Nat.le_add_right_of_le lower)]

theorem standAt_of_outside (head : Boundary code base start)
    (known : code.instructionLength? start = some length)
    (same : ∀ i, i < start ∨ start + length ≤ i → other[i]? = code[i]?)
    (boundary : Boundary code base pc) (plain : bytes.IsPlain) (differ : pc ≠ start)
    (stands : code.StandAt pc bytes) : other.StandAt pc bytes := by
  intro i inside
  rw [← stands i inside]
  exact head.untouched known same boundary (stands.instructionLength? plain.complete) differ _
    (by omega) (by omega)

theorem ofInside (size : other.length = code.length) (head : Boundary code base start)
    (known : code.instructionLength? start = some length)
    (kept : other.instructionLength? start = some length) (found : code[start]? = some opcode)
    (special : ∀ bytes : Bytes, bytes.IsPlain → bytes.head? ≠ some opcode)
    (same : ∀ i, i ≤ start ∨ start + length ≤ i → other[i]? = code[i]?) :
    SameLayout base code other := by
  have outside : ∀ i, i < start ∨ start + length ≤ i → other[i]? = code[i]? :=
    fun i away => same i (by omega)
  have forth : ∀ pc, Boundary code base pc → Boundary other base pc :=
    fun pc boundary => boundary.replace head known kept size outside
  have differ : ∀ {pc bytes} {text : Bytes}, text[start]? = some opcode → Bytes.IsPlain bytes →
      text.StandAt pc bytes → pc ≠ start := by
    rintro pc bytes text here plain stands rfl
    refine special bytes plain ?_
    have first := stands 0 (List.length_pos_iff.mpr fun none => ?_)
    · rw [List.head?_eq_getElem?, ← first]
      exact here
    · have complete := plain.complete
      rw [none] at complete
      cases complete
  refine ⟨size, forth, ?_, ?_, fun pc bytes boundary plain => ⟨fun stands => ?_, fun stands => ?_⟩⟩
  · intro pc boundary
    exact boundary.replace (forth start head) kept known size.symm fun i away =>
      (outside i away).symm
  · intro pc boundary
    by_cases after : start < pc
    · obtain ⟨_, measured, fits⟩ := head.instruction_le boundary after
      rw [known] at measured
      cases measured
      exact same pc (.inr fits)
    · exact same pc (.inl (by omega))
  · exact standAt_of_outside (forth start head) kept (fun i away => (outside i away).symm)
      (forth pc boundary) plain
      (differ ((same start (.inl (le_rfl))).trans found) plain stands) stands
  · exact standAt_of_outside head known outside boundary plain (differ found plain stands) stands

theorem jumpAt (same : SameLayout base code other) (jump : JumpAt code base pc opcode) :
    JumpAt other base pc opcode where
  boundary := same.boundary pc jump.boundary
  found := by rw [same.opcode pc jump.boundary, jump.found]
  isJump := jump.isJump

end SameLayout

def siteLength (wide : Bool) : Nat := if wide then 5 else 3

def writeCount (log : List (Nat × Nat)) (pc : Nat) : Nat := (log.map Prod.fst).count pc

@[simp] theorem writeCount_append (log more : List (Nat × Nat)) (pc : Nat) :
    writeCount (log ++ more) pc = writeCount log pc + writeCount more pc := by
  simp [writeCount]

@[simp] theorem writeCount_singleton (entry : Nat × Nat) (pc : Nat) :
    writeCount [entry] pc = if entry.1 = pc then 1 else 0 := by
  simp [writeCount, List.count_singleton]

theorem writeCount_eq_zero {q : Nat} (own : ∀ entry ∈ log, entry.1 = pc) (differ : q ≠ pc) :
    writeCount log q = 0 := by
  refine List.count_eq_zero.mpr fun inside => ?_
  obtain ⟨entry, listed, rfl⟩ := List.mem_map.mp inside
  exact differ (own entry listed)

theorem writeCount_pos {entry : Nat × Nat} (member : entry ∈ log) : 0 < writeCount log entry.1 :=
  List.count_pos_iff.mpr (List.mem_map_of_mem member)

/-- The code from `base` on splits into instructions. The jumps at `sites` wait for their targets,
and the offset of every other jump has been written once according to the log, unless it did not
fit. Of a jump below the base only the place is known. -/
structure Wired (wide needsWide : Bool) (base : Nat) (sites : Multiset Nat)
    (log : List (Nat × Nat)) (code : Bytes) : Prop where
  tiled : Boundary code base code.length
  distinct : sites.Nodup
  early : ∀ pc ∈ sites, pc < base → pc + 5 ≤ base
  jumps : ∀ pc ∈ sites, base ≤ pc →
    ∃ opcode, JumpAt code base pc opcode ∧ Opcode.jumpLength opcode = siteLength wide
  unwritten : ∀ pc ∈ sites, base ≤ pc → writeCount log pc = 0
  settled : ∀ pc opcode, JumpAt code base pc opcode → pc ∉ sites →
    writeCount log pc = 1 ∨ needsWide = true ∧ writeCount log pc = 0
  logged : ∀ entry ∈ log, base ≤ entry.1 → ∃ opcode, JumpAt code base entry.1 opcode

namespace Wired

variable {wide needsWide : Bool} {base pc : Nat} {sites : Multiset Nat} {log : List (Nat × Nat)}
  {code other : Bytes}

theorem empty (wide needsWide : Bool) : Wired wide needsWide 0 0 [] [] where
  tiled := .start (Nat.le_refl 0)
  distinct := Multiset.nodup_zero
  early := by simp
  jumps := by simp
  unwritten := by simp
  settled := by
    intro pc opcode jump
    have := jump.lt_length
    simp at this
  logged := by simp

theorem congr (wired : Wired wide needsWide base sites log code)
    (same : SameLayout base code other) : Wired wide needsWide base sites log other where
  tiled := by
    rw [same.size]
    exact same.boundary _ wired.tiled
  distinct := wired.distinct
  early := wired.early
  jumps pc member lower := by
    obtain ⟨opcode, jump, length⟩ := wired.jumps pc member lower
    exact ⟨opcode, same.jumpAt jump, length⟩
  unwritten := wired.unwritten
  settled pc opcode jump := wired.settled pc opcode (same.symm.jumpAt jump)
  logged entry member lower := by
    obtain ⟨opcode, jump⟩ := wired.logged entry member lower
    exact ⟨opcode, same.jumpAt jump⟩

theorem sameLayout (wired : Wired wide needsWide base sites log code) (member : pc ∈ sites)
    (size : other.length = code.length)
    (same : ∀ i, i ≤ pc ∨ pc + siteLength wide ≤ i → other[i]? = code[i]?) :
    SameLayout base code other := by
  by_cases lower : base ≤ pc
  · obtain ⟨opcode, jump, length⟩ := wired.jumps pc member lower
    rw [← length] at same
    have found : other[pc]? = some opcode := (same pc (.inl (Nat.le_refl pc))).trans jump.found
    refine .ofInside size jump.boundary jump.instructionLength?
      (Bytes.instructionLength?_of_isJump found jump.isJump) jump.found (fun bytes plain head => ?_)
      same
    have noJump := plain.noJump opcode head
    rw [jump.isJump] at noJump
    cases noJump
  · have early := wired.early pc member (by omega)
    refine .ofEarly size fun i lower => same i (.inr ?_)
    have : siteLength wide ≤ 5 := by unfold siteLength; split <;> omega
    omega

/-- A jump no longer waits: its offset has been written, or it does not fit. -/
theorem settle {needed : Bool} (wired : Wired wide needsWide base (pc ::ₘ sites) log code)
    (more : List (Nat × Nat)) (own : ∀ entry ∈ more, entry.1 = pc)
    (needs : needsWide = true → needed = true)
    (once : writeCount more pc = 1 ∨ needed = true ∧ writeCount more pc = 0) :
    Wired wide needed base sites (log ++ more) code := by
  obtain ⟨fresh, distinct⟩ := Multiset.nodup_cons.mp wired.distinct
  have self := Multiset.mem_cons_self pc sites
  have member : ∀ q ∈ sites, q ∈ pc ::ₘ sites := fun q inside => Multiset.mem_cons_of_mem inside
  refine ⟨wired.tiled, distinct, fun q inside => wired.early q (member q inside),
    fun q inside => wired.jumps q (member q inside), fun q inside lower => ?_,
    fun q opcode jump outside => ?_, fun entry inside lower => ?_⟩
  · have differ : q ≠ pc := fun equal => fresh (equal ▸ inside)
    rw [writeCount_append, wired.unwritten q (member q inside) lower, writeCount_eq_zero own differ]
  · rw [writeCount_append]
    by_cases equal : q = pc
    · subst equal
      rw [wired.unwritten q self jump.boundary.base_le, zero_add]
      exact once
    · have waiting : q ∉ pc ::ₘ sites := by simp [equal, outside]
      rw [writeCount_eq_zero own equal]
      exact (wired.settled q opcode jump waiting).imp_right (And.imp_left needs)
  · rcases List.mem_append.mp inside with old | new
    · exact wired.logged entry old lower
    · rw [own entry new] at lower ⊢
      obtain ⟨opcode, jump, _⟩ := wired.jumps pc self lower
      exact ⟨opcode, jump⟩

theorem boundary_of_last (wired : Wired wide needsWide base sites log code) (member : pc ∈ sites)
    (last : pc + 3 = code.length) : base ≤ pc ∧ ∃ opcode, JumpAt code base pc opcode := by
  have within := wired.tiled.base_le
  have lower : base ≤ pc := by
    by_contra below
    have := wired.early pc member (by omega)
    omega
  obtain ⟨opcode, jump, _⟩ := wired.jumps pc member lower
  exact ⟨lower, opcode, jump⟩

theorem take_of_last (wired : Wired wide needsWide base (pc ::ₘ sites) log code)
    (last : pc + 3 = code.length) :
    Wired wide needsWide base sites log (code.take pc) := by
  have self := Multiset.mem_cons_self pc sites
  have fresh := (Multiset.nodup_cons.mp wired.distinct).1
  have member : ∀ q ∈ sites, q ∈ pc ::ₘ sites := fun q inside => Multiset.mem_cons_of_mem inside
  obtain ⟨lower, opcode, dropped⟩ := wired.boundary_of_last self last
  -- All other jumps end where this one starts, or before that.
  have before : ∀ q op, JumpAt code base q op → q ≠ pc → q < pc := by
    intro q op jump differ
    by_contra after
    have := dropped.end_le jump.boundary (by omega)
    have := jump.lt_length
    have := Opcode.jumpLength_pos opcode
    omega
  have size : (code.take pc).length = pc := by
    rw [List.length_take]
    omega
  refine ⟨?_, (Multiset.nodup_cons.mp wired.distinct).2,
    fun q inside => wired.early q (member q inside), ?_,
    fun q inside => wired.unwritten q (member q inside), ?_, ?_⟩
  · rw [size]
    exact dropped.boundary.take (Nat.le_refl pc)
  · intro q inside above
    obtain ⟨op, jump, length⟩ := wired.jumps q (member q inside) above
    have differ : q ≠ pc := fun equal => fresh (equal ▸ inside)
    exact ⟨op, jump.take (before q op jump differ), length⟩
  · intro q op jump outside
    obtain ⟨old, less⟩ := jump.of_take
    refine wired.settled q op old ?_
    simp only [Multiset.mem_cons, not_or]
    exact ⟨by omega, outside⟩
  · intro entry inside above
    obtain ⟨op, jump⟩ := wired.logged entry inside above
    have differ : entry.1 ≠ pc := by
      intro equal
      have never := wired.unwritten pc self lower
      have := writeCount_pos inside
      rw [equal] at this
      omega
    exact ⟨op, jump.take (before _ op jump differ)⟩

variable (wired : Wired wide needsWide base sites log code)

include wired

theorem jumpAt_append {q : Nat} {op : UInt8}
    (complete : (code ++ bytes).instructionLength? code.length = some bytes.length)
    (jump : JumpAt (code ++ bytes) base q op) :
    JumpAt code base q op ∨ q = code.length ∧ bytes.head? = some op := by
  refine (wired.tiled.append_cases complete jump.boundary jump.found).imp ?_ id
  exact fun ⟨_, boundary, found⟩ => ⟨boundary, found, jump.isJump⟩

theorem fresh_end : code.length ∉ sites ∧ writeCount log code.length = 0 := by
  have lower := wired.tiled.base_le
  constructor
  · intro inside
    obtain ⟨_, jump, _⟩ := wired.jumps _ inside lower
    exact absurd jump.lt_length (Nat.lt_irrefl _)
  · by_contra written
    obtain ⟨entry, inside, same⟩ := List.mem_map.mp (List.count_pos_iff.mp (Nat.pos_of_ne_zero written))
    obtain ⟨_, jump⟩ := wired.logged entry inside (same ▸ lower)
    have := jump.lt_length
    omega

theorem appendNext (next : code.IsNext bytes) :
    Wired wide needsWide base sites log (code ++ bytes) where
  tiled := wired.tiled.append_instruction next.complete
  distinct := wired.distinct
  early := wired.early
  jumps pc member lower := by
    obtain ⟨opcode, jump, length⟩ := wired.jumps pc member lower
    exact ⟨opcode, jump.append bytes, length⟩
  unwritten := wired.unwritten
  settled pc opcode jump outside := by
    rcases wired.jumpAt_append next.complete jump with old | ⟨_, head⟩
    · exact wired.settled pc opcode old outside
    · have := next.noJump opcode head
      rw [jump.isJump] at this
      cases this
  logged entry member lower := by
    obtain ⟨opcode, jump⟩ := wired.logged entry member lower
    exact ⟨opcode, jump.append bytes⟩

theorem jumpAt_end (isJump : Opcode.isJump opcode = true) :
    JumpAt (code ++ opcode :: rest) base code.length opcode where
  boundary := wired.tiled.append _
  found := by rw [List.getElem?_append_right (le_rfl), Nat.sub_self]; rfl
  isJump := isJump

theorem appendSite (isJump : Opcode.isJump opcode = true) (size : rest.length + 1 = siteLength wide)
    (length : Opcode.jumpLength opcode = siteLength wide) :
    Wired wide needsWide base (code.length ::ₘ sites) log (code ++ opcode :: rest) := by
  obtain ⟨fresh, unwritten⟩ := wired.fresh_end
  have lower := wired.tiled.base_le
  have complete := Bytes.instructionLength?_of_jump code isJump (size.trans length.symm)
  refine ⟨wired.tiled.append_instruction complete, Multiset.nodup_cons.mpr ⟨fresh, wired.distinct⟩,
    ?_, ?_, ?_, ?_, ?_⟩
  · intro q inside below
    rcases Multiset.mem_cons.mp inside with rfl | old
    · omega
    · exact wired.early q old below
  · intro q inside above
    rcases Multiset.mem_cons.mp inside with rfl | old
    · exact ⟨opcode, wired.jumpAt_end isJump, length⟩
    · obtain ⟨op, jump, long⟩ := wired.jumps q old above
      exact ⟨op, jump.append _, long⟩
  · intro q inside above
    rcases Multiset.mem_cons.mp inside with rfl | old
    · exact unwritten
    · exact wired.unwritten q old above
  · intro q op jump outside
    simp only [Multiset.mem_cons, not_or] at outside
    rcases wired.jumpAt_append complete jump with old | ⟨here, _⟩
    · exact wired.settled q op old outside.2
    · exact absurd here outside.1
  · intro entry inside above
    obtain ⟨op, jump⟩ := wired.logged entry inside above
    exact ⟨op, jump.append _⟩

theorem appendKnown (isJump : Opcode.isJump opcode = true)
    (size : rest.length + 1 = Opcode.jumpLength opcode) :
    Wired wide needsWide base sites (log ++ [(code.length, target)]) (code ++ opcode :: rest) := by
  obtain ⟨fresh, unwritten⟩ := wired.fresh_end
  have complete := Bytes.instructionLength?_of_jump code isJump size
  refine ⟨wired.tiled.append_instruction complete, wired.distinct, wired.early, ?_, ?_, ?_, ?_⟩
  · intro q inside above
    obtain ⟨op, jump, long⟩ := wired.jumps q inside above
    exact ⟨op, jump.append _, long⟩
  · intro q inside above
    have differ : code.length ≠ q := fun equal => fresh (equal ▸ inside)
    simp [wired.unwritten q inside above, differ]
  · intro q op jump outside
    rcases wired.jumpAt_append complete jump with old | ⟨rfl, _⟩
    · have differ : code.length ≠ q := by have := old.lt_length; omega
      simpa [differ] using wired.settled q op old outside
    · left
      simp [unwritten]
  · intro entry inside above
    rcases List.mem_append.mp inside with old | new
    · obtain ⟨op, jump⟩ := wired.logged entry old above
      exact ⟨op, jump.append _⟩
    · cases List.mem_singleton.mp new
      exact ⟨opcode, wired.jumpAt_end isJump⟩

end Wired

/-- Opcodes of short jumps that have a wide form: a longer instruction, or the opposite jump. -/
structure IsShortJump (opcode : UInt8) : Prop where
  isJump : Opcode.isJump opcode = true
  short : Opcode.jumpLength opcode = 3
  long : opcode = Opcode.goto ∨ opcode = Opcode.jsr ∨ (Opcode.negate? opcode).isSome = true
  opposite : ∀ negated, Opcode.negate? opcode = some negated →
    Opcode.isJump negated = true ∧ Opcode.jumpLength negated = 3 ∧ negated ≠ Opcode.goto

theorem Jump.isShortJump {jump : Jump} (known : jump.opcode? = some opcode) :
    IsShortJump opcode := by
  rcases jump with op | op | op | op | _ | _
  iterate 4
    cases known
    cases op <;> exact ⟨by decide, by decide, by decide, fun _ found => by cases found; decide⟩
  · cases known; exact ⟨by decide, by decide, by decide, fun _ found => by cases found⟩
  · cases known

theorem isShortJump_jsr : IsShortJump Opcode.jsr :=
  ⟨by decide, by decide, by decide, fun _ found => by cases found⟩

theorem IsShortJump.exists_jumpBytes (valid : IsShortJump opcode) (wide : Bool) :
    ∃ bytes back, Asm.jumpBytes wide opcode = some (bytes, back) := by
  unfold Asm.jumpBytes
  cases wide with
  | false => exact ⟨_, _, rfl⟩
  | true =>
    simp only [Bool.not_true, Bool.false_eq_true, if_false]
    split
    · exact ⟨_, _, rfl⟩
    rename_i noGoto
    split
    · exact ⟨_, _, rfl⟩
    rename_i noJsr
    obtain ⟨negated, known⟩ := Option.isSome_iff_exists.mp
      ((valid.long.resolve_left noGoto).resolve_left noJsr)
    rw [known]
    exact ⟨_, _, rfl⟩

namespace Asm

variable {base : Nat} {sites : Multiset Nat} {ctx : Context} {b b' : Buffer} {site : JumpSite}

def skips (bytes : Bytes) (back start : Nat) : List (Nat × Nat) :=
  if bytes.length = back then [] else [(start, start + bytes.length)]

theorem wired_jump {wide needsWide : Bool} {back : Nat} (valid : IsShortJump opcode)
    (chosen : jumpBytes wide opcode = some (bytes, back))
    (wired : Wired wide needsWide base sites log code) :
    Wired wide needsWide base ((code.length + bytes.length - back) ::ₘ sites)
      (log ++ skips bytes back code.length) (code ++ bytes) := by
  rcases jumpBytes_cases chosen with ⟨rfl, rfl, rfl⟩ | ⟨rfl, rfl, form⟩ |
    ⟨rfl, rfl, _, _, negated, known, rfl⟩
  · rw [show skips [opcode, 0, 0] 3 code.length = [] from rfl, List.append_nil]
    exact wired.appendSite valid.isJump rfl valid.short
  · rcases form with ⟨rfl, _⟩ | ⟨rfl, _⟩
    · rw [show skips [Opcode.gotoWide, 0, 0, 0, 0] 5 code.length = [] from rfl, List.append_nil]
      exact wired.appendSite rfl rfl rfl
    · rw [show skips [Opcode.jsrWide, 0, 0, 0, 0] 5 code.length = [] from rfl, List.append_nil]
      exact wired.appendSite rfl rfl rfl
  · obtain ⟨isJump, short, _⟩ := valid.opposite negated known
    have skipped : Wired true needsWide base sites (log ++ [(code.length, code.length + 8)])
        (code ++ [negated, 0, 8]) := wired.appendKnown isJump short.symm
    have both : Wired true needsWide base ((code ++ [negated, 0, 8]).length ::ₘ sites) _
        ((code ++ [negated, 0, 8]) ++ [Opcode.gotoWide, 0, 0, 0, 0]) := skipped.appendSite rfl rfl rfl
    rw [List.append_assoc, List.length_append] at both
    exact both

theorem length_offsetBytes (ctx : Context) (pc target : Nat) :
    (offsetBytes ctx pc target).length + 1 = siteLength ctx.wide := by
  unfold offsetBytes siteLength
  split <;> rfl

theorem wired_patch (wired : Wired ctx.wide b.needsWide base (pc ::ₘ sites) log b.bytes)
    (run : patch pc target ctx b = .ok () b') :
    Wired ctx.wide b'.needsWide base sites (log ++ writes ctx pc target) b'.bytes := by
  have length := length_offsetBytes ctx pc target
  rcases patch_ok run with ⟨fits, rfl⟩ | ⟨narrow, beyond, rfl⟩
  · rw [writes, if_pos fits]
    refine (wired.congr (wired.sameLayout (Multiset.mem_cons_self pc sites) (by simp) fun i away =>
      ?_)).settle [(pc, target)] (by simp) id (.inl (by simp))
    rw [Buffer.bytes_overwrite, if_neg (by omega)]
  · rw [writes, if_neg (by simp [narrow, beyond])]
    exact wired.settle [] (by simp) (fun _ => rfl) (.inr ⟨rfl, rfl⟩)

theorem Droppable.pc_eq (drop : Droppable ctx b target site) :
    site.pc + 3 = b.code.size := drop.2.1.trans drop.2.2.1

section

variable (drop : Droppable ctx b target site)
  (waits : Wired ctx.wide b.needsWide base (site.pc ::ₘ sites) log b.bytes)
include drop waits

theorem Droppable.last : site.pc + 3 = b.bytes.length ∧ b.code.size - 3 = site.pc ∧
    (b.retract 3).bytes = b.bytes.take site.pc ∧ ∃ opcode, JumpAt b.bytes base site.pc opcode := by
  have last := drop.pc_eq
  have size : site.pc + 3 = b.bytes.length := by rw [Buffer.length_bytes, last]
  have start : b.code.size - 3 = site.pc := by omega
  exact ⟨size, start, by rw [Buffer.bytes_retract, start],
    (waits.boundary_of_last (Multiset.mem_cons_self _ _) size).2⟩

theorem Droppable.wired :
    Wired ctx.wide (b.retract 3).needsWide base sites log (b.retract 3).bytes := by
  obtain ⟨size, _, bytes, _⟩ := drop.last waits
  exact bytes ▸ waits.take_of_last size

end

theorem Resolves.wired {merged merged' : Option State} {chain : Chain}
    (resolved : Resolves ctx target merged chain b merged' b' log) {rest : Multiset Nat}
    {before : List (Nat × Nat)}
    (wired : Wired ctx.wide b.needsWide base (chain.pcs + rest) before b.bytes) :
    Wired ctx.wide b'.needsWide base rest (before ++ log) b'.bytes := by
  induction resolved generalizing before with
  | done => simpa using wired
  | dropLast drop =>
    rw [List.append_nil]
    exact drop.wired (by simpa using wired)
  | dropMore drop arrived _ ih =>
    rw [Chain.pcs_cons, Multiset.cons_add] at wired
    refine ih ?_
    rw [arrive_buffer arrived]
    exact drop.wired wired
  | fill keep isJump patched agree arrived _ ih =>
    rw [Chain.pcs_cons, Multiset.cons_add] at wired
    have filled := wired_patch wired patched
    rw [← List.append_assoc]
    refine ih ?_
    rw [arrive_buffer arrived]
    exact filled

end Asm

end ClassForge
