import ClassForge.Proofs.Wiring

namespace ClassForge

variable {table : Bool} {operands : List Int32} {pc : Nat} {opcode : UInt8}

namespace Bytes

def ofWords (words : List Int32) : Bytes := words.flatMap fun word => ofWord32 word.toUInt32

@[simp] theorem length_ofWords (words : List Int32) : (ofWords words).length = 4 * words.length := by
  induction words with
  | nil => rfl
  | cons word rest ih =>
    simp only [ofWords, List.flatMap_cons, List.length_append, List.length_cons] at ih ⊢
    rw [ih]
    simp only [ofWord32, List.length_cons, List.length_nil]
    omega

theorem word32At?_append (code bytes : Bytes) (pos : Nat) :
    word32At? (code ++ bytes) (code.length + pos) = word32At? bytes pos := by
  have shifted : ∀ i, (code ++ bytes)[code.length + pos + i]? = bytes[pos + i]? := by
    intro i
    rw [List.getElem?_append_right (by omega)]
    congr 1
    omega
  unfold word32At?
  rw [shifted 1, shifted 2, shifted 3, List.getElem?_append_right (by omega),
    Nat.add_sub_cancel_left]

theorem word32At?_ofWord32 (word : Int32) (rest : Bytes) :
    word32At? (ofWord32 word.toUInt32 ++ rest) 0 = some word := by
  simp only [word32At?, ofWord32, List.cons_append, List.nil_append, List.getElem?_cons_zero,
    List.getElem?_cons_succ, Nat.zero_add, toWord32_ofWord32]
  rfl

theorem word32At?_ofWords (words : List Int32) (i : Nat) :
    word32At? (ofWords words) (4 * i) = words[i]? := by
  induction words generalizing i with
  | nil => simp [ofWords, word32At?]
  | cons word rest ih =>
    cases i with
    | zero => exact word32At?_ofWord32 word _
    | succ i =>
      rw [List.getElem?_cons_succ, ← ih i]
      have shifted := word32At?_append (ofWord32 word.toUInt32) (ofWords rest) (4 * i)
      rw [← shifted]
      congr 1
      simp only [ofWord32, List.length_cons, List.length_nil]
      omega

def ofSwitch (table : Bool) (start : Nat) (operands : List Int32) : Bytes :=
  (if table then Opcode.tableSwitch else Opcode.lookupSwitch) ::
    (List.replicate (switchBase start - (start + 1)) 0 ++ ofWords operands)

theorem length_ofSwitch (table : Bool) (start : Nat) (operands : List Int32) :
    start + (ofSwitch table start operands).length = switchBase start + 4 * operands.length := by
  have := lt_switchBase start
  simp only [ofSwitch, List.length_cons, List.length_append, List.length_replicate, length_ofWords]
  omega

theorem word32At?_ofSwitch (table : Bool) (code : Bytes) (operands : List Int32) (i : Nat) :
    word32At? (code ++ ofSwitch table code.length operands) (switchBase code.length + 4 * i) =
      operands[i]? := by
  have after := lt_switchBase code.length
  let start := if table then Opcode.tableSwitch else Opcode.lookupSwitch
  let padding : Bytes := List.replicate (switchBase code.length - (code.length + 1)) 0
  have split : code ++ ofSwitch table code.length operands =
      (code ++ start :: padding) ++ ofWords operands := by
    simp [ofSwitch, start, padding]
  have size : (code ++ start :: padding).length = switchBase code.length := by
    simp only [padding, List.length_append, List.length_cons, List.length_replicate]
    omega
  rw [split, ← size, word32At?_append, word32At?_ofWords]

end Bytes

/-- The operands of a switch are complete: a default, the bounds of the table with an offset for
every value between them, or the number of pairs and the pairs. -/
def SwitchOperands (table : Bool) (operands : List Int32) : Prop :=
  match table, operands with
  | true, _ :: low :: high :: offsets =>
    low.toInt ≤ high.toInt ∧ offsets.length = (high.toInt - low.toInt + 1).toNat
  | false, _ :: count :: pairs => 0 ≤ count.toInt ∧ pairs.length = 2 * count.toInt.toNat
  | _, _ => False

theorem SwitchOperands.isNext (code : Bytes) (complete : SwitchOperands table operands) :
    code.IsNext (Bytes.ofSwitch table code.length operands) := by
  have total := Bytes.length_ofSwitch table code.length operands
  have after := Bytes.lt_switchBase code.length
  have word := Bytes.word32At?_ofSwitch table code operands
  have here : (code ++ Bytes.ofSwitch table code.length operands)[code.length]? =
      some (if table then Opcode.tableSwitch else Opcode.lookupSwitch) := by
    rw [List.getElem?_append_right (le_rfl), Nat.sub_self]
    rfl
  refine ⟨?_, ?_⟩
  · unfold Bytes.instructionLength?
    rw [here]
    match table, operands, complete with
    | true, _ :: low :: high :: offsets, ⟨ordered, size⟩ =>
      have atLow := word 1
      have atHigh := word 2
      simp only [List.getElem?_cons_succ, List.getElem?_cons_zero] at atLow atHigh
      simp only [if_true, Bytes.tableSwitchLength?, atLow, atHigh, if_pos ordered, Option.some.injEq]
      simp only [List.length_cons] at total
      omega
    | false, _ :: count :: pairs, ⟨positive, size⟩ =>
      have atCount := word 1
      simp only [List.getElem?_cons_succ, List.getElem?_cons_zero] at atCount
      simp only [Bool.false_eq_true, if_false, if_neg (show Opcode.lookupSwitch ≠ Opcode.tableSwitch
        by decide), if_true, Bytes.lookupSwitchLength?, atCount, if_pos positive, Option.some.injEq]
      simp only [List.length_cons] at total
      omega
  · intro opcode head
    cases table <;> cases head <;> rfl

/-- A switch instruction in the code: where its opcode and its operands are, and how many operands
it has. -/
structure SwitchPlace where
  table : Bool
  start : Nat
  base : Nat
  count : Nat

namespace SwitchPlace

def header (place : SwitchPlace) : Nat := if place.table then 3 else 2

def IsSlot (place : SwitchPlace) (pos : Nat) : Prop :=
  ∃ i < place.count, (i = 0 ∨ place.header ≤ i) ∧ pos = place.base + 4 * i

structure InCode (place : SwitchPlace) (base : Nat) (code : Bytes) : Prop where
  boundary : Boundary code base place.start
  opcode : code[place.start]? =
    some (if place.table then Opcode.tableSwitch else Opcode.lookupSwitch)
  operands : place.base = Bytes.switchBase place.start
  length : code.instructionLength? place.start = some (place.base + 4 * place.count - place.start)

end SwitchPlace

def Slotted (base : Nat) (places : List SwitchPlace) (code : Bytes) : Prop :=
  ∀ place ∈ places, place.base + 4 * place.count ≤ base ∨ place.InCode base code

theorem SameLayout.instructionLength? {base length : Nat} {code other : Bytes}
    (same : SameLayout base code other) (tiled : Boundary code base code.length)
    (boundary : Boundary code base pc) (known : code.instructionLength? pc = some length)
    (inside : pc < code.length) : other.instructionLength? pc = some length := by
  -- The next boundary after `pc` is the same in both codes.
  obtain ⟨_, found, fits⟩ := boundary.instruction_le tiled inside
  rw [known] at found
  cases found
  have positive := Bytes.instructionLength?_pos known
  have next := same.boundary _ (.next boundary known fits)
  obtain ⟨other', found, fits'⟩ :=
    (same.boundary pc boundary).instruction_le next (by omega)
  have positive' := Bytes.instructionLength?_pos found
  have back := same.back _ (.next (same.boundary pc boundary) found (by rw [same.size]; omega))
  obtain ⟨_, again, fits''⟩ := boundary.instruction_le back (by omega)
  rw [known] at again
  cases again
  rw [found]
  congr 1
  omega

namespace SwitchPlace.InCode

variable {place : SwitchPlace} {base pos : Nat} {code other : Bytes}

variable (inCode : place.InCode base code)

include inCode

theorem lt_length : place.start < code.length :=
  (List.getElem?_eq_some_iff.mp inCode.opcode).1

theorem start_lt : place.start < place.base := by
  rw [inCode.operands]
  exact Bytes.lt_switchBase _

theorem start_ne (jump : JumpAt code base pos opcode) : place.start ≠ pos := by
  intro same
  have found := jump.found
  rw [← same, inCode.opcode] at found
  cases found
  have := jump.isJump
  split at this <;> cases this

theorem end_le {stop : Nat} (later : Boundary code base stop) (before : place.start < stop) :
    place.base + 4 * place.count ≤ stop := by
  obtain ⟨_, found, fits⟩ := inCode.boundary.instruction_le later before
  rw [inCode.length] at found
  cases found
  have := inCode.start_lt
  omega

theorem append (tiled : Boundary code base code.length) (bytes : Bytes) :
    place.InCode base (code ++ bytes) where
  boundary := inCode.boundary.append bytes
  opcode := by rw [List.getElem?_append_left inCode.lt_length, inCode.opcode]
  operands := inCode.operands
  length := by
    have inside := inCode.end_le tiled inCode.lt_length
    have := inCode.start_lt
    refine Bytes.instructionLength?_congr inCode.length fun i _ upper => ?_
    exact List.getElem?_append_left (by omega)

theorem take {count : Nat} (inside : place.base + 4 * place.count ≤ count) :
    place.InCode base (code.take count) where
  boundary := inCode.boundary.take (by have := inCode.start_lt; omega)
  opcode := by
    rw [List.getElem?_take_of_lt (by have := inCode.start_lt; omega), inCode.opcode]
  operands := inCode.operands
  length := by
    have := inCode.start_lt
    refine Bytes.instructionLength?_congr inCode.length fun i _ upper => ?_
    exact List.getElem?_take_of_lt (by omega)

theorem sameLayout (tiled : Boundary code base code.length) (same : SameLayout base code other) :
    place.InCode base other where
  boundary := same.boundary _ inCode.boundary
  opcode := by rw [same.opcode _ inCode.boundary, inCode.opcode]
  operands := inCode.operands
  length := same.instructionLength? tiled inCode.boundary inCode.length inCode.lt_length

theorem instructionLength?_slot (slot : place.IsSlot pos)
    (same : ∀ i, i < pos ∨ pos + 4 ≤ i → other[i]? = code[i]?) :
    other.instructionLength? place.start = some (place.base + 4 * place.count - place.start) := by
  obtain ⟨i, _, free, rfl⟩ := slot
  have after := inCode.start_lt
  rw [← inCode.length]
  have word : ∀ k, (k = 1 ∨ k = 2 ∧ place.table = true) →
      other.word32At? (Bytes.switchBase place.start + 4 * k) =
        code.word32At? (Bytes.switchBase place.start + 4 * k) := by
    intro k which
    refine Bytes.word32At?_congr fun j lower upper => same j ?_
    rw [← inCode.operands] at lower upper
    unfold header at free
    rcases which with rfl | ⟨rfl, table⟩
    · split at free <;> omega
    · rw [if_pos table] at free
      omega
  unfold Bytes.instructionLength?
  rw [same place.start (.inl (by omega)), inCode.opcode]
  cases table : place.table with
  | true =>
    have atLow := word 1 (.inl rfl)
    have atHigh := word 2 (.inr ⟨rfl, table⟩)
    simp only [if_true, Bytes.tableSwitchLength?, atLow, atHigh]
  | false =>
    have differ : Opcode.lookupSwitch ≠ Opcode.tableSwitch := by decide
    have atCount : other.word32At? (Bytes.switchBase place.start + 4) =
      code.word32At? (Bytes.switchBase place.start + 4) := word 1 (.inl rfl)
    simp only [Bool.false_eq_true, if_false, if_neg differ, if_true, Bytes.lookupSwitchLength?,
      atCount]

theorem fill (slot : place.IsSlot pos) (size : other.length = code.length)
    (same : ∀ i, i < pos ∨ pos + 4 ≤ i → other[i]? = code[i]?) : SameLayout base code other := by
  have kept := inCode.instructionLength?_slot slot same
  obtain ⟨i, inside, _, rfl⟩ := slot
  have after := inCode.start_lt
  refine .ofInside size inCode.boundary inCode.length kept inCode.opcode (fun bytes plain => ?_)
    fun j away => same j (by omega)
  cases place.table
  · exact plain.no_switch.2
  · exact plain.no_switch.1

end SwitchPlace.InCode

namespace Slotted

variable {base pos : Nat} {places : List SwitchPlace} {code other : Bytes}

theorem append (slotted : Slotted base places code) (tiled : Boundary code base code.length)
    (bytes : Bytes) : Slotted base places (code ++ bytes) :=
  fun place member => (slotted place member).imp_right fun inCode => inCode.append tiled bytes

theorem sameLayout (slotted : Slotted base places code) (tiled : Boundary code base code.length)
    (same : SameLayout base code other) : Slotted base places other :=
  fun place member => (slotted place member).imp_right fun inCode => inCode.sameLayout tiled same

theorem take (slotted : Slotted base places code) (jump : JumpAt code base pos opcode)
    (last : pos + 3 = code.length) : Slotted base places (code.take pos) := by
  intro place member
  refine (slotted place member).imp_right fun inCode => ?_
  have noJump := inCode.start_ne jump
  have before : place.start < pos := by
    by_contra after
    have := jump.end_le inCode.boundary (by omega)
    have := inCode.lt_length
    have := Opcode.jumpLength_pos opcode
    omega
  exact inCode.take (inCode.end_le jump.boundary before)

theorem fill {place : SwitchPlace} (slotted : Slotted base places code) (member : place ∈ places)
    (slot : place.IsSlot pos) (size : other.length = code.length)
    (same : ∀ i, i < pos ∨ pos + 4 ≤ i → other[i]? = code[i]?) : SameLayout base code other := by
  rcases slotted place member with early | inCode
  · obtain ⟨i, inside, _, rfl⟩ := slot
    exact .ofEarly size fun j lower => same j (.inr (by omega))
  · exact inCode.fill slot size same

end Slotted

namespace Asm

variable {ctx : Context} {b b' : Buffer} {y : Unit}

/-- Emit a switch with all of its operands. There is none in dead code. -/
def placeSwitch (table : Bool) (operands : List Int32) : Asm (Option SwitchPlace) := do
  match ← emitSwitch table with
  | none => return none
  | some start =>
    align 4
    let base ← length
    operands.forM emitWord
    return some ⟨table, start, base, operands.length⟩

theorem append_append (b : Buffer) (bytes more : Bytes) :
    (b.append bytes).append more = b.append (bytes ++ more) := by
  simp only [Buffer.append, List.foldl_append]

theorem emitSwitch_ok {answer : Option Nat} (run : emitSwitch table ctx b = .ok answer b') :
    ∃ b1 log, Flushes ctx b b1 log ∧
      ((b1.alive = false ∧ b' = b1 ∧ answer = none) ∨
        (b1.alive = true ∧ answer = some b1.code.size ∧
          ∃ state, popValues 1 (begun ctx b1).state = .ok state ∧
            b' = { begun ctx b1 with state }.append
              [if table then Opcode.tableSwitch else Opcode.lookupSwitch])) := by
  obtain ⟨b1, log, flushes, ⟨dead, run⟩ | ⟨alive, run⟩⟩ := begin_ok run
  · obtain ⟨rfl, rfl⟩ := pure_ok.mp run
    exact ⟨b1, log, flushes, .inl ⟨dead, rfl, rfl⟩⟩
  · have size : (begun ctx b1).code.size = b1.code.size := by
      rw [← Buffer.length_bytes, ← Buffer.core_bytes, core_begun, Buffer.core_bytes,
        Buffer.length_bytes]
    simp only [bind_ok, length_ok, modify_ok, changeState_ok, pure_ok] at run
    obtain ⟨_, _, ⟨rfl, rfl⟩, _, _, rfl, _, _, ⟨state, popped, rfl⟩, rfl, rfl⟩ := run
    exact ⟨b1, log, flushes, .inr ⟨alive, by rw [size], state, popped, rfl⟩⟩

theorem emitWords_ok (alive : b.alive = true) (run : operands.forM emitWord ctx b = .ok y b') :
    b' = b.append (Bytes.ofWords operands) := by
  induction operands generalizing b with
  | nil => exact (pure_ok.mp run).2.symm
  | cons word rest ih =>
    obtain ⟨_, _, first, run⟩ := bind_ok.mp run
    have appended := modify_ok.mp first
    rw [if_pos alive] at appended
    rw [← appended] at run
    have goes : (b.append (Bytes.ofWord32 word.toUInt32)).alive = true := alive
    rw [ih goes run, append_append]
    rfl

theorem align_ok {start : Nat} (alive : b.alive = true) (size : b.code.size = start + 1)
    (run : align 4 ctx b = .ok y b') :
    b' = b.append (List.replicate (Bytes.switchBase start - (start + 1)) 0) := by
  have padded := modify_ok.mp run
  simp only [alive, if_true, size] at padded
  rw [← padded]
  congr 2
  unfold Bytes.switchBase
  split <;> omega

variable {answer : Option SwitchPlace}

theorem placeSwitch_ok (run : placeSwitch table operands ctx b = .ok answer b') :
    ∃ b1 log, Flushes ctx b b1 log ∧
      ((b1.alive = false ∧ b' = b1 ∧ answer = none) ∨
        (b1.alive = true ∧
          answer = some ⟨table, b1.code.size, Bytes.switchBase b1.code.size, operands.length⟩ ∧
          ∃ state, popValues 1 (begun ctx b1).state = .ok state ∧
            b' = { begun ctx b1 with state }.append
              (Bytes.ofSwitch table b1.code.size operands))) := by
  unfold placeSwitch at run
  obtain ⟨found, between, emitted, run⟩ := bind_ok.mp run
  obtain ⟨b1, log, flushes, ⟨dead, rfl, rfl⟩ | ⟨alive, rfl, state, popped, rfl⟩⟩ :=
    emitSwitch_ok emitted
  · obtain ⟨rfl, rfl⟩ := pure_ok.mp run
    exact ⟨_, log, flushes, .inl ⟨dead, rfl, rfl⟩⟩
  refine ⟨b1, log, flushes, .inr ⟨alive, ?_⟩⟩
  have core := core_begun ctx b1
  have goes : ({ begun ctx b1 with state } : Buffer).alive = true :=
    (congrArg Buffer.Core.alive core).trans alive
  have size : ({ begun ctx b1 with state } : Buffer).code.size = b1.code.size := by
    rw [← Buffer.length_bytes, ← Buffer.length_bytes]
    exact congrArg (fun core => core.bytes.length) core
  generalize named : ({ begun ctx b1 with state } : Buffer) = c at *
  obtain ⟨_, d, aligned, run⟩ := bind_ok.mp run
  have opened : (c.append [if table then Opcode.tableSwitch else Opcode.lookupSwitch]).code.size =
      b1.code.size + 1 := by
    rw [Buffer.size_append, size]
    rfl
  obtain rfl := align_ok (b := c.append _) goes opened aligned
  simp only [bind_ok, length_ok, pure_ok] at run
  obtain ⟨_, _, ⟨rfl, rfl⟩, _, _, words, rfl, rfl⟩ := run
  obtain rfl := emitWords_ok (b := (c.append _).append _) goes words
  refine ⟨?_, state, popped, ?_⟩
  · have := Bytes.lt_switchBase b1.code.size
    simp only [Buffer.size_append, size, List.length_cons, List.length_nil, List.length_replicate]
    congr 2
    omega
  · rw [named, append_append, append_append]
    rfl

/-- A switch is appended as a whole at the end of live code; in dead code nothing is. -/
theorem placeSwitch_core (run : placeSwitch table operands ctx b = .ok answer b') :
    (b.isAlive = false ∧ b' = b ∧ answer = none) ∨ ∃ c log, Flushes ctx b c log ∧
      answer = some ⟨table, c.code.size, Bytes.switchBase c.code.size, operands.length⟩ ∧
      Grows ctx c b' (Bytes.ofSwitch table c.code.size operands) c.pool true 0 := by
  obtain ⟨c, log, flushes, ⟨dead, rfl, none⟩ | ⟨alive, answered, state, _, rfl⟩⟩ := placeSwitch_ok run
  · obtain ⟨dead, same, _⟩ := flushes.of_dead dead
    exact .inl ⟨dead, same, none⟩
  · refine .inr ⟨c, log, flushes, answered, alive, ?_, rfl, ?_⟩
    · rw [Buffer.core_append, begun_eq]
      simp only [Buffer.core, Buffer.bytes, alive]
      rfl
    · change (begun ctx c).pool = c.pool
      rw [begun_eq]

theorem putWord_ok {value : Int32} (run : putWord pc value ctx b = .ok () b') :
    b'.core = { b.core with bytes := b'.bytes } ∧ b'.code.size = b.code.size ∧
      ∀ i, i < pc ∨ pc + 4 ≤ i → b'.bytes[i]? = b.bytes[i]? := by
  cases modify_ok.mp run
  refine ⟨rfl, Buffer.size_overwrite _ _, fun i away => ?_⟩
  rw [Buffer.bytes_overwrite, if_neg]
  simp only [Bytes.ofWord32, List.length_cons, List.length_nil]
  omega

end Asm

end ClassForge
