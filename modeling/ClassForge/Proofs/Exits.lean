import ClassForge.Proofs.Switching

namespace ClassForge

variable {opcode : UInt8} {count : Nat}

namespace Opcode

def isSwitch (opcode : UInt8) : Bool := opcode == tableSwitch || opcode == lookupSwitch

theorem isExit_eq_false_of_isJump (jump : isJump opcode = true) (short : jumpLength opcode = 3)
    (noGoto : opcode ≠ goto) : isExit opcode = false := by
  have long : opcode ≠ gotoWide := by
    rintro rfl
    cases short
  simp only [isJump, Bool.or_eq_true, Bool.and_eq_true, decide_eq_true_eq, UInt8.le_iff_toNat_le,
    UInt8.reduceToNat] at jump
  have differ : opcode ≠ 0xBF := by
    rintro rfl
    simp at jump
  have outside : ¬(0xAC ≤ opcode ∧ opcode ≤ 0xB1) := by
    simp only [UInt8.le_iff_toNat_le, UInt8.reduceToNat]
    omega
  simp [isExit, noGoto, long, differ, outside]

end Opcode

def Bytes.Continues (bytes : Bytes) : Prop := ∀ opcode ∈ bytes.head?, Opcode.isExit opcode = false

namespace Instruction

open Bytes (Continues)

theorem continues_cons {rest : Bytes} (goes : Opcode.isExit opcode = false) :
    Continues (opcode :: rest) := by
  rintro _ ⟨⟩
  exact goes

theorem continues_encode {instruction : Instruction} {bytes : Bytes} {pool pool' : Pool}
    (goes : instruction.isTerminal = false) (run : instruction.encode pool = .ok bytes pool') :
    Continues bytes := by
  intro opcode member
  have allowed := (ordinary_encode run).ordinary opcode member
  rw [goes, Opcode.isOrdinary] at allowed
  grind

end Instruction

/-- The instruction at `p` ends at `q`, and it does not go on to `q`. -/
structure Stops (code : Bytes) (p q : Nat) : Prop where
  boundary : Boundary code 0 p
  exits : ∃ opcode, code[p]? = some opcode ∧ Opcode.isExit opcode = true
  ends : ∃ length, code.instructionLength? p = some length ∧ p + length = q

namespace Stops

variable {code other bytes : Bytes} {p q : Nat}

section

variable (stops : Stops code p q)

include stops

theorem lt_length : p < code.length := by
  obtain ⟨opcode, found, _⟩ := stops.exits
  exact (List.getElem?_eq_some_iff.mp found).1

theorem lt : p < q := by
  obtain ⟨length, known, rfl⟩ := stops.ends
  have := Bytes.instructionLength?_pos known
  omega

theorem le_of_boundary {pc : Nat} (later : Boundary code 0 pc) (before : p < pc) : q ≤ pc := by
  obtain ⟨length, known, rfl⟩ := stops.ends
  obtain ⟨_, found, fits⟩ := stops.boundary.instruction_le later before
  rw [known] at found
  cases found
  exact fits

theorem congr (bound : q ≤ other.length) (same : ∀ i < q, other[i]? = code[i]?) :
    Stops other p q := by
  have before := stops.lt
  refine ⟨stops.boundary.congr (by omega) fun i _ upper => same i (by omega), ?_, ?_⟩
  · rw [same p before]
    exact stops.exits
  · obtain ⟨length, known, rfl⟩ := stops.ends
    exact ⟨length, Bytes.instructionLength?_congr known fun i _ upper => same i upper, rfl⟩

end

theorem layout (stops : Stops other p q) (same : SameLayout 0 code other)
    (tiled : Boundary code 0 code.length) : Stops code p q := by
  have tiled' := same.boundary _ tiled
  rw [← same.size] at tiled'
  refine ⟨same.back p stops.boundary, ?_, ?_⟩
  · rw [same.symm.opcode p stops.boundary]
    exact stops.exits
  · obtain ⟨length, known, rfl⟩ := stops.ends
    exact ⟨length, same.symm.instructionLength? tiled' stops.boundary known stops.lt_length, rfl⟩

theorem of_take (stops : Stops (code.take count) p q)
    (tiled : Boundary (code.take count) 0 (code.take count).length) : Stops code p q := by
  have bound := stops.le_of_boundary tiled stops.lt_length
  rw [List.length_take] at bound
  exact stops.congr (by omega) fun i before => (List.getElem?_take_of_lt (by omega)).symm

theorem append_cases (stops : Stops (code ++ bytes) p q) (tiled : Boundary code 0 code.length)
    (complete : (code ++ bytes).instructionLength? code.length = some bytes.length) :
    Stops code p q ∨ ¬bytes.Continues ∧ q = (code ++ bytes).length := by
  obtain ⟨opcode, found, exits⟩ := stops.exits
  rcases tiled.append_cases complete stops.boundary found with ⟨before, _⟩ | ⟨rfl, head⟩
  · left
    have bound := stops.le_of_boundary (tiled.append bytes) before
    exact stops.congr bound fun i less => (List.getElem?_append_left (by omega)).symm
  · right
    obtain ⟨length, known, rfl⟩ := stops.ends
    rw [complete] at known
    cases known
    refine ⟨fun goes => ?_, List.length_append.symm⟩
    rw [goes opcode head] at exits
    cases exits

/-- A jump stops if it is unconditional. The end of a wide conditional jump is also where the jump
over it leads. -/
theorem jump_cases {wide : Bool} {back : Nat} (valid : IsShortJump opcode)
    (chosen : Asm.jumpBytes wide opcode = some (bytes, back)) (tiled : Boundary code 0 code.length)
    (stops : Stops (code ++ bytes) p q) :
    Stops code p q ∨ q = (code ++ bytes).length ∧ (opcode = Opcode.goto ∨ bytes.length ≠ back) := by
  rcases Asm.jumpBytes_cases chosen with ⟨rfl, rfl, rfl⟩ | ⟨rfl, rfl, form⟩ |
    ⟨rfl, rfl, _, _, negated, known, rfl⟩
  · have complete : (code ++ [opcode, 0, 0]).instructionLength? code.length = some 3 :=
      Bytes.instructionLength?_of_jump code valid.isJump valid.short.symm
    refine (stops.append_cases tiled complete).imp_right fun ⟨ends, last⟩ => ⟨last, .inl ?_⟩
    by_contra noGoto
    exact ends (Instruction.continues_cons
      (Opcode.isExit_eq_false_of_isJump valid.isJump valid.short noGoto))
  · rcases form with ⟨rfl, rfl⟩ | ⟨rfl, rfl⟩
    · exact (stops.append_cases tiled (Bytes.instructionLength?_of_jump code rfl rfl)).imp_right
        fun ⟨_, last⟩ => ⟨last, .inl rfl⟩
    · exact (stops.append_cases tiled (Bytes.instructionLength?_of_jump code rfl rfl)).imp_right
        fun ⟨ends, _⟩ => absurd (Instruction.continues_cons rfl) ends
  · obtain ⟨isJump, short, noGoto⟩ := valid.opposite negated known
    have complete : (code ++ [negated, 0, 8]).instructionLength? code.length = some 3 :=
      Bytes.instructionLength?_of_jump code isJump short.symm
    rw [show code ++ [negated, 0, 8, Opcode.gotoWide, 0, 0, 0, 0] =
      (code ++ [negated, 0, 8]) ++ Opcode.gotoWide :: [0, 0, 0, 0] by simp] at stops ⊢
    rcases stops.append_cases (tiled.append_instruction complete)
      (Bytes.instructionLength?_of_jump _ rfl rfl) with inner | ⟨_, last⟩
    · refine .inl ((inner.append_cases tiled complete).resolve_right fun ⟨ends, _⟩ => ends ?_)
      exact Instruction.continues_cons (Opcode.isExit_eq_false_of_isJump isJump short noGoto)
    · exact .inr ⟨last, .inr (by simp)⟩

end Stops

end ClassForge
