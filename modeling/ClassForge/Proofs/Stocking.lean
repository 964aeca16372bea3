import ClassForge.Lowering.Class
import ClassForge.Proofs.ClassFileCoding
import ClassForge.Proofs.PoolHistory

namespace ClassForge

theorem short_of_toList {text : String} (short : text.toList.foldl
    (fun total c => total + ModifiedUtf8.charLength c) 0 ≤ maxTextLength) :
    ModifiedUtf8.length text ≤ maxTextLength := by
  unfold ModifiedUtf8.length
  rwa [String.foldl_eq_foldl_toList]

namespace Pool

variable {α : Type} {pool later : Pool} {constant : Constant}

theorem Interns.extends {action : PoolM α} {known : α → Pool → Prop} {a : α}
    (interns : Interns False pool action known) (run : action pool = .ok a later) :
    pool.Extends later ∧ known a later :=
  ⟨(interns.ok run).1.extends, (interns.ok run).2⟩

def Puts (pool later : Pool) : Prop := ∃ value index, put value pool = .ok index later

abbrev Stocked : Pool → Pool → Prop := Relation.ReflTransGen Puts

theorem Stocked.grows (stocked : pool.Stocked later) : Grows False pool later := by
  induction stocked with
  | refl => exact .refl
  | tail _ puts ih =>
    obtain ⟨value, index, run⟩ := puts
    exact ih.trans ((interns_put value).ok run).1

def Short (pool : Pool) : Prop :=
  ∀ constant index, pool.indexOf? constant = some index → constant.Fits

theorem short_empty : Short empty := by
  intro constant index known
  rw [indexOf?_empty] at known
  cases known

theorem Short.push (short : Short pool) (fits : constant.Fits) : Short (pool.push constant) := by
  intro other index known
  rw [indexOf?_push] at known
  split at known
  · next same => exact same ▸ fits
  · exact short other index known

theorem Short.grows (short : Short pool) (grows : Grows False pool later) : Short later := by
  induction grows with
  | refl => exact short
  | tail _ adds ih =>
    cases adds with
    | note => exact ih.push (show (Constant.classRef _).Fits from trivial)
    | @push constant _ _ ordinary =>
      refine ih.push ?_
      cases constant with
      | utf8 text =>
        change (ModifiedUtf8.encode text).length ≤ 65535
        rw [ModifiedUtf8.length_encode]
        exact ordinary
      | _ => trivial

theorem Stocked.fits (stocked : empty.Stocked pool) : pool.constants.Fits := by
  have sound := sound_empty.grows stocked.grows
  have short := short_empty.grows stocked.grows
  refine ⟨sound.packed, sound.start, fun constant member => ?_⟩
  obtain ⟨entry, listed, rfl⟩ := List.mem_map.mp member
  have below := sound.neat.below entry listed
  have room := sound.room
  have limit : maxPoolOffset = 65535 := rfl
  refine short entry.2 (UInt16.ofNat entry.1) ?_
  rw [sound.indexed, UInt16.toNat_ofNat_of_lt' (by change _ < 65536; omega)]
  exact sound.neat.get?_eq_some.mpr listed

end Pool

/-- Encoding an instruction only adds constants that fit in a class file. -/
theorem Instruction.stocked_encode {instruction : Instruction} {pool later : Pool} {bytes : Bytes}
    (run : instruction.encode pool = .ok bytes later) : pool.Stocked later := by
  have indexed {opcode : UInt8} (value : PoolValue) {later : Pool} {bytes : Bytes}
      (run : withIndex opcode (Pool.put value) pool = .ok bytes later) : pool.Stocked later := by
    obtain ⟨index, _, put, ran⟩ := estate_bind_ok.mp run
    cases (estate_pure_ok.mp ran).2
    exact .single ⟨value, index, put⟩
  cases instruction with
  | pushConstant constant =>
    obtain ⟨index, _, put, ran⟩ := estate_bind_ok.mp run
    cases (estate_pure_ok.mp ran).2
    exact .single ⟨_, index, put⟩
  | getStatic field | putStatic field | getField field
  | putField field => exact indexed (.field field) run
  | invoke mode method =>
    obtain ⟨_, _, ran, run⟩ := estate_bind_ok.mp run
    have stocked := indexed (.method method) ran
    split at run <;> (cases (estate_pure_ok.mp run).2; exact stocked)
  | allocate name => exact indexed (.classRef (.object name)) run
  | newRefArray element => exact indexed (.classRef element) run
  | newMultiArray array dimensions =>
    obtain ⟨_, _, ran, run⟩ := estate_bind_ok.mp run
    cases (estate_pure_ok.mp run).2
    exact indexed (.classRef array) ran
  | checkCast type | instanceOf type => exact indexed (.classRef type) run
  | _ =>
    cases (estate_pure_ok.mp run).2
    exact .refl

namespace Build

variable {α β : Type} {f : α → Build β}

theorem pool_ok {action : PoolM α} {start later : Pool} {a : α} :
    pool action start = .ok a later ↔ action start = .ok a later := by
  unfold pool
  cases action start <;> simp

def Stocks (action : Build α) : Prop :=
  ∀ ⦃pool a later⦄, action pool = .ok a later → pool.Stocked later

theorem stocks_pure (a : α) : Stocks (pure a) := by
  intro pool b later run
  cases (estate_pure_ok.mp run).2
  exact .refl

theorem stocks_throw (e : Error) : Stocks (throw e : Build α) := fun _ _ _ run => nomatch run

theorem Stocks.bind {x : Build α} (first : Stocks x) (second : ∀ a, Stocks (f a)) :
    Stocks (x >>= f) := by
  intro pool b last run
  obtain ⟨a, later, ran, run⟩ := estate_bind_ok.mp run
  exact (first ran).trans (second a run)

theorem Stocks.mapM (each : ∀ a, Stocks (f a)) : ∀ items : List α, Stocks (items.mapM f)
  | [] => stocks_pure []
  | item :: items => by
    rw [List.mapM_cons]
    exact (each item).bind fun b => (Stocks.mapM each items).bind fun rest => stocks_pure (b :: rest)

theorem stocks_put (value : PoolValue) : Stocks (pool (Pool.put value)) :=
  fun _ index _ run => .single ⟨value, index, pool_ok.mp run⟩

theorem stocks_utf8 (text : String) : Stocks (pool (Pool.utf8 text)) := stocks_put (.utf8 text)

theorem stocks_classRef (type : RefType) : Stocks (pool (Pool.classRef type)) :=
  stocks_put (.classRef type)

theorem stocks_attributeOf (payload : Payload) : Stocks (attributeOf payload) := by
  refine (stocks_utf8 _).bind fun name => ?_
  split
  · exact stocks_pure _
  · exact stocks_throw _

end Build

end ClassForge
