import ClassForge.Lowering.Context

namespace ClassForge

section Pools

variable {ε σ α β : Type} {s s' : σ} {f : α → EStateM ε σ β} {x : EStateM ε σ α}

theorem estate_bind_ok {y : β} :
    (x >>= f) s = .ok y s' ↔ ∃ a between, x s = .ok a between ∧ f a between = .ok y s' := by
  change EStateM.bind x f s = _ ↔ _
  unfold EStateM.bind
  cases x s with
  | ok a between =>
    refine ⟨fun rest => ⟨a, between, rfl, rest⟩, ?_⟩
    rintro ⟨_, _, same, rest⟩
    cases same
    exact rest
  | error e between => simp

theorem estate_pure_ok {a y : α} : (pure a : EStateM ε σ α) s = .ok y s' ↔ a = y ∧ s = s' := by
  change EStateM.Result.ok a s = _ ↔ _
  simp

theorem estate_bind_eq {a : α} (ran : x s = .ok a s') : (x >>= f) s = f a s' := by
  change EStateM.bind x f s = _
  unfold EStateM.bind
  rw [ran]

theorem estate_bind_error {e : ε} (failed : x s = .error e s') : (x >>= f) s = .error e s' := by
  change EStateM.bind x f s = _
  unfold EStateM.bind
  rw [failed]

theorem estate_get_bind (f : σ → EStateM ε σ β) : (get >>= f) s = f s s := rfl

def seen? {γ : Type} (look : α → σ → γ) : EStateM.Result ε σ α → Option γ
  | .ok a s => some (look a s)
  | .error .. => none

/-- A run of which something has been seen has succeeded. -/
theorem ok_of_seen? {γ : Type} {look : α → σ → γ} {result : EStateM.Result ε σ α} {y : γ}
    (known : seen? look result = some y) : ∃ a s, result = .ok a s ∧ look a s = y := by
  cases result with
  | ok a s => exact ⟨a, s, rfl, Option.some.inj known⟩
  | error e s => cases known

end Pools

namespace Asm

variable {α β : Type} {ctx : Context} {b b' : Buffer} {y : α}

theorem bind_ok {x : Asm α} {f : α → Asm β} {y : β} :
    (x >>= f) ctx b = .ok y b' ↔
      ∃ a between, x ctx b = .ok a between ∧ f a ctx between = .ok y b' :=
  estate_bind_ok

theorem pure_ok {a : α} : (pure a : Asm α) ctx b = .ok y b' ↔ a = y ∧ b = b' :=
  estate_pure_ok

theorem map_ok {x : Asm α} {f : α → β} {y : β} :
    (f <$> x) ctx b = .ok y b' ↔ ∃ a, x ctx b = .ok a b' ∧ f a = y := by
  change EStateM.map f (x ctx) b = _ ↔ _
  unfold EStateM.map
  cases x ctx b with
  | ok a between => simp; grind
  | error e between => simp

theorem get_ok {y : Buffer} : (get : Asm Buffer) ctx b = .ok y b' ↔ b = y ∧ b = b' := by
  change EStateM.Result.ok b b = _ ↔ _
  simp

theorem read_ok {y : Context} : (read : Asm Context) ctx b = .ok y b' ↔ ctx = y ∧ b = b' := by
  change EStateM.Result.ok ctx b = _ ↔ _
  simp

theorem modify_ok {f : Buffer → Buffer} {y : PUnit} :
    (modify f : Asm PUnit) ctx b = .ok y b' ↔ f b = b' := by
  change EStateM.Result.ok PUnit.unit (f b) = _ ↔ _
  simp

theorem modifyGet_ok {f : Buffer → α × Buffer} :
    (modifyGet f : Asm α) ctx b = .ok y b' ↔ f b = (y, b') := by
  change EStateM.Result.ok (f b).1 (f b).2 = _ ↔ _
  simp [Prod.ext_iff]

theorem throw_ok {e : Error} : (throw e : Asm α) ctx b = .ok y b' ↔ False := by
  change EStateM.Result.error e b = _ ↔ _
  simp

theorem fault_ok {pc : Nat} {cause : Fault} : (fault pc cause : Asm α) ctx b = .ok y b' ↔ False :=
  throw_ok

theorem ite_ok {c : Prop} [Decidable c] {x x' : Asm α} :
    (if c then x else x') ctx b = .ok y b' ↔
      (c ∧ x ctx b = .ok y b') ∨ (¬c ∧ x' ctx b = .ok y b') := by
  by_cases holds : c <;> simp [holds]

theorem length_ok {y : Nat} : length ctx b = .ok y b' ↔ b.code.size = y ∧ b = b' := by
  change EStateM.Result.ok b.code.size b = _ ↔ _
  simp

theorem isAlive_ok {y : Bool} : isAlive ctx b = .ok y b' ↔ b.isAlive = y ∧ b = b' := by
  change EStateM.Result.ok b.isAlive b = _ ↔ _
  simp

theorem pool_ok {action : PoolM α} :
    pool action ctx b = .ok y b' ↔ ∃ p, action b.pool = .ok y p ∧ { b with pool := p } = b' := by
  unfold pool
  cases action b.pool with
  | ok a p =>
    constructor
    · intro same
      cases same
      exact ⟨p, rfl, rfl⟩
    · rintro ⟨_, same, rfl⟩
      cases same
      rfl
  | error e p => simp

theorem changeState_ok {pc : Nat} {change : State → Except Fault State} {y : Unit} :
    changeState pc change ctx b = .ok y b' ↔
      ∃ state, change b.state = .ok state ∧ { b with state } = b' := by
  unfold changeState
  cases change b.state with
  | ok state => simp
  | error cause => simp

end Asm

end ClassForge
