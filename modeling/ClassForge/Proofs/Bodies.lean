import ClassForge.Proofs.Following
import ClassForge.Proofs.Methods

namespace ClassForge

theorem Asm.checkLimits_error {ctx : Context} {b b' : Buffer} {e : Error}
    (failed : checkLimits ctx b = .error e b') : e.IsPlain := by
  rcases bind_error.mp failed with early | ⟨buffer, _, looked, failed⟩
  · cases early
  dsimp only at failed
  split at failed
  · cases failed
    trivial
  · split at failed
    · cases failed
      trivial
    · split at failed
      · cases failed
        trivial
      · cases failed

namespace Lowering

variable {D : Discipline} [D.Lawful] {ctx : Context} {b b' : Buffer} {marks : Landmarks}
  {S : List ScopeRecord → Prop}

omit [D.Lawful] in
theorem spendsAt_forM {α : Type} {f : α → Lowering Unit}
    (each : ∀ a b, SpendsAt D ctx b marks S S 0 (f a)) :
    ∀ (items : List α) (b : Buffer), SpendsAt D ctx b marks S S 0 (items.forM f)
  | [], _ => obeysAt_pure rfl
  | item :: rest, b => SpendsAt.next (each item b) fun _ b1 _ => spendsAt_forM each rest b1

theorem spendsAt_genParameters (method : MethodDecl) :
    SpendsAt D ctx b marks S S 0 (genParameters method) := by
  have defined (register : UInt16) (b : Buffer) :
      SpendsAt D ctx b marks S S 0 (liftM (Asm.setDefined register) : Lowering Unit) :=
    (lift_spends (Asm.spends_setDefined register)).at
  have params (b : Buffer) : SpendsAt D ctx b marks S S 0 (method.params.forM fun param => do
      let register ← declare param
      Asm.setDefined register : Lowering Unit) := by
    refine spendsAt_forM (fun param b => ?_) _ b
    refine (obeysAt_declare param).then fun register b1 given _ known => ?_
    rw [known.1]
    exact defined register b1
  unfold genParameters
  dsimp only
  split
  · refine SpendsAt.next spends_readThe.at fun _ b1 _ => ?_
    refine ObeysAt.then (lift_obeys (Asm.obeys_newLocal _ _)).at fun register b2 given _ known => ?_
    rw [known.1]
    exact SpendsAt.next (defined register b2) fun _ b3 _ => params b3
  · exact params b

theorem spendsAt_checkLimits :
    SpendsAt D ctx b marks S S 0 (liftM Asm.checkLimits : Lowering Unit) := by
  refine lift_at ⟨fun b' y run rest holds => ?_, fun e b' failed rest holds => ?_⟩
  · obtain ⟨_, rfl⟩ := Asm.checkLimits_ok.mp run
    exact ⟨0, rfl, holds⟩
  · exact Discipline.Lawful.plain (Asm.checkLimits_error failed)

theorem spendsAt_genEnd (method : MethodDecl) : SpendsAt D ctx b marks S S 0 (genEnd method) := by
  refine ObeysAt.after_look (fun _ _ _ => rfl) ?_
  split
  · refine SpendsAt.next (spends_beginStatement _).at fun _ _ _ => ?_
    refine SpendsAt.next spends_read.at fun mc _ _ => ?_
    split
    · exact (lift_spends (Asm.spends_emit .returnVoid trivial)).at
    · refine ObeysAt.afterCall (k := 0) .entryPoint trivial trivial (fun start _ given _ gave => ?_)
        (add_zero _)
      obtain ⟨rfl, latest⟩ := gave
      rw [add_zero]
      refine ObeysAt.then (obeys_branch .goto).at fun jump b3 given _ known => ?_
      obtain ⟨rfl, fits⟩ := known
      exact spendsAt_resolveTo fits latest
  · exact obeysAt_pure rfl

theorem follows_genBody (body : Stmt) (proper : D.exact → body.Proper) :
    Follows D [] (genBody body) := by
  obtain ⟨line, kind⟩ := body
  unfold genBody
  dsimp only [Stmt.kind]
  have outermost : Scope.AllRegular D [] := trivial
  cases kind with
  | block stmts => exact follows_genStmts outermost false stmts proper
  | _ => exact follows_genStmt outermost false _ proper

/-- Lowering a method uses up all of its jumps and keeps any discipline. -/
theorem spendsAt_genMethod (method : MethodDecl) (body : Stmt) (proper : D.exact → body.Proper) :
    SpendsAt D ctx b marks (Orderly D [] []) (Orderly D [] []) 0 (genMethod method body) := by
  refine SpendsAt.next (spendsAt_genParameters method) fun _ _ _ => ?_
  refine SpendsAt.next (spends_note .beginBody fun _ _ => trivial).at fun _ b1 _ => ?_
  refine SpendsAt.next (follows_genBody body proper ctx b1 marks [] (by simp [Landmarks.Cover]))
    fun _ _ _ => SpendsAt.next (spendsAt_genEnd method) fun _ _ _ => ?_
  exact SpendsAt.next (lift_spends (Asm.spends_endScopes 0)).at fun _ _ _ => spendsAt_checkLimits

end Lowering

end ClassForge
