import Stencil.Proofs.Correspondence.Copy
import Stencil.Templater.Field

/-! Actions on worlds whose stores correspond. -/
namespace Stencil.Correspondence

variable {σ : Correspondence} {κ : Known} {α β δ : Type} {P : Known → α → α → Prop}

section lifting

variable {x y : Eval α}

theorem sim_act (h : σ.Sim κ x y P) : σ.Sim κ (Action.evaluate x) (Action.evaluate y) P := by
  intro v w hagree
  rw [Action.evaluate_eq, Action.evaluate_eq]
  rcases (h v.store w.store hagree).ok_or_error with ⟨a, s, b, t, hx, hy, hend⟩ | ⟨e, s, t, hx, hy, hagree'⟩ <;>
    rw [hx, hy]
  · exact hend
  · exact ⟨rfl, hagree'⟩

end lifting

/-- Attempts that end alike. -/
def Attempted (P : Known → α → α → Prop) (κ : Known) : Except Failure α → Except Failure α → Prop
  | .ok a, .ok b => P κ a b
  | .error e, .error f => e = f
  | _, _ => False

/-- Either both attempts gave something, or both gave one failure. -/
theorem Attempted.ok_or_error {r r' : Except Failure α} (h : Attempted P κ r r') :
    (∃ a b, r = .ok a ∧ r' = .ok b ∧ P κ a b) ∨ ∃ e, r = .error e ∧ r' = .error e := by
  cases r with
  | ok a =>
    cases r' with
    | ok b => exact .inl ⟨a, b, rfl, rfl, h⟩
    | error f => exact h.elim
  | error e =>
    cases r' with
    | ok b => exact h.elim
    | error f =>
      cases h
      exact .inr ⟨e, rfl, rfl⟩

theorem sim_attempt {x y : Action α} (h : σ.Sim κ x y P) :
    σ.Sim κ (Action.attempt x) (Action.attempt y) (Attempted P) := by
  intro v w hagree
  rw [Action.attempt_eq, Action.attempt_eq]
  rcases (h v w hagree).ok_or_error with ⟨a, v', b, w', hx, hy, hend⟩ | ⟨e, v', w', hx, hy, μ, hμ, hagree'⟩ <;>
    rw [hx, hy]
  · exact hend
  · exact ⟨μ, hμ, hagree', rfl⟩

theorem sim_note (level : Level) (label message message' : String) :
    σ.Sim κ (Action.note level label message) (Action.note level label message') fun _ _ _ => True :=
  .modify fun _ _ hagree => ⟨κ, le_refl κ, hagree, trivial⟩

theorem sim_allocated {f g : Store → α × Store} (h : ∀ s t, σ.Agree κ s t →
    ∃ μ ≥ κ, σ.Agree μ (f s).2 (g t).2 ∧ P μ (f s).1 (g t).1) :
    σ.Sim κ (Action.alloc f) (Action.alloc g) P :=
  .modifyGet fun v w hagree => h v.store w.store hagree

/-- Data is built alike. -/
theorem build_alike {s t : Store} (h : σ.Agree κ s t) : (d : Datum) →
    σ.Agree κ (d.build s).2 (d.build t).2 ∧ σ.Alike (d.build s).1 (d.build t).1
  | .none => ⟨h, .none⟩
  | .bool b => ⟨h, .bool b⟩
  | .number x => ⟨h, .number x⟩
  | .text u => ⟨h, .text u⟩
  | .list items => by
    obtain ⟨h, hxs⟩ := ofList h items
    exact h.newList hxs
  | .mapping entries => by
    obtain ⟨h, hps⟩ := ofEntries h entries
    exact h.newMapping (forall₂_ofList hps)
where
  ofList {s t : Store} (h : σ.Agree κ s t) : (items : List Datum) →
      σ.Agree κ (Datum.build.buildList s items).2 (Datum.build.buildList t items).2 ∧
        List.Forall₂ σ.Alike (Datum.build.buildList s items).1 (Datum.build.buildList t items).1
    | [] => ⟨h, .nil⟩
    | d :: rest => by
      obtain ⟨h, hxy⟩ := build_alike h d
      obtain ⟨h, hxs⟩ := ofList h rest
      exact ⟨h, .cons hxy hxs⟩
  ofEntries {s t : Store} (h : σ.Agree κ s t) : (entries : List (Text × Datum)) →
      σ.Agree κ (Datum.build.buildEntries s entries).2 (Datum.build.buildEntries t entries).2 ∧
        List.Forall₂ (PropertyAlike σ.rel σ.good) (Datum.build.buildEntries s entries).1
          (Datum.build.buildEntries t entries).1
    | [] => ⟨h, .nil⟩
    | (key, d) :: rest => by
      obtain ⟨h, hxy⟩ := build_alike h d
      obtain ⟨h, hps⟩ := ofEntries h rest
      exact ⟨h, .cons ⟨rfl, .data hxy⟩ hps⟩

theorem sim_build (d : Datum) : σ.Sim κ (Action.alloc d.build) (Action.alloc d.build) fun _ => σ.Alike :=
  sim_allocated fun _ _ hagree => ⟨κ, le_refl κ, build_alike hagree d⟩

end Stencil.Correspondence
