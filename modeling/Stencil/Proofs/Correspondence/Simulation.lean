import Stencil.Proofs.Correspondence.Basic
import Stencil.Proofs.Running

/-! Computations that keep two stores in correspondence and give corresponding results. -/
namespace Stencil

/-- States that hold a store. -/
class Stored (W : Type) where
  store : W → Store

instance : Stored Store := ⟨id⟩

instance : Stored World := ⟨World.store⟩

namespace Correspondence

variable {σ : Correspondence} {κ : Known} {ε W α β γ : Type} [Stored W]

/-- How two computations end alike: both with related results, or both with one failure. -/
def Ends (σ : Correspondence) (κ : Known) (Q : Known → α → α → Prop) :
    EStateM.Result ε W α → EStateM.Result ε W α → Prop
  | .ok a v, .ok b w => ∃ μ ≥ κ, σ.Agree μ (Stored.store v) (Stored.store w) ∧ Q μ a b
  | .error e v, .error f w => e = f ∧ ∃ μ ≥ κ, σ.Agree μ (Stored.store v) (Stored.store w)
  | _, _ => False

/-- Started on stores that correspond, two computations end alike. -/
def Sim (σ : Correspondence) (κ : Known) (x y : EStateM ε W α) (Q : Known → α → α → Prop) : Prop :=
  ∀ v w, σ.Agree κ (Stored.store v) (Stored.store w) → Ends σ κ Q (x v) (y w)

variable {x y : EStateM ε W α} {P Q : Known → α → α → Prop}

/-- Either both give something, or both fail. -/
theorem Ends.ok_or_error {r r' : EStateM.Result ε W α} (h : Ends σ κ Q r r') :
    (∃ a v b w, r = .ok a v ∧ r' = .ok b w ∧ ∃ μ ≥ κ, σ.Agree μ (Stored.store v) (Stored.store w) ∧ Q μ a b) ∨
      ∃ e v w, r = .error e v ∧ r' = .error e w ∧ ∃ μ ≥ κ, σ.Agree μ (Stored.store v) (Stored.store w) := by
  cases r with
  | ok a v =>
    cases r' with
    | ok b w => exact .inl ⟨a, v, b, w, rfl, rfl, h⟩
    | error f w => exact h.elim
  | error e v =>
    cases r' with
    | ok b w => exact h.elim
    | error f w =>
      obtain ⟨rfl, h⟩ := h
      exact .inr ⟨e, v, w, rfl, rfl, h⟩

theorem Ends.mono {r r' : EStateM.Result ε W α} {μ : Known} (h : Ends σ μ P r r') (hκ : κ ≤ μ)
    (hPQ : ∀ ν ≥ μ, ∀ a b, P ν a b → Q ν a b) : Ends σ κ Q r r' := by
  rcases h.ok_or_error with ⟨a, v, b, w, rfl, rfl, ν, hν, hagree, hP⟩ | ⟨e, v, w, rfl, rfl, ν, hν, hagree⟩
  · exact ⟨ν, hκ.trans hν, hagree, hPQ ν hν a b hP⟩
  · exact ⟨rfl, ν, hκ.trans hν, hagree⟩

namespace Sim

theorem pure {a b : α} (h : Q κ a b) : σ.Sim κ (pure a : EStateM ε W α) (pure b) Q :=
  fun _ _ hagree => ⟨κ, le_refl κ, hagree, h⟩

theorem throw {e : ε} : σ.Sim κ (throw e : EStateM ε W α) (throw e) Q :=
  fun _ _ hagree => ⟨rfl, κ, le_refl κ, hagree⟩

theorem mono (h : σ.Sim κ x y P) (hPQ : ∀ μ ≥ κ, ∀ a b, P μ a b → Q μ a b) : σ.Sim κ x y Q :=
  fun v w hagree => (h v w hagree).mono (le_refl κ) hPQ

theorem bind {f g : α → EStateM ε W β} {R : Known → β → β → Prop} (h : σ.Sim κ x y P)
    (hfg : ∀ μ ≥ κ, ∀ a b, P μ a b → σ.Sim μ (f a) (g b) R) : σ.Sim κ (x >>= f) (y >>= g) R := by
  intro v w hagree
  rcases (h v w hagree).ok_or_error with ⟨a, v', b, w', hx, hy, μ, hμ, hagree', hP⟩ | ⟨e, v', w', hx, hy, hagree'⟩
  · rw [bind_ok hx, bind_ok hy]
    exact (hfg μ hμ a b hP v' w' hagree').mono hμ fun _ _ _ _ hR => hR
  · rw [bind_error hx, bind_error hy]
    exact ⟨rfl, hagree'⟩

theorem bind_same {f g : α → EStateM ε W β} {R : Known → β → β → Prop} (h : σ.Sim κ x y fun _ a b => a = b)
    (hfg : ∀ μ ≥ κ, ∀ a, σ.Sim μ (f a) (g a) R) : σ.Sim κ (x >>= f) (y >>= g) R :=
  h.bind fun μ hμ a b hab => by
    cases hab
    exact hfg μ hμ a

/-- A computation that looks at the state first. -/
theorem get_bind {f g : W → EStateM ε W β} {R : Known → β → β → Prop}
    (h : ∀ v w, σ.Agree κ (Stored.store v) (Stored.store w) → σ.Sim κ (f v) (g w) R) :
    σ.Sim κ (get >>= f) (get >>= g) R :=
  fun v w hagree => h v w hagree v w hagree

theorem modifyGet {f g : W → α × W}
    (h : ∀ v w, σ.Agree κ (Stored.store v) (Stored.store w) →
      ∃ μ ≥ κ, σ.Agree μ (Stored.store (f v).2) (Stored.store (g w).2) ∧ Q μ (f v).1 (g w).1) :
    σ.Sim κ (modifyGet f : EStateM ε W α) (modifyGet g) Q :=
  fun v w hagree => h v w hagree

theorem modify {f g : W → W} {Q : Known → PUnit → PUnit → Prop}
    (h : ∀ v w, σ.Agree κ (Stored.store v) (Stored.store w) →
      ∃ μ ≥ κ, σ.Agree μ (Stored.store (f v)) (Stored.store (g w)) ∧ Q μ ⟨⟩ ⟨⟩) :
    σ.Sim κ (modify f : EStateM ε W PUnit) (modify g) Q :=
  fun v w hagree => h v w hagree

variable {R : α → β → Prop}

theorem mapM {l : List α} {l' : List β} {f : α → EStateM ε W γ} {g : β → EStateM ε W γ} {P : γ → γ → Prop}
    (hl : List.Forall₂ R l l') (hfg : ∀ μ ≥ κ, ∀ a b, R a b → σ.Sim μ (f a) (g b) fun _ => P) :
    σ.Sim κ (l.mapM f) (l'.mapM g) fun _ => List.Forall₂ P := by
  induction hl generalizing κ with
  | nil => exact .pure .nil
  | cons hab _ ih =>
    rw [List.mapM_cons, List.mapM_cons]
    refine (hfg κ (le_refl κ) _ _ hab).bind fun μ hμ c d hcd => ?_
    refine (ih fun ν hν => hfg ν (hμ.trans hν)).bind fun ν _ cs ds hcds => ?_
    exact .pure (.cons hcd hcds)

/-- A loop over one list. -/
theorem mapM_same {l : List α} {f g : α → EStateM ε W γ} {P : γ → γ → Prop}
    (hfg : ∀ μ ≥ κ, ∀ a ∈ l, σ.Sim μ (f a) (g a) fun _ => P) :
    σ.Sim κ (l.mapM f) (l.mapM g) fun _ => List.Forall₂ P := by
  refine mapM (R := fun a b => a = b ∧ a ∈ l) (List.forall₂_same.mpr fun a ha => ⟨rfl, ha⟩) ?_
  rintro μ hμ a b ⟨rfl, ha⟩
  exact hfg μ hμ a ha

theorem foldlM {l : List α} {l' : List β} {f : γ → α → EStateM ε W γ} {g : γ → β → EStateM ε W γ}
    {P : γ → γ → Prop} {c d : γ} (hl : List.Forall₂ R l l') (hcd : P c d)
    (hfg : ∀ μ ≥ κ, ∀ c d a b, P c d → R a b → σ.Sim μ (f c a) (g d b) fun _ => P) :
    σ.Sim κ (l.foldlM f c) (l'.foldlM g d) fun _ => P := by
  induction hl generalizing κ c d with
  | nil => exact .pure hcd
  | cons hab _ ih =>
    rw [List.foldlM_cons, List.foldlM_cons]
    refine (hfg κ (le_refl κ) c d _ _ hcd hab).bind fun μ hμ c d hcd => ?_
    exact ih hcd fun ν hν => hfg ν (hμ.trans hν)

theorem foldlM_same {l : List α} {f g : γ → α → EStateM ε W γ} {P : γ → γ → Prop} {c d : γ} (hcd : P c d)
    (hfg : ∀ μ ≥ κ, ∀ c d, P c d → ∀ a ∈ l, σ.Sim μ (f c a) (g d a) fun _ => P) :
    σ.Sim κ (l.foldlM f c) (l.foldlM g d) fun _ => P := by
  refine foldlM (R := fun a b => a = b ∧ a ∈ l) (List.forall₂_same.mpr fun a ha => ⟨rfl, ha⟩) hcd ?_
  rintro μ hμ c d a b hcd ⟨rfl, ha⟩
  exact hfg μ hμ c d hcd a ha

theorem anyM {l : List α} {l' : List β} {f : α → EStateM ε W Bool} {g : β → EStateM ε W Bool}
    (hl : List.Forall₂ R l l') (hfg : ∀ μ ≥ κ, ∀ a b, R a b → σ.Sim μ (f a) (g b) fun _ c d => c = d) :
    σ.Sim κ (l.anyM f) (l'.anyM g) fun _ c d => c = d := by
  induction hl generalizing κ with
  | nil => exact .pure rfl
  | cons hab _ ih =>
    rw [List.anyM, List.anyM]
    refine (hfg κ (le_refl κ) _ _ hab).bind_same fun μ hμ c => ?_
    cases c with
    | true => exact .pure rfl
    | false => exact ih fun ν hν => hfg ν (hμ.trans hν)

theorem filterM {l l' : List α} {f g : α → EStateM ε W Bool} {P : α → α → Prop} (hl : List.Forall₂ P l l')
    (hfg : ∀ μ ≥ κ, ∀ a b, P a b → σ.Sim μ (f a) (g b) fun _ c d => c = d) :
    σ.Sim κ (l.filterM f) (l'.filterM g) fun _ => List.Forall₂ P := by
  have haux : ∀ {μ : Known} {done done' : List α}, κ ≤ μ → List.Forall₂ P done done' →
      σ.Sim μ (l.filterAuxM f done) (l'.filterAuxM g done') fun _ => List.Forall₂ P := by
    induction hl with
    | nil => exact fun _ hdone => .pure hdone
    | cons hab _ ih =>
      intro μ done done' hμ hdone
      refine (hfg μ hμ _ _ hab).bind_same fun ν hν keep => ?_
      cases keep with
      | true => exact ih (hμ.trans hν) (.cons hab hdone)
      | false => exact ih (hμ.trans hν) hdone
  exact (haux (le_refl κ) .nil).bind fun _ _ _ _ hkept => .pure (List.rel_reverse hkept)

/-- Where one side gives something, so does the other. -/
theorem exists_of_ok {v v' w : W} {a : α} (h : σ.Sim κ x y Q) (hagree : σ.Agree κ (Stored.store v) (Stored.store w))
    (hx : x v = .ok a v') :
    ∃ b w', y w = .ok b w' ∧ ∃ μ ≥ κ, σ.Agree μ (Stored.store v') (Stored.store w') ∧ Q μ a b := by
  rcases (h v w hagree).ok_or_error with ⟨a', u, b, w', hx', hy, hend⟩ | ⟨e, u, w', hx', -, -⟩ <;> rw [hx] at hx' <;>
    cases hx'
  exact ⟨b, w', hy, hend⟩

end Sim

/-- How two computations end alike where what a failure leaves behind does not matter: stores that keep the
base. -/
def Settled (σ : Correspondence) (κ : Known) (Q : Known → α → α → Prop) :
    EStateM.Result ε W α → EStateM.Result ε W α → Prop
  | .ok a v, .ok b w => ∃ μ ≥ κ, σ.Agree μ (Stored.store v) (Stored.store w) ∧ Q μ a b
  | .error e v, .error f w => e = f ∧ Keeps σ.base (Stored.store v) ∧ Keeps σ.base (Stored.store w)
  | _, _ => False

def Settles (σ : Correspondence) (κ : Known) (x y : EStateM ε W α) (Q : Known → α → α → Prop) : Prop :=
  ∀ v w, σ.Agree κ (Stored.store v) (Stored.store w) → Settled σ κ Q (x v) (y w)

/-- Either both give something, or both fail. -/
theorem Settled.ok_or_error {r r' : EStateM.Result ε W α} (h : Settled σ κ Q r r') :
    (∃ a v b w, r = .ok a v ∧ r' = .ok b w ∧ ∃ μ ≥ κ, σ.Agree μ (Stored.store v) (Stored.store w) ∧ Q μ a b) ∨
      ∃ e v w, r = .error e v ∧ r' = .error e w ∧ Keeps σ.base (Stored.store v) ∧ Keeps σ.base (Stored.store w) := by
  cases r with
  | ok a v =>
    cases r' with
    | ok b w => exact .inl ⟨a, v, b, w, rfl, rfl, h⟩
    | error f w => exact h.elim
  | error e v =>
    cases r' with
    | ok b w => exact h.elim
    | error f w =>
      obtain ⟨rfl, h⟩ := h
      exact .inr ⟨e, v, w, rfl, rfl, h⟩

theorem Ends.settled {r r' : EStateM.Result ε W α} (h : Ends σ κ Q r r') : Settled σ κ Q r r' := by
  rcases h.ok_or_error with ⟨a, v, b, w, rfl, rfl, hend⟩ | ⟨e, v, w, rfl, rfl, _, _, hagree⟩
  · exact hend
  · exact ⟨rfl, hagree.left, hagree.right⟩

theorem Settled.mono {r r' : EStateM.Result ε W α} {μ : Known} (h : Settled σ μ P r r') (hκ : κ ≤ μ)
    (hPQ : ∀ ν ≥ μ, ∀ a b, P ν a b → Q ν a b) : Settled σ κ Q r r' := by
  rcases h.ok_or_error with ⟨a, v, b, w, rfl, rfl, ν, hν, hagree, hP⟩ | ⟨e, v, w, rfl, rfl, hkeeps⟩
  · exact ⟨ν, hκ.trans hν, hagree, hPQ ν hν a b hP⟩
  · exact ⟨rfl, hkeeps⟩

theorem Sim.settles (h : σ.Sim κ x y Q) : σ.Settles κ x y Q := fun v w hagree => (h v w hagree).settled

theorem Settles.bind {f g : α → EStateM ε W β} {R : Known → β → β → Prop} (h : σ.Settles κ x y P)
    (hfg : ∀ μ ≥ κ, ∀ a b, P μ a b → σ.Settles μ (f a) (g b) R) : σ.Settles κ (x >>= f) (y >>= g) R := by
  intro v w hagree
  rcases (h v w hagree).ok_or_error with ⟨a, v', b, w', hx, hy, μ, hμ, hagree', hP⟩ | ⟨e, v', w', hx, hy, hkeeps⟩
  · rw [bind_ok hx, bind_ok hy]
    exact (hfg μ hμ a b hP v' w' hagree').mono hμ fun _ _ _ _ hR => hR
  · rw [bind_error hx, bind_error hy]
    exact ⟨rfl, hkeeps⟩

/-- Computations that settle on the same result have one outcome. -/
theorem Settled.outcome_eq {v w : W} (h : Settled σ κ (fun _ a b => a = b) (x v) (y w)) :
    outcome x v = outcome y w := by
  unfold outcome
  rcases h.ok_or_error with ⟨a, v', b, w', hx, hy, _, _, _, rfl⟩ | ⟨e, v', w', hx, hy, _⟩ <;> rw [hx, hy]

theorem Settles.outcome_eq (h : σ.Settles κ x y fun _ a b => a = b) {v w : W}
    (hagree : σ.Agree κ (Stored.store v) (Stored.store w)) : outcome x v = outcome y w :=
  (h v w hagree).outcome_eq

theorem Settles.mapM {l : List α} {f g : α → EStateM ε W γ} {P : γ → γ → Prop}
    (hfg : ∀ μ ≥ κ, ∀ a ∈ l, σ.Settles μ (f a) (g a) fun _ => P) :
    σ.Settles κ (l.mapM f) (l.mapM g) fun _ => List.Forall₂ P := by
  induction l generalizing κ with
  | nil => exact (Sim.pure .nil).settles
  | cons a l ih =>
    rw [List.mapM_cons, List.mapM_cons]
    refine (hfg κ (le_refl κ) a List.mem_cons_self).bind fun μ hμ c d hcd => ?_
    refine (ih fun ν hν b hb => hfg ν (hμ.trans hν) b (List.mem_cons_of_mem a hb)).bind fun _ _ _ _ hcds => ?_
    exact (Sim.pure (.cons hcd hcds)).settles

end Correspondence
end Stencil
