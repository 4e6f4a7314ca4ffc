import Mathlib.Data.List.Forall2

/-! Lists whose items are related one by one. -/
namespace Stencil

variable {α β : Type} {R S : α → β → Prop} {as as' : List α} {bs bs' : List β}

theorem forall₂_imp_of_mem (hRS : ∀ a, ∀ b ∈ bs, R a b → S a b) (h : List.Forall₂ R as bs) : List.Forall₂ S as bs := by
  induction h with
  | nil => exact .nil
  | cons hab _ ih =>
    obtain ⟨hb, hRS⟩ := List.forall_mem_cons.mp fun b hb a => hRS a b hb
    exact .cons (hb _ hab) (ih fun a b hb => hRS b hb a)

theorem forall₂_imp_of_mem_left (hRS : ∀ a ∈ as, ∀ b, R a b → S a b) (h : List.Forall₂ R as bs) :
    List.Forall₂ S as bs :=
  .flip (forall₂_imp_of_mem (fun b a ha => hRS a ha b) h.flip)

theorem forall₂_unique (hR : ∀ a, ∀ b ∈ bs, ∀ b', R a b → R a b' → b = b') (h : List.Forall₂ R as bs)
    (h' : List.Forall₂ R as bs') : bs = bs' := by
  induction h generalizing bs' with
  | nil =>
    cases h'
    rfl
  | cons hab _ ih =>
    cases h' with
    | cons hab' hrest =>
      obtain ⟨hb, hR⟩ := List.forall_mem_cons.mp fun b hb a => hR a b hb
      rw [hb _ _ hab hab', ih (fun a b hb => hR b hb a) hrest]

theorem exists_of_forall₂ {b : β} (h : List.Forall₂ R as bs) (hb : b ∈ bs) : ∃ a ∈ as, R a b := by
  induction h with
  | nil => cases hb
  | cons hR _ ih =>
    rcases List.mem_cons.mp hb with rfl | hb
    · exact ⟨_, List.mem_cons_self, hR⟩
    · obtain ⟨a, ha, hR⟩ := ih hb
      exact ⟨a, List.mem_cons_of_mem _ ha, hR⟩

theorem exists_of_mem_zip (h : List.Forall₂ R as bs) (h' : List.Forall₂ R as' bs) {p : α × α} (hp : p ∈ as.zip as') :
    ∃ b ∈ bs, R p.1 b ∧ R p.2 b := by
  induction h generalizing as' with
  | nil => cases hp
  | cons hab _ ih =>
    cases h' with
    | cons hab' hrest =>
      rw [List.zip_cons_cons] at hp
      rcases List.mem_cons.mp hp with rfl | hp
      · exact ⟨_, List.mem_cons_self, hab, hab'⟩
      · obtain ⟨b, hb, hR⟩ := ih hrest hp
        exact ⟨b, List.mem_cons_of_mem _ hb, hR⟩

/-- Pairs are related where their first and their second parts are. -/
theorem forall₂_pairs {γ δ : Type} {S : γ → δ → Prop} {ps : List (α × γ)} {qs : List (β × δ)}
    (hfirst : List.Forall₂ R (ps.map (·.1)) (qs.map (·.1))) (hsecond : List.Forall₂ S (ps.map (·.2)) (qs.map (·.2))) :
    List.Forall₂ (fun p q => R p.1 q.1 ∧ S p.2 q.2) ps qs := by
  induction ps generalizing qs with
  | nil =>
    cases qs with
    | nil => exact .nil
    | cons q qs => cases hfirst
  | cons p ps ih =>
    cases qs with
    | nil => cases hfirst
    | cons q qs =>
      rw [List.map_cons, List.map_cons] at hfirst hsecond
      obtain ⟨hp, hfirst⟩ := List.forall₂_cons.mp hfirst
      obtain ⟨hp', hsecond⟩ := List.forall₂_cons.mp hsecond
      exact .cons ⟨hp, hp'⟩ (ih hfirst hsecond)

theorem mapM_eq_some {f : α → Option β} (h : List.Forall₂ (fun a b => f a = some b) as bs) : as.mapM f = some bs := by
  induction h with
  | nil => rfl
  | cons hab _ ih =>
    rw [List.mapM_cons, hab, ih]
    rfl

section monadic

variable {m : Type → Type} [Monad m] {γ : Type}

theorem mapM_congr_of_forall₂ [LawfulMonad m] {f : α → m γ} {g : β → m γ} (h : List.Forall₂ (fun a b => f a = g b) as bs) :
    as.mapM f = bs.mapM g := by
  induction h with
  | nil => rfl
  | cons hab _ ih => rw [List.mapM_cons, List.mapM_cons, hab, ih]

theorem foldlM_congr_of_forall₂ {f : γ → α → m γ} {g : γ → β → m γ}
    (h : List.Forall₂ (fun a b => ∀ c, f c a = g c b) as bs) (c : γ) : as.foldlM f c = bs.foldlM g c := by
  induction h generalizing c with
  | nil => rfl
  | cons hab _ ih =>
    rw [List.foldlM_cons, List.foldlM_cons, hab]
    exact bind_congr ih

end monadic

/-- What stands under a key in lists of related entries, where related entries have the key or have it not. -/
theorem forall₂_lookup_of {κ : Type} [BEq κ] {S : κ × α → κ × β → Prop} {ps : List (κ × α)} {qs : List (κ × β)}
    {key : κ} (h : List.Forall₂ S ps qs) (hkey : ∀ p q, S p q → (key == p.1) = (key == q.1))
    (hS : ∀ p q, S p q → R p.2 q.2) : Option.Rel R (ps.lookup key) (qs.lookup key) := by
  induction h with
  | nil => exact .none
  | @cons p q _ _ hpq _ ih =>
    obtain ⟨k, a⟩ := p
    obtain ⟨k', b⟩ := q
    have hk : (key == k) = (key == k') := hkey _ _ hpq
    rw [List.lookup_cons, List.lookup_cons, hk]
    split
    · exact .some (hS _ _ hpq)
    · exact ih

theorem forall₂_lookup {κ : Type} [BEq κ] {ps : List (κ × α)} {qs : List (κ × β)}
    (h : List.Forall₂ (fun p q => p.1 = q.1 ∧ R p.2 q.2) ps qs) (key : κ) :
    Option.Rel R (ps.lookup key) (qs.lookup key) :=
  forall₂_lookup_of h (fun _ _ hpq => by rw [hpq.1]) fun _ _ hpq => hpq.2

end Stencil
