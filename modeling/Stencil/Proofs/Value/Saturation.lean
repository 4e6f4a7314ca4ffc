import Mathlib.Data.Finset.Card

/-! Approximations of a partial function that are defined on finitely many more arguments at most. -/
namespace Stencil

/-- Ever better approximations of a partial function, each computed from the one before. Outside of
`late` the first one is defined. -/
structure Approximation {α β : Type} (f : Nat → α → Option β) (late : Finset α) : Prop where
  grows : ∀ {n a b}, f n a = some b → f (n + 1) a = some b
  computed : ∀ {n}, f n = f (n + 1) → f (n + 1) = f (n + 2)
  early : ∀ {a}, a ∉ late → (f 1 a).isSome

namespace Approximation

variable {α β : Type} {f : Nat → α → Option β} {late : Finset α}

theorem grows_le (h : Approximation f late) {n m : Nat} (hnm : n ≤ m) {a : α} {b : β} (ha : f n a = some b) :
    f m a = some b := by
  induction hnm with
  | refl => exact ha
  | step _ ih => exact h.grows ih

theorem settled (h : Approximation f late) {n m : Nat} (hn : f n = f (n + 1)) (hnm : n ≤ m) :
    f m = f n ∧ f m = f (m + 1) := by
  induction hnm with
  | refl => exact ⟨rfl, hn⟩
  | step _ ih => exact ⟨ih.2 ▸ ih.1, h.computed ih.2⟩

def defined (f : Nat → α → Option β) (late : Finset α) (n : Nat) : Finset α :=
  late.filter fun a => (f n a).isSome = true

theorem defined_subset (h : Approximation f late) (n : Nat) : defined f late n ⊆ defined f late (n + 1) := by
  intro a ha
  obtain ⟨hlate, hsome⟩ := Finset.mem_filter.mp ha
  obtain ⟨b, hb⟩ := Option.isSome_iff_exists.mp hsome
  exact Finset.mem_filter.mpr ⟨hlate, by rw [h.grows hb]; rfl⟩

/-- Where no argument becomes defined, nothing changes. -/
theorem eq_of_defined_eq (h : Approximation f late) {n : Nat}
    (hd : defined f late (n + 1) = defined f late (n + 2)) : f (n + 1) = f (n + 2) := by
  funext a
  have hdefined : (f (n + 2) a).isSome = true → (f (n + 1) a).isSome = true := by
    intro hsome
    by_cases hlate : a ∈ late
    · have hmem : a ∈ defined f late (n + 2) := Finset.mem_filter.mpr ⟨hlate, hsome⟩
      rw [← hd] at hmem
      exact (Finset.mem_filter.mp hmem).2
    · obtain ⟨b, hb⟩ := Option.isSome_iff_exists.mp (h.early hlate)
      rw [h.grows_le (Nat.le_add_left 1 n) hb]
      rfl
  cases hnext : f (n + 2) a with
  | none =>
    cases hthis : f (n + 1) a with
    | none => rfl
    | some b => rw [h.grows hthis] at hnext; cases hnext
  | some b =>
    obtain ⟨c, hc⟩ := Option.isSome_iff_exists.mp (hdefined (by rw [hnext]; rfl))
    rw [hc, ← h.grows hc, hnext]

theorem settles_or_grows (h : Approximation f late) (n : Nat) :
    (∃ m ≤ n, f m = f (m + 1)) ∨ n ≤ (defined f late (n + 1)).card := by
  induction n with
  | zero => exact .inr (Nat.zero_le _)
  | succ n ih =>
    rcases ih with ⟨m, hm, hsettled⟩ | hcard
    · exact .inl ⟨m, by omega, hsettled⟩
    · by_cases hd : defined f late (n + 1) = defined f late (n + 2)
      · exact .inl ⟨n + 1, Nat.le_refl _, h.eq_of_defined_eq hd⟩
      · have := Finset.card_lt_card ((h.defined_subset (n + 1)).ssubset_of_ne hd)
        exact .inr (by omega)

/-- One step more than there are late arguments is enough. -/
theorem stable (h : Approximation f late) {n : Nat} (hn : late.card + 1 ≤ n) : f n = f (late.card + 1) := by
  rcases h.settles_or_grows (late.card + 1) with ⟨m, hm, hsettled⟩ | hcard
  · rw [(h.settled hsettled (by omega : m ≤ n)).1, (h.settled hsettled hm).1]
  · have := Finset.card_filter_le late fun a => (f (late.card + 1 + 1) a).isSome = true
    exact absurd (Nat.lt_of_succ_le (hcard.trans this)) (Nat.lt_irrefl _)

end Approximation
end Stencil
