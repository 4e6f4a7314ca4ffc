import Mathlib.Algebra.Order.Ring.Int
import Mathlib.Data.Int.ConditionallyCompleteOrder
import Mathlib.Data.List.Lex
import Mathlib.Order.WithBot
import Stencil.Proofs.Number.Rounding

/-!
Numbers other than NaN stand in one order, and so do texts. The sign of a difference says how its terms stand to each
other.
-/
namespace Stencil

/-- Texts are ordered like the lists of their units. -/
theorem Text.before_iff (t u : Text) : t.before u = true ↔ t.map UInt16.toNat < u.map UInt16.toNat := by
  induction t generalizing u with
  | nil => cases u <;> simp [Text.before]
  | cons x t ih =>
    cases u with
    | nil => simp [Text.before]
    | cons y u => simp [Text.before, List.cons_lt_cons_iff, ih, UInt16.lt_iff_toNat_lt, UInt16.toNat_inj]

theorem Text.units_inj {t u : Text} : t.map UInt16.toNat = u.map UInt16.toNat ↔ t = u :=
  List.map_inj_right fun _ _ => UInt16.toNat_inj.mp

namespace Number

variable {x y : Number} {n : Nat}

/-- Where a number stands: between the infinities, by its signed count of grains. -/
def extent : Number → WithBot (WithTop Int)
  | nan => ⊥
  | infinity true => ⊥
  | infinity false => (⊤ : WithTop Int)
  | finite s g => (signed s g : WithTop Int)

theorem lt_iff_extent (hx : x ≠ nan) (hy : y ≠ nan) : x.lt y = true ↔ x.extent < y.extent := by
  rcases x with _ | s | ⟨s, g⟩
  · exact absurd rfl hx
  · rcases y with _ | t | ⟨t, h⟩
    · exact absurd rfl hy
    · cases s <;> cases t <;> simp [lt, extent]
    · cases s <;> simp [lt, extent]
  · rcases y with _ | t | ⟨t, h⟩
    · exact absurd rfl hy
    · cases t with
      | false => exact iff_of_true rfl (WithBot.coe_lt_coe.mpr (WithTop.coe_lt_top _))
      | true => simp [lt, extent]
    · simp [lt, extent]

theorem eq_iff_extent (hx : x ≠ nan) (hy : y ≠ nan) : x.eq y = true ↔ x.extent = y.extent := by
  rcases x with _ | s | ⟨s, g⟩
  · exact absurd rfl hx
  · rcases y with _ | t | ⟨t, h⟩
    · exact absurd rfl hy
    · cases s <;> cases t <;> simp [Number.eq, extent]
    · cases s <;> simp [Number.eq, extent]
  · rcases y with _ | t | ⟨t, h⟩
    · exact absurd rfl hy
    · cases t <;> simp [Number.eq, extent]
    · simp [Number.eq, extent]

theorem infinite_iff_extent (hx : x ≠ nan) :
    (∃ s, x = infinity s) ↔ x.extent = ⊥ ∨ x.extent = (⊤ : WithTop Int) := by
  rcases x with _ | s | ⟨s, g⟩
  · exact absurd rfl hx
  · cases s <;> simp [extent]
  · simp [extent]

/-! ## Differences -/

theorem zero_eq : (0 : Number) = finite false 0 := by
  change ofNat 0 = _
  rw [ofNat_eq_finite (by decide), Nat.zero_mul]

/-- A count that is not zero makes a number of its sign, with grains left or too large. -/
theorem ofGrains_cases (negative : Bool) (h : 0 < n) :
    (∃ g, 0 < g ∧ ofGrains negative n 1 = finite negative g) ∨ ofGrains negative n 1 = infinity negative := by
  unfold ofGrains
  dsimp only
  split
  · exact .inl ⟨_, nearest_pos h, rfl⟩
  · exact .inr rfl

theorem lt_zero_ofGrains (negative : Bool) (h : 0 < n) : (ofGrains negative n 1).lt 0 = negative := by
  rw [zero_eq]
  obtain ⟨g, hg, heq⟩ | heq := ofGrains_cases negative h <;> rw [heq]
  · cases negative <;> simp [lt, signed, hg]
  · rfl

theorem zero_lt_ofGrains (negative : Bool) (h : 0 < n) : lt 0 (ofGrains negative n 1) = !negative := by
  rw [zero_eq]
  obtain ⟨g, hg, heq⟩ | heq := ofGrains_cases negative h <;> rw [heq]
  · cases negative <;> simp [lt, signed, hg]
  · rfl

theorem ofGrains_eq_zero (negative : Bool) (h : 0 < n) : (ofGrains negative n 1).eq 0 = false := by
  rw [zero_eq]
  obtain ⟨g, hg, heq⟩ | heq := ofGrains_cases negative h <;> rw [heq]
  · cases negative <;> simp [Number.eq, signed, hg.ne']
  · rfl

theorem signed_not (negative : Bool) (n : Nat) : signed (!negative) n = -signed negative n := by
  cases negative <;> simp [signed]

theorem sub_finite (s t : Bool) (g h : Nat) : finite s g - finite t h =
    if signed s g = signed t h then finite (s && !t) 0
    else ofGrains (signed s g < signed t h) (signed s g - signed t h).natAbs 1 := by
  change add (finite s g) (finite (!t) h) = _
  have hsign : decide (signed s g - signed t h < 0) = decide (signed s g < signed t h) :=
    decide_eq_decide.mpr ⟨fun hlt => by omega, fun hlt => by omega⟩
  unfold add
  dsimp only
  rw [signed_not, ← Int.sub_eq_add_neg, hsign]
  simp only [Int.sub_eq_zero]

/-- A difference is below zero where the first term is below the second. -/
theorem sub_lt_zero (x y : Number) : (x - y).lt 0 = x.lt y := by
  rcases x with _ | s | ⟨s, g⟩
  · rw [zero_eq]
    rfl
  · rw [zero_eq]
    rcases y with _ | t | ⟨t, h⟩
    · rfl
    · cases s <;> cases t <;> rfl
    · rfl
  · rcases y with _ | t | ⟨t, h⟩
    · rw [zero_eq]
      rfl
    · rw [zero_eq]
      rfl
    · rw [sub_finite]
      by_cases heq : signed s g = signed t h
      · rw [if_pos heq, zero_eq]
        simp only [lt, heq]
        cases s && !t <;> simp [signed]
      · rw [if_neg heq, lt_zero_ofGrains _ (by omega)]
        rfl

/-- A difference is above zero where the second term is below the first. -/
theorem zero_lt_sub (x y : Number) : lt 0 (x - y) = y.lt x := by
  rcases x with _ | s | ⟨s, g⟩
  · rw [zero_eq]
    cases y <;> rfl
  · rw [zero_eq]
    rcases y with _ | t | ⟨t, h⟩
    · rfl
    · cases s <;> cases t <;> rfl
    · rfl
  · rcases y with _ | t | ⟨t, h⟩
    · rw [zero_eq]
      rfl
    · rw [zero_eq]
      cases t <;> rfl
    · rw [sub_finite]
      by_cases heq : signed s g = signed t h
      · rw [if_pos heq, zero_eq]
        simp only [lt, heq]
        cases s && !t <;> simp [signed]
      · rw [if_neg heq, zero_lt_ofGrains _ (by omega)]
        have hflip : signed t h < signed s g ↔ ¬ signed s g < signed t h := by omega
        simp only [lt, hflip, decide_not]

theorem eq_comm (x y : Number) : x.eq y = y.eq x := by
  cases x <;> cases y <;> simp only [Number.eq, Bool.beq_comm]

/-- A difference is zero where both terms are equal, unless they are infinite. -/
theorem sub_eq_zero (x y : Number) : (x - y).eq 0 = true ↔ x.eq y = true ∧ ∀ s, x ≠ infinity s := by
  rcases x with _ | s | ⟨s, g⟩
  · rw [zero_eq]
    exact iff_of_false Bool.false_ne_true fun h => Bool.false_ne_true h.1
  · have hnot : ¬ ((infinity s).eq y = true ∧ ∀ t, infinity s ≠ infinity t) := fun h => h.2 s rfl
    refine iff_of_false ?_ hnot
    rw [zero_eq]
    rcases y with _ | t | ⟨t, h⟩
    · exact Bool.false_ne_true
    · cases s <;> cases t <;> exact Bool.false_ne_true
    · exact Bool.false_ne_true
  · have hfinite : ∀ t, finite s g ≠ infinity t := nofun
    rcases y with _ | t | ⟨t, h⟩
    · rw [zero_eq]
      exact iff_of_false Bool.false_ne_true fun h => Bool.false_ne_true h.1
    · rw [zero_eq]
      exact iff_of_false Bool.false_ne_true fun h => Bool.false_ne_true h.1
    · rw [sub_finite, and_iff_left hfinite]
      by_cases heq : signed s g = signed t h
      · rw [if_pos heq, zero_eq]
        simp only [Number.eq, heq]
        cases s && !t <;> simp [signed]
      · rw [if_neg heq, ofGrains_eq_zero _ (by omega)]
        simp [Number.eq, heq]

end Number
end Stencil
