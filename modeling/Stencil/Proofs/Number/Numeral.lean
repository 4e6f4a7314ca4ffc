import Mathlib.Algebra.Order.Ring.Nat
import Mathlib.Tactic.NormNum
import Stencil.Number.Read

/-!
Every number without a sign has a decimal that reads back as it: a grain is a multiple of a power of ten, so all
digits of a finite number can be written down.
-/

namespace Stencil

namespace Text

/-- The last digit of a number comes after those of the rest. -/
theorem ofNat_eq (n : Nat) :
    ofNat n = (if n < 10 then [] else ofNat (n / 10)) ++ [CodeUnit.ofChar (Nat.digitChar (n % 10))] := by
  unfold ofNat
  rw [Nat.toDigits_eq_if (by omega)]
  split
  · rename_i h
    rw [Nat.mod_eq_of_lt h]
    rfl
  · rw [List.map_append, List.map_singleton]

theorem digitChar_facts : ∀ d < 10, (CodeUnit.ofChar (Nat.digitChar d)).isDigit = true ∧
    (CodeUnit.ofChar (Nat.digitChar d)).toNat - 0x30 = d := by decide

theorem isDigit_of_mem_ofNat (n : Nat) : ∀ u ∈ ofNat n, u.isDigit = true := by
  induction n using Nat.strongRecOn with
  | ind n ih =>
    rw [ofNat_eq]
    intro u hu
    rcases List.mem_append.mp hu with hu | hu
    · split at hu
      · cases hu
      · exact ih (n / 10) (by omega) u hu
    · obtain rfl := List.mem_singleton.mp hu
      exact (digitChar_facts (n % 10) (Nat.mod_lt n (by omega))).1

theorem digitsValue_ofNat (n : Nat) : digitsValue (ofNat n) = n := by
  induction n using Nat.strongRecOn with
  | ind n ih =>
    obtain ⟨hdigit, hvalue⟩ := digitChar_facts (n % 10) (Nat.mod_lt n (by omega))
    have hlast : digitsValue (ofNat n) = digitsValue (if n < 10 then [] else ofNat (n / 10)) * 10 + n % 10 := by
      rw [ofNat_eq, digitsValue, List.foldl_append, List.foldl_cons, List.foldl_nil, hdigit, hvalue, if_pos rfl]
      rfl
    rw [hlast]
    split
    · change 0 * 10 + n % 10 = n
      omega
    · rw [ih (n / 10) (by omega)]
      omega

theorem ofNat_ne_nil (n : Nat) : ofNat n ≠ [] := by simp [ofNat]

end Text

namespace Number

theorem roundDiv_mul_right (num den : Nat) {c : Nat} (hc : 0 < c) : roundDiv (num * c) (den * c) = roundDiv num den := by
  unfold roundDiv
  simp only [Nat.mul_div_mul_right _ _ hc, Nat.mul_mod_mul_right, ← Nat.mul_assoc, Nat.mul_lt_mul_right hc]

/-- A quotient is rounded as it is, however it is written. -/
theorem nearest_mul_right (num den : Nat) {c : Nat} (hc : 0 < c) : nearest (num * c) (den * c) = nearest num den := by
  unfold nearest
  simp only [Nat.mul_div_mul_right _ _ hc, Nat.mul_right_comm den c, roundDiv_mul_right _ _ hc]

/-- A count makes a finite number where it is rounded to less than the limit. -/
theorem ofGrains_eq_finite_iff {negative sign : Bool} {num den grains : Nat} :
    ofGrains negative num den = finite sign grains ↔ negative = sign ∧ nearest num den = grains ∧ grains < limit := by
  unfold ofGrains
  dsimp only
  constructor
  · intro h
    split at h
    · rename_i hlimit
      cases h
      exact ⟨rfl, rfl, hlimit⟩
    · cases h
  · rintro ⟨rfl, rfl, hlimit⟩
    exact if_pos hlimit

/-- A number that is not below zero, as the floating point format has it: neither NaN nor minus zero. -/
def Unsigned : Number → Prop
  | nan => False
  | infinity negative => negative = false
  | finite negative grains => negative = false ∧ ofGrains false grains 1 = finite false grains

/-- A grain in units of the last digit of a decimal. -/
def perGrain : Nat := Nat.pow 5 1074

/-- The decimal of a number with all its digits, or one beyond every finite number. -/
def spelling : Number → Text
  | finite _ grains => Text.ofNat (grains * perGrain) ++ Text.ofString "e-1074"
  | _ => Text.ofString "1e999"

theorem decimal?_ofNat (n : Nat) : decimal? (Text.ofNat n ++ Text.ofString "e-1074") = some ⟨n, -1074⟩ := by
  have hspan : spanDigits (Text.ofNat n ++ Text.ofString "e-1074") = (Text.ofNat n, Text.ofString "e-1074") := by
    have hdigits := Text.isDigit_of_mem_ofNat n
    unfold spanDigits
    rw [List.takeWhile_append_of_pos hdigits, List.dropWhile_append_of_pos hdigits]
    have hrest : (Text.ofString "e-1074").takeWhile CodeUnit.isDigit = [] ∧
        (Text.ofString "e-1074").dropWhile CodeUnit.isDigit = Text.ofString "e-1074" := by decide
    rw [hrest.1, hrest.2, List.append_nil]
  have hempty : (Text.ofNat n).isEmpty = false := List.isEmpty_eq_false_iff.mpr (Text.ofNat_ne_nil n)
  unfold decimal?
  simp only [hspan, hempty, Bool.false_and, Bool.false_eq_true, if_false]
  change some (⟨Text.digitsValue (Text.ofNat n ++ []), -1074⟩ : Decimal) = _
  rw [List.append_nil, Text.digitsValue_ofNat]

theorem ne_of_isDigit {u v : CodeUnit} (hu : u.isDigit = true) (hv : v.isDigit = false) : u ≠ v := by
  rintro rfl
  rw [hu] at hv
  cases hv

/-- A digit or the mark of an exponent is no base mark. -/
theorem marked?_eq_none {z m : CodeUnit} {rest : Text} (hm : m.isDigit = true ∨ m = 'e') :
    marked? (z :: m :: rest) = none := by
  have hne : ∀ mark : CodeUnit, mark.isDigit = false → mark ≠ 'e' → m ≠ mark := by
    rintro mark hmark he
    rcases hm with hm | rfl
    · exact ne_of_isDigit hm hmark
    · exact he.symm
  unfold marked?
  simp [hne 'x' (by decide) (by decide), hne 'X' (by decide) (by decide), hne 'o' (by decide) (by decide),
    hne 'O' (by decide) (by decide), hne 'b' (by decide) (by decide), hne 'B' (by decide) (by decide)]

/-- Digits with an exponent are read as a decimal. -/
theorem ofText?_ofNat (n : Nat) :
    ofText? (Text.ofNat n ++ Text.ofString "e-1074") = some (ofDecimal false ⟨n, -1074⟩) := by
  have hdigits := Text.isDigit_of_mem_ofNat n
  have hne := Text.ofNat_ne_nil n
  have hdecimal := decimal?_ofNat n
  generalize Text.ofNat n = digits at hdigits hne hdecimal ⊢
  cases digits with
  | nil => exact absurd rfl hne
  | cons d ds =>
    have hd := hdigits d List.mem_cons_self
    have hmarked : marked? (d :: ds ++ Text.ofString "e-1074") = none := by
      cases ds with
      | nil => exact marked?_eq_none (.inr rfl)
      | cons d' ds => exact marked?_eq_none (.inl (hdigits d' (by simp)))
    have hinfinity : d :: ds ++ Text.ofString "e-1074" ≠ Text.ofString "Infinity" := fun heq =>
      ne_of_isDigit hd (by decide) (List.cons.inj heq).1
    unfold ofText?
    rw [hmarked]
    change (if d = '-' then _ else if d = '+' then _ else unsigned? false (d :: ds ++ Text.ofString "e-1074")) = _
    rw [if_neg (ne_of_isDigit hd (by decide)), if_neg (ne_of_isDigit hd (by decide)), unsigned?, if_neg hinfinity, hdecimal]
    rfl

theorem perGrain_pos : 0 < perGrain := by decide +kernel

theorem mul_pow_five_two (n k : Nat) : n * Nat.pow 5 k * Nat.pow 2 k = n * Nat.pow 10 k := by
  rw [Nat.mul_assoc]
  exact congrArg (n * ·) (Nat.mul_pow 5 2 k).symm

theorem nearest_scaled (num k : Nat) : nearest (num * Nat.pow 10 k) (Nat.pow 10 k) = nearest num 1 := by
  have hmul := nearest_mul_right num 1 (Nat.pow_pos (n := k) (show 0 < 10 by omega))
  rwa [Nat.one_mul] at hmul

/-- The digits of a finite number are within the range in which decimals are rounded. -/
theorem digitCount_bounds {grains : Nat} (hpos : 0 < grains) (hlimit : grains < limit) :
    750 < digitCount (grains * perGrain) ∧ digitCount (grains * perGrain) ≤ 1384 := by
  have hcount : ∀ k, 0 < k → (digitCount (grains * perGrain) ≤ k ↔ grains * perGrain < 10 ^ k) :=
    fun k hk => Nat.length_toDigits_le_iff (by omega) hk
  constructor
  · rw [← Nat.not_le, hcount 750 (by omega), Nat.not_lt]
    calc 10 ^ 750 ≤ 1 * perGrain := by decide +kernel
      _ ≤ grains * perGrain := Nat.mul_le_mul_right _ hpos
  · rw [hcount 1384 (by omega)]
    calc grains * perGrain < limit * perGrain := Nat.mul_lt_mul_of_pos_right hlimit perGrain_pos
      _ ≤ 10 ^ 1384 := by decide +kernel

theorem ofDecimal_grains {grains : Nat} (h : ofGrains false grains 1 = finite false grains) :
    ofDecimal false ⟨grains * perGrain, -1074⟩ = finite false grains := by
  rcases Nat.eq_zero_or_pos grains with rfl | hpos
  · rw [Nat.zero_mul]
    exact if_pos rfl
  obtain ⟨-, -, hlimit⟩ := ofGrains_eq_finite_iff.mp h
  obtain ⟨hleast, hmost⟩ := digitCount_bounds hpos hlimit
  have hne : grains * perGrain ≠ 0 := Nat.mul_ne_zero (by omega) perGrain_pos.ne'
  have hratio : Decimal.ratio ⟨grains * perGrain, -1074⟩ = (grains * perGrain, Nat.pow 10 1074) := rfl
  unfold ofDecimal
  dsimp only
  rw [if_neg hne, if_neg (by omega), if_neg (by omega), hratio, ofRatio, unit, perGrain, mul_pow_five_two, ofGrains,
    nearest_scaled]
  exact h

/-- The spelling of a number reads back as it. -/
theorem ofText?_spelling {x : Number} (h : x.Unsigned) : ofText? x.spelling = some x := by
  cases x with
  | nan => exact h.elim
  | infinity negative =>
    obtain rfl : negative = false := h
    decide
  | finite negative grains =>
    obtain ⟨rfl, hgrains⟩ := h
    rw [spelling, ofText?_ofNat, ofDecimal_grains hgrains]

theorem underscore_not_mem_spelling (x : Number) : ('_' : CodeUnit) ∉ x.spelling := by
  have hmark : ('_' : CodeUnit) ∉ Text.ofString "e-1074" ∧ ('_' : CodeUnit) ∉ Text.ofString "1e999" := by decide
  cases x with
  | finite negative grains =>
    rw [spelling, List.mem_append, not_or]
    exact ⟨fun hu => ne_of_isDigit (Text.isDigit_of_mem_ofNat _ _ hu) (by decide) rfl, hmark.1⟩
  | _ => exact hmark.2

end Number
end Stencil
