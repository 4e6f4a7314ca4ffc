import Mathlib.Data.List.TakeWhile
import Stencil.Number.Integral
import Stencil.Proofs.Number.Numeral
import Stencil.Text.Digits

/-! Integers up to 2^53 - 1 are numbers exactly, and their digits read back as them. -/
namespace Stencil

namespace Text

theorem ofNat_of_lt {n : Nat} (h : n < 10) : ofNat n = [CodeUnit.ofChar (Nat.digitChar n)] := by
  rw [ofNat_eq, if_pos h, Nat.mod_eq_of_lt h, List.nil_append]

/-- A positive number is written without zeros in front. -/
theorem ofNat_head {n : Nat} (hpos : 0 < n) : ∃ u rest, ofNat n = u :: rest ∧ u ≠ '0' := by
  induction n using Nat.strongRecOn with
  | ind n ih =>
    by_cases hlt : n < 10
    · have hdigit : ∀ d < 10, 0 < d → CodeUnit.ofChar (Nat.digitChar d) ≠ '0' := by decide
      exact ⟨_, [], ofNat_of_lt hlt, hdigit n hlt hpos⟩
    · obtain ⟨u, rest, hrest, hu⟩ := ih (n / 10) (by omega) (by omega)
      refine ⟨u, rest ++ [CodeUnit.ofChar (Nat.digitChar (n % 10))], ?_, hu⟩
      rw [ofNat_eq, if_neg hlt, hrest]
      rfl

section runLength

variable {p : CodeUnit → Bool} {rest : Text}

theorem runLength_of_head (hrest : ∀ u ∈ rest.head?, p u = false) : runLength p rest = 0 := by
  rw [runLength.eq_def]
  rcases rest with _ | ⟨u, _ | ⟨v, rest⟩⟩
  · rfl
  · exact if_neg (by rw [hrest u rfl]; exact Bool.false_ne_true)
  · exact if_neg (by rw [hrest u rfl]; exact Bool.false_ne_true)

theorem runLength_cons {u : CodeUnit} (hu : p u = true) (hrest : rest.head? ≠ some '_') :
    runLength p (u :: rest) = runLength p rest + 1 := by
  cases rest with
  | nil => exact if_pos hu
  | cons v rest =>
    have hv : v ≠ '_' := fun heq => hrest (congrArg some heq)
    rw [runLength.eq_def]
    dsimp only
    rw [if_pos hu, decide_eq_false hv, Bool.false_and, if_neg Bool.false_ne_true, Nat.add_comm]

/-- Digits without an underscore between them or behind them are one run. -/
theorem runLength_append (hmark : p '_' = false) (hrest : ∀ u ∈ rest.head?, p u = false ∧ u ≠ '_') {t : Text}
    (h : ∀ u ∈ t, p u = true) : runLength p (t ++ rest) = t.length := by
  induction t with
  | nil => exact runLength_of_head fun u hu => (hrest u hu).1
  | cons u t ih =>
    obtain ⟨hu, h⟩ := List.forall_mem_cons.mp h
    rw [List.cons_append, runLength_cons hu, ih h, List.length_cons]
    cases t with
    | nil => exact fun hhead => (hrest _ hhead).2 rfl
    | cons v t =>
      rintro ⟨⟩
      rw [h _ List.mem_cons_self] at hmark
      cases hmark

end runLength

theorem isRun_ofNat (n : Nat) : isRun CodeUnit.isDigit (ofNat n) = true := by
  have hlength := @runLength_append CodeUnit.isDigit [] (by decide) (by simp) _ (isDigit_of_mem_ofNat n)
  rw [List.append_nil] at hlength
  have hempty : (ofNat n).isEmpty = false := List.isEmpty_eq_false_iff.mpr (ofNat_ne_nil n)
  unfold isRun
  rw [hempty, hlength]
  exact decide_eq_true rfl

theorem filter_underscore (n : Nat) : (ofNat n).filter (· != ('_' : CodeUnit)) = ofNat n := by
  refine List.filter_eq_self.mpr fun u hu => bne_iff_ne.mpr ?_
  exact Number.ne_of_isDigit (isDigit_of_mem_ofNat n u hu) (by decide)

end Text

namespace Number

variable {n : Nat}

theorem roundDiv_mul_self (n : Nat) {den : Nat} (hden : 0 < den) : roundDiv (n * den) den = n := by
  unfold roundDiv
  rw [Nat.mul_div_cancel n hden, Nat.mul_mod_left]
  exact if_pos hden

theorem le_roundDiv (num den : Nat) : num / den ≤ roundDiv num den := by
  unfold roundDiv
  dsimp only
  split
  · exact Nat.le_refl _
  · split <;> omega

theorem nearest_one (n : Nat) : nearest n 1 = roundDiv n (2 ^ (n.log2 - 52)) * 2 ^ (n.log2 - 52) := by
  unfold nearest
  dsimp only
  rw [Nat.div_one, Nat.one_mul]
  rfl

/-- Counts with at most 53 significant bits are not rounded. -/
theorem nearest_of_lt (h : n < 2 ^ 53) (k : Nat) : nearest (n * Nat.pow 2 k) 1 = n * Nat.pow 2 k := by
  change nearest (n * 2 ^ k) 1 = n * 2 ^ k
  have hshift : (n * 2 ^ k).log2 - 52 ≤ k := by
    rcases Nat.eq_zero_or_pos n with rfl | hpos
    · rw [Nat.zero_mul, Nat.log2_zero]
      omega
    · have hne : n * 2 ^ k ≠ 0 := Nat.mul_ne_zero (by omega) (Nat.two_pow_pos k).ne'
      have hbits : n * 2 ^ k < 2 ^ (53 + k) := by
        rw [Nat.pow_add]
        exact Nat.mul_lt_mul_of_pos_right h (Nat.two_pow_pos k)
      have := (Nat.log2_lt hne).mpr hbits
      omega
  rw [nearest_one]
  generalize (n * 2 ^ k).log2 - 52 = shift at hshift
  have hsplit : n * 2 ^ k = n * 2 ^ (k - shift) * 2 ^ shift := by
    rw [Nat.mul_assoc, ← Nat.pow_add, Nat.sub_add_cancel hshift]
  rw [hsplit, roundDiv_mul_self _ (Nat.two_pow_pos shift)]

theorem unit_pos : 0 < unit := by decide +kernel

theorem nearest_integer (h : n < 2 ^ 53) : nearest (n * unit) 1 = n * unit := by
  unfold unit
  generalize 1074 = bits
  exact nearest_of_lt h bits

theorem ofGrains_integer (h : n < 2 ^ 53) (negative : Bool) :
    ofGrains negative (n * unit) 1 = finite negative (n * unit) := by
  have hlimit : n * unit < limit :=
    calc n * unit < 2 ^ 53 * unit := Nat.mul_lt_mul_of_pos_right h unit_pos
      _ ≤ limit := by decide +kernel
  exact ofGrains_eq_finite_iff.mpr ⟨rfl, nearest_integer h, hlimit⟩

theorem ofNat_eq_finite (h : n < 2 ^ 53) : ofNat n = finite false (n * unit) := ofGrains_integer h false

theorem toInt?_integer (negative : Bool) (n : Nat) : (finite negative (n * unit)).toInt? = some (signed negative n) := by
  have hunit := unit_pos
  unfold toInt?
  generalize unit = grains at hunit ⊢
  dsimp only
  rw [if_pos (Nat.mul_mod_left n grains), Nat.mul_div_cancel n hunit]

theorem exists_of_toInt? {x : Number} {i : Int} (h : x.toInt? = some i) :
    ∃ negative n, x = finite negative (n * unit) ∧ signed negative n = i := by
  cases x with
  | finite negative grains =>
    unfold toInt? at h
    dsimp only at h
    split at h
    · rename_i hwhole
      refine ⟨negative, grains / unit, ?_, Option.some.inj h⟩
      rw [Nat.div_mul_cancel (Nat.dvd_of_mod_eq_zero hwhole)]
    · cases h
  | _ => cases h

theorem signed_mul (negative : Bool) (n grains : Nat) : signed negative (n * grains) = signed negative n * grains := by
  cases negative with
  | false => exact Int.natCast_mul n grains
  | true =>
    change -((n * grains : Nat) : Int) = -(n : Int) * grains
    rw [Int.natCast_mul, Int.neg_mul]

theorem toInt?_ofNat (h : n < 2 ^ 53) : (ofNat n).toInt? = some (n : Int) := by
  rw [ofNat_eq_finite h]
  exact toInt?_integer false n

theorem toInt?_neg {x : Number} {i : Int} (hx : x.toInt? = some i) : (-x).toInt? = some (-i) := by
  obtain ⟨negative, n, rfl, rfl⟩ := exists_of_toInt? hx
  change (finite (!negative) (n * unit)).toInt? = _
  rw [toInt?_integer]
  cases negative <;> simp [signed]

theorem scaled_lt_zero {grains : Nat} (h : 0 < grains) (i : Int) : i * grains < 0 ↔ i < 0 := by
  have hscaled := @Int.mul_lt_mul_right grains i 0 (Int.natCast_pos.mpr h)
  rwa [Int.zero_mul] at hscaled

theorem natAbs_signed (negative : Bool) (n : Nat) : (signed negative n).natAbs = n := by
  cases negative <;> simp [signed]

theorem signed_natAbs (i : Int) : signed (decide (i < 0)) i.natAbs = i := by
  by_cases hneg : i < 0
  · simp only [hneg, signed, decide_true, if_true]
    omega
  · simp only [hneg, signed, decide_false, Bool.false_eq_true, if_false]
    omega

/-- The sum of two integers, before it is rounded. -/
theorem add_integers (s t : Bool) (m n : Nat) (hsum : signed s m + signed t n ≠ 0) :
    finite s (m * unit) + finite t (n * unit) = ofGrains (decide (signed s m + signed t n < 0))
      ((signed s m + signed t n).natAbs * unit) 1 := by
  have hgrains : signed s (m * unit) + signed t (n * unit) = (signed s m + signed t n) * unit := by
    rw [signed_mul, signed_mul, Int.add_mul]
  have hunit : (unit : Int) ≠ 0 := Int.ne_of_gt (Int.natCast_pos.mpr unit_pos)
  change add (finite s (m * unit)) (finite t (n * unit)) = _
  unfold add
  dsimp only
  rw [hgrains, if_neg (Int.mul_ne_zero hsum hunit), decide_eq_decide.mpr (scaled_lt_zero unit_pos _), Int.natAbs_mul,
    Int.natAbs_natCast]

/-- Integers are added exactly, unless the sum takes more than 53 bits. -/
theorem toInt?_add {x y : Number} {i j : Int} (hx : x.toInt? = some i) (hy : y.toInt? = some j)
    (hsum : (i + j).natAbs < 2 ^ 53) : (x + y).toInt? = some (i + j) := by
  obtain ⟨a, m, rfl, rfl⟩ := exists_of_toInt? hx
  obtain ⟨b, n, rfl, rfl⟩ := exists_of_toInt? hy
  by_cases hzero : signed a m + signed b n = 0
  · have hgrains : signed a (m * unit) + signed b (n * unit) = 0 := by
      rw [signed_mul, signed_mul, ← Int.add_mul, hzero, Int.zero_mul]
    have hint := toInt?_integer (a && b) 0
    rw [Nat.zero_mul] at hint
    change (add (finite a (m * unit)) (finite b (n * unit))).toInt? = _
    unfold add
    dsimp only
    rw [if_pos hgrains, hint, hzero]
    cases a && b <;> rfl
  · rw [add_integers a b m n hzero, ofGrains_integer hsum, toInt?_integer, signed_natAbs]

/-- Whole numbers stand to each other as the integers that they are. -/
theorem lt_of_toInt? {x y : Number} {i j : Int} (hx : x.toInt? = some i) (hy : y.toInt? = some j) :
    x.lt y = decide (i < j) := by
  obtain ⟨a, m, rfl, rfl⟩ := exists_of_toInt? hx
  obtain ⟨b, n, rfl, rfl⟩ := exists_of_toInt? hy
  unfold lt
  dsimp only
  rw [signed_mul, signed_mul]
  exact decide_eq_decide.mpr (Int.mul_lt_mul_right (Int.natCast_pos.mpr unit_pos))

/-- A whole number is below zero as the integer that it is. -/
theorem lt_zero_of_toInt? {x : Number} {i : Int} (hx : x.toInt? = some i) : x.lt 0 = decide (i < 0) :=
  lt_of_toInt? hx (toInt?_ofNat (Nat.two_pow_pos 53))

/-- Whole numbers are equal where they are one integer, zeros of either sign included. -/
theorem eq_of_toInt? {x y : Number} {i j : Int} (hx : x.toInt? = some i) (hy : y.toInt? = some j) :
    x.eq y = decide (i = j) := by
  obtain ⟨a, m, rfl, rfl⟩ := exists_of_toInt? hx
  obtain ⟨b, n, rfl, rfl⟩ := exists_of_toInt? hy
  have hunit : (unit : Int) ≠ 0 := Int.ne_of_gt (Int.natCast_pos.mpr unit_pos)
  unfold Number.eq
  dsimp only
  rw [signed_mul, signed_mul, Bool.eq_iff_iff, beq_iff_eq, decide_eq_true_iff, Int.mul_eq_mul_right_iff hunit]

theorem le_of_toInt? {x y : Number} {i j : Int} (hx : x.toInt? = some i) (hy : y.toInt? = some j) :
    x.le y = decide (i ≤ j) := by
  unfold le
  rw [lt_of_toInt? hx hy, eq_of_toInt? hx hy, Bool.eq_iff_iff, Bool.or_eq_true, decide_eq_true_iff, decide_eq_true_iff,
    decide_eq_true_iff]
  omega

/-- A position that does not count from the end is held to the length only. -/
theorem position_of_toInt? {x : Number} {i : Int} (hx : x.toInt? = some i) (hi : 0 ≤ i) (length : Nat) :
    x.position length = min i.toNat length := by
  obtain ⟨negative, n, rfl, rfl⟩ := exists_of_toInt? hx
  have hunit := unit_pos
  unfold position
  dsimp only
  rw [Nat.mul_div_cancel n hunit]
  cases negative with
  | false => rfl
  | true =>
    have hn : n = 0 := by
      change 0 ≤ -(n : Int) at hi
      omega
    rw [hn]
    exact (Nat.zero_min length).symm

/-- An integer is written as its digits, after a sign where it is below zero. -/
theorem toText_of_toInt? {x : Number} {i : Int} (hx : x.toInt? = some i) (hi : i.natAbs < 2 ^ 53) :
    x.toText = (if i < 0 then Text.ofString "-" else []) ++ Text.ofNat i.natAbs := by
  obtain ⟨negative, n, rfl, rfl⟩ := exists_of_toInt? hx
  have hunit := unit_pos
  have hsign : (negative && n * unit != 0) = decide (signed negative n < 0) := by
    generalize unit = grains at hunit ⊢
    cases negative with
    | false => simp [signed]
    | true =>
      rcases Nat.eq_zero_or_pos n with rfl | hpos
      · simp [signed]
      · have hne : n * grains ≠ 0 := Nat.mul_ne_zero (by omega) (by omega)
        simp [signed, hne, hpos]
  rw [natAbs_signed] at hi ⊢
  unfold toText
  dsimp only
  rw [hsign, Nat.mul_mod_left, Nat.mul_div_cancel n hunit, if_pos (by simpa using hi)]
  by_cases hneg : signed negative n < 0 <;> simp [hneg]

theorem isSafeInteger_of_toInt? {x : Number} {i : Int} (hx : x.toInt? = some i) (hi : i.natAbs < 2 ^ 53) :
    x.isSafeInteger = true := by
  have hbound : i.natAbs ≤ Nat.pow 2 53 - 1 := Nat.le_sub_one_of_lt hi
  unfold isSafeInteger
  rw [hx]
  exact decide_eq_true hbound

theorem exists_of_isSafeInteger {x : Number} (h : x.isSafeInteger = true) :
    ∃ i, x.toInt? = some i ∧ i.natAbs < 2 ^ 53 := by
  unfold isSafeInteger at h
  cases hx : x.toInt? with
  | none =>
    rw [hx] at h
    cases h
  | some i =>
    rw [hx] at h
    have hbound : i.natAbs ≤ Nat.pow 2 53 - 1 := of_decide_eq_true h
    exact ⟨i, rfl, Nat.lt_of_le_sub_one (Nat.two_pow_pos 53) hbound⟩

theorem isSafeInteger_ofNat (h : n < 2 ^ 53) : (ofNat n).isSafeInteger = true :=
  isSafeInteger_of_toInt? (toInt?_ofNat h) h

theorem decimal?_of_digits {t : Text} (hne : t ≠ []) (hdigits : ∀ u ∈ t, u.isDigit = true) :
    decimal? t = some ⟨Text.digitsValue t, 0⟩ := by
  have hspan : spanDigits t = (t, []) := by
    unfold spanDigits
    rw [List.takeWhile_eq_self_iff.mpr hdigits, List.dropWhile_eq_nil_iff.mpr hdigits]
  have hempty : t.isEmpty = false := List.isEmpty_eq_false_iff.mpr hne
  unfold decimal?
  simp only [hspan, hempty, Bool.false_and, Bool.false_eq_true, if_false]
  change some (⟨Text.digitsValue (t ++ []), 0⟩ : Decimal) = _
  rw [List.append_nil]

theorem ofDecimal_integer (h : n < 2 ^ 53) : ofDecimal false ⟨n, 0⟩ = ofNat n := by
  rcases Nat.eq_zero_or_pos n with rfl | hpos
  · rw [ofNat_eq_finite h, Nat.zero_mul]
    exact if_pos rfl
  have hcount : digitCount n ≤ 16 :=
    (Nat.length_toDigits_le_iff (by omega) (by omega)).mpr (Nat.lt_of_lt_of_le h (by decide))
  unfold ofDecimal
  dsimp only
  rw [if_neg (by omega), if_neg (by omega), if_neg (by omega)]
  change ofRatio false (n * 1) 1 = _
  rw [Nat.mul_one]
  rfl

/-- A text that starts with a digit and has no base mark is a decimal if it is a number. -/
theorem ofText?_of_head {d : CodeUnit} {rest : Text} (hd : d.isDigit = true) (hmarked : marked? (d :: rest) = none) :
    ofText? (d :: rest) = (decimal? (d :: rest)).map (ofDecimal false) := by
  have hinfinity : d :: rest ≠ Text.ofString "Infinity" := fun heq =>
    ne_of_isDigit hd (by decide) (List.cons.inj heq).1
  unfold ofText?
  rw [hmarked]
  change (if d = '-' then _ else if d = '+' then _ else unsigned? false (d :: rest)) = _
  rw [if_neg (ne_of_isDigit hd (by decide)), if_neg (ne_of_isDigit hd (by decide)), unsigned?, if_neg hinfinity]

/-- Digits are a number with no mark in front and no point. -/
theorem ofText?_of_digits {t : Text} (hne : t ≠ []) (hdigits : ∀ u ∈ t, u.isDigit = true) :
    ofText? t = some (ofDecimal false ⟨Text.digitsValue t, 0⟩) := by
  have hdecimal := decimal?_of_digits hne hdigits
  cases t with
  | nil => exact absurd rfl hne
  | cons d ds =>
    have hmarked : marked? (d :: ds) = none := by
      cases ds with
      | nil => rfl
      | cons d' ds => exact marked?_eq_none (.inl (hdigits d' (by simp)))
    rw [ofText?_of_head (hdigits d List.mem_cons_self) hmarked, hdecimal, Option.map_some]

theorem ofText?_digits (h : n < 2 ^ 53) : ofText? (Text.ofNat n) = some (ofNat n) := by
  rw [ofText?_of_digits (Text.ofNat_ne_nil n) (Text.isDigit_of_mem_ofNat n), Text.digitsValue_ofNat, ofDecimal_integer h]

end Number
end Stencil
