import Stencil.Proofs.Number.Rounding
import Stencil.Proofs.Render.KeyedReads

/-!
The remainder of two integers. The operator takes the remainder that has the sign of the dividend, adds the divisor and
takes the remainder again. The sum may take 54 bits, and where it is odd then it is rounded: the result is a remainder
of an integer next to the dividend.
-/
namespace Stencil.Eval

variable {a b c e k : Int} {x y : Number}

/-- A remainder that leaves a multiple of the divisor, is smaller than it and has its sign. -/
structure FlooredRemainder (a b r : Int) : Prop where
  sign : r = 0 ∨ (r < 0 ↔ b < 0)
  small : r.natAbs < b.natAbs
  divides : b ∣ a - r

/-- The sum that the operator takes the second remainder of. -/
def shiftedRemainder (a b : Int) : Int := a.tmod b + b

/-- The sum has 53 bits, or one more and is even. -/
def KeptSum (a b : Int) : Prop := (shiftedRemainder a b).natAbs < 2 ^ 53 ∨ 2 ∣ shiftedRemainder a b

/-- A floored remainder is what the floored quotient leaves. -/
theorem FlooredRemainder.eq_mul_add (h : FlooredRemainder a b c) : a = b * a.fdiv b + c := by
  obtain ⟨q, hq⟩ := h.divides
  have hsign := h.sign
  have hsmall := h.small
  have hquotient : a.fdiv b = q := by
    rcases Int.lt_trichotomy b 0 with hneg | rfl | hpos
    · exact ((Int.fdiv_fmod_unique' (r := c) hneg).mpr ⟨by omega, by omega, by omega⟩).1
    · omega
    · exact ((Int.fdiv_fmod_unique (r := c) hpos).mpr ⟨by omega, by omega, by omega⟩).1
  rw [hquotient]
  omega

/-- Two dividends with one floored remainder lie a multiple of the divisor apart. -/
theorem FlooredRemainder.dvd_of_add (h : FlooredRemainder a b c) (hadd : FlooredRemainder (a + e) b c) : b ∣ e := by
  have hdvd := Int.dvd_sub hadd.divides h.divides
  have hgap : a + e - c - (a - c) = e := by omega
  rwa [hgap] at hdvd

/-! ## The sum -/

theorem natAbs_tmod_lt (k : Int) (hb : b ≠ 0) : (k.tmod b).natAbs < b.natAbs := by
  rw [Int.natAbs_tmod]
  exact Nat.mod_lt _ (Int.natAbs_pos.mpr hb)

/-- The sum has the sign of the divisor, and is less than twice as large. -/
theorem shiftedRemainder_bounds (a : Int) (hb : b ≠ 0) : (0 < b → 0 < shiftedRemainder a b) ∧
    (b < 0 → shiftedRemainder a b < 0) ∧ (shiftedRemainder a b).natAbs < 2 * b.natAbs := by
  have hsmall := natAbs_tmod_lt a hb
  unfold shiftedRemainder
  omega

/-- The second remainder is one of a dividend that lies as far off as the number that it is taken of lies from the
sum. -/
theorem second_remainder (hb : b ≠ 0) (hpos : 0 < b → 0 ≤ k) (hneg : b < 0 → k ≤ 0)
    (hk : k = shiftedRemainder a b + e) : FlooredRemainder (a + e) b (k.tmod b) := by
  constructor
  case sign =>
    rcases Int.lt_or_gt_of_ne hb with hlt | hgt
    · have hnonpos : 0 ≤ (-k).tmod b := Int.tmod_nonneg b (by omega)
      rw [Int.neg_tmod] at hnonpos
      omega
    · have hnonneg := Int.tmod_nonneg b (hpos hgt)
      omega
  case small => exact natAbs_tmod_lt k hb
  case divides =>
    obtain ⟨p, hp⟩ : b ∣ a - a.tmod b := Int.dvd_self_sub_tmod
    obtain ⟨q, hq⟩ : b ∣ k - k.tmod b := Int.dvd_self_sub_tmod
    have hsplit : a + e - k.tmod b = b * p + b * q - b := by
      unfold shiftedRemainder at hk
      omega
    rw [hsplit]
    exact Int.dvd_sub (Int.dvd_add (Int.dvd_mul_right b p) (Int.dvd_mul_right b q)) (Int.dvd_refl b)

/-- The sum is rounded by one at most, and only where it is odd and takes 54 bits. -/
theorem toInt?_shifted (hx : x.toInt? = some a) (hy : y.toInt? = some b) (hb : b.natAbs < 2 ^ 53) (hzero : b ≠ 0) :
    ∃ e, (x % y + y).toInt? = some (shiftedRemainder a b + e) ∧
      (KeptSum a b → e = 0) ∧ (¬ KeptSum a b → e = 1 ∨ e = -1) := by
  have hrem := Number.toInt?_rem hx hy hzero
  obtain ⟨-, -, hsize⟩ := shiftedRemainder_bounds a hzero
  rcases Nat.lt_or_ge (shiftedRemainder a b).natAbs (2 ^ 53) with hlt | hge
  · refine ⟨0, ?_, fun _ => rfl, fun hnot => absurd (Or.inl hlt) hnot⟩
    rw [Int.add_zero]
    exact Number.toInt?_add hrem hy hlt
  · have hhigh : (a.tmod b + b).natAbs < 2 ^ 54 := by
      unfold shiftedRemainder at hsize
      omega
    refine ⟨Number.toEven (shiftedRemainder a b) - shiftedRemainder a b, ?_, ?_, ?_⟩
    · rw [Int.add_comm, Int.sub_add_cancel]
      exact Number.toInt?_add_between hrem hy hge hhigh
    · rintro (hlt | heven)
      · omega
      · rw [Number.toEven_of_dvd heven, Int.sub_self]
    · intro hnot
      rcases Number.toEven_odd (fun heven => hnot (Or.inr heven)) with hup | hdown <;> omega

/-! ## The operators -/

theorem binary_mod (h : y.eq 0 = false) (s : Store) :
    binary .mod (.number x) (.number y) s = .ok (.number ((x % y + y) % y)) s := by
  have harithmetic : arithmetic .mod x y = .ok ((x % y + y) % y) := by
    unfold arithmetic
    dsimp only
    rw [h]
    rfl
  change (do return Value.number (← ofExcept (arithmetic .mod x y)) : Eval Value) s = _
  rw [harithmetic]
  rfl

theorem binary_floorDiv (h : y.eq 0 = false) (s : Store) :
    binary .floorDiv (.number x) (.number y) s = .ok (.number (x / y).floor) s := by
  have harithmetic : arithmetic .floorDiv x y = .ok (x / y).floor := by
    unfold arithmetic
    dsimp only
    rw [h]
    rfl
  change (do return Value.number (← ofExcept (arithmetic .floorDiv x y)) : Eval Value) s = _
  rw [harithmetic]
  rfl

/-- The quotient of two safe integers is floored always. Their remainder is the floored one where the sum that it is
taken of is a number, and only there: else it is the floored remainder of the integer behind the dividend or in front of
it. -/
theorem remainder_of_integers (hx : x.toInt? = some a) (hy : y.toInt? = some b) (ha : a.natAbs < 2 ^ 53)
    (hb : b.natAbs < 2 ^ 53) (hzero : b ≠ 0) (s : Store) :
    ∃ q r c, binary .floorDiv (.number x) (.number y) s = .ok (.number q) s ∧ q.toInt? = some (a.fdiv b) ∧
      binary .mod (.number x) (.number y) s = .ok (.number r) s ∧ r.toInt? = some c ∧
      (KeptSum a b → FlooredRemainder a b c ∧ a = b * a.fdiv b + c) ∧
      (¬ KeptSum a b → ¬ FlooredRemainder a b c ∧
        (FlooredRemainder (a + 1) b c ∨ FlooredRemainder (a - 1) b c)) := by
  have heq : y.eq 0 = false := (Number.eq_of_toInt? hy (Number.toInt?_ofNat (Nat.two_pow_pos 53))).trans
    (decide_eq_false hzero)
  have hquotient := Number.toInt?_floor_div hx hy ha hb hzero
  obtain ⟨hpos, hneg, hsize⟩ := shiftedRemainder_bounds a hzero
  obtain ⟨e, hsum, hkept, hrounded⟩ := toInt?_shifted hx hy hb hzero
  refine ⟨_, _, _, binary_floorDiv heq s, hquotient, binary_mod heq s, Number.toInt?_rem hsum hy hzero, ?_, ?_⟩
  · intro hkeeps
    obtain rfl := hkept hkeeps
    have hfloored := second_remainder hzero (by omega) (by omega) (rfl : shiftedRemainder a b + 0 = _)
    rw [Int.add_zero] at hfloored
    exact ⟨hfloored, hfloored.eq_mul_add⟩
  · intro hnot
    have he := hrounded hnot
    have hoff := second_remainder hzero (by omega) (by omega) (rfl : shiftedRemainder a b + e = _)
    constructor
    · intro hfloored
      -- a sum of 54 bits leaves no room for a divisor of one
      have hdvd := Int.natAbs_dvd_natAbs.mpr (hfloored.dvd_of_add hoff)
      have hone : b.natAbs = 1 := Nat.dvd_one.mp (by rcases he with rfl | rfl <;> exact hdvd)
      exact hnot (Or.inl (by omega))
    · rcases he with rfl | rfl
      · exact Or.inl hoff
      · exact Or.inr hoff

/-- A sum of 54 bits that is even. -/
theorem remainder_of_even_sum :
    (2 : Int) ∣ shiftedRemainder 9007199254740989 9007199254740991 ∧
      ∃ r, binary .mod (.number (.ofNat 9007199254740989)) (.number (.ofNat 9007199254740991)) .empty =
        .ok (.number r) .empty ∧ r.toInt? = some 9007199254740989 := by
  have heven : (2 : Int) ∣ shiftedRemainder 9007199254740989 9007199254740991 := by decide
  obtain ⟨q, r, c, -, -, hmod, hr, hkept, -⟩ :=
    remainder_of_integers (Number.toInt?_ofNat (n := 9007199254740989) (by decide))
      (Number.toInt?_ofNat (n := 9007199254740991) (by decide)) (by decide) (by decide) (by decide) .empty
  have hc : c = 9007199254740989 := by
    have hsplit := (hkept (Or.inr heven)).2
    have hquotient : Int.fdiv ((9007199254740989 : Nat) : Int) ((9007199254740991 : Nat) : Int) = 0 := by decide
    rw [hquotient] at hsplit
    omega
  exact ⟨heven, r, hmod, by rw [hr, hc]⟩

/-- The remainder of an integer in front of the divisor is no longer the integer. -/
theorem remainder_of_rounded_sum :
    textOf [] (.binary 1 .floorDiv (.const 1 (.number (.ofNat 9007199254740990)))
        (.const 1 (.number (.ofNat 9007199254740991)))) = .ok "0" ∧
      textOf [] (.binary 1 .mod (.const 1 (.number (.ofNat 9007199254740990)))
        (.const 1 (.number (.ofNat 9007199254740991)))) = .ok "9007199254740989" ∧
      ¬ FlooredRemainder 9007199254740990 9007199254740991 9007199254740989 ∧
      FlooredRemainder 9007199254740990 9007199254740991 9007199254740990 := by
  refine ⟨by decide +kernel, by decide +kernel, fun h => absurd h.divides (by decide), ?_, ?_, ?_⟩ <;> decide

end Stencil.Eval
