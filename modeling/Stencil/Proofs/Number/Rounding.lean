import Stencil.Proofs.Number.Integers

/-!
How far rounding goes: by half a step at most, where a step is one grain or a part in 2^52 of the quotient. So integers
of 54 bits go to an even neighbour, no integer beyond 2^53 - 1 is rounded to a safe one, and the quotient of two safe
integers stays between the integers next to it.
-/
namespace Stencil.Number

variable {num den m n : Nat}

/-! ## Steps -/

/-- A quotient is rounded by half of one at most. -/
theorem roundDiv_bounds (num : Nat) (hden : 0 < den) :
    2 * num ≤ 2 * (den * roundDiv num den) + den ∧ 2 * (den * roundDiv num den) ≤ 2 * num + den := by
  have hsplit := Nat.div_add_mod num den
  have hmod := Nat.mod_lt num hden
  have hnext : den * (num / den + 1) = den * (num / den) + den := Nat.mul_succ _ _
  unfold roundDiv
  dsimp only
  split
  · omega
  · split
    · rw [hnext]
      omega
    · -- a half goes to the even side
      rcases Nat.mod_two_eq_zero_or_one (num / den) with heven | hodd
      · rw [heven, Nat.add_zero]
        omega
      · rw [hodd, hnext]
        omega

/-- Rounding to 53 significant bits goes by half a step at most. -/
theorem nearest_bounds (num : Nat) (hden : 0 < den) : ∃ step, (step = 1 ∨ 2 ^ 52 * (den * step) ≤ num) ∧
    2 * num ≤ 2 * (den * nearest num den) + den * step ∧ 2 * (den * nearest num den) ≤ 2 * num + den * step := by
  unfold nearest
  dsimp only
  generalize hshift : (num / den).log2 - 52 = shift
  have hbounds := roundDiv_bounds num (Nat.mul_pos hden (Nat.two_pow_pos shift))
  refine ⟨2 ^ shift, ?_, ?_⟩
  · by_cases hzero : shift = 0
    · exact .inl (by rw [hzero, Nat.pow_zero])
    · right
      have hne : num / den ≠ 0 := by
        intro hquotient
        rw [hquotient, Nat.log2_zero] at hshift
        omega
      have hlog : (num / den).log2 = 52 + shift := by omega
      have hpow : 2 ^ (52 + shift) ≤ num / den := by
        rw [← hlog]
        exact Nat.log2_self_le hne
      calc 2 ^ 52 * (den * 2 ^ shift) = den * 2 ^ (52 + shift) := by rw [Nat.pow_add, Nat.mul_left_comm]
        _ ≤ den * (num / den) := Nat.mul_le_mul_left den hpow
        _ ≤ num := Nat.mul_div_le num den
  · have hassoc : den * 2 ^ shift * roundDiv num (den * 2 ^ shift) =
        den * (roundDiv num (den * 2 ^ shift) * 2 ^ shift) := by
      rw [Nat.mul_assoc, Nat.mul_comm (2 ^ shift)]
    rw [hassoc] at hbounds
    exact hbounds

/-- Nothing is rounded below the power of two in front of it. -/
theorem two_pow_le_nearest {k : Nat} (h : 2 ^ k ≤ n) : 2 ^ k ≤ nearest n 1 := by
  have hne : n ≠ 0 := Nat.ne_of_gt (Nat.lt_of_lt_of_le (Nat.two_pow_pos k) h)
  have hle : k ≤ n.log2 := (Nat.le_log2 hne).mpr h
  rw [nearest_one]
  generalize hshift : n.log2 - 52 = shift
  have hsplit : 2 ^ n.log2 = 2 ^ (n.log2 - shift) * 2 ^ shift := by
    rw [← Nat.pow_add]
    congr 1
    omega
  have hquotient : 2 ^ (n.log2 - shift) ≤ n / 2 ^ shift := by
    rw [Nat.le_div_iff_mul_le (Nat.two_pow_pos shift), ← hsplit]
    exact Nat.log2_self_le hne
  calc 2 ^ k ≤ 2 ^ n.log2 := Nat.pow_le_pow_right (by decide) hle
    _ = 2 ^ (n.log2 - shift) * 2 ^ shift := hsplit
    _ ≤ roundDiv n (2 ^ shift) * 2 ^ shift :=
      Nat.mul_le_mul_right _ (Nat.le_trans hquotient (le_roundDiv n (2 ^ shift)))

/-- Rounding leaves something of every count. -/
theorem nearest_pos (h : 0 < n) : 0 < nearest n 1 :=
  two_pow_le_nearest (k := 0) h

/-! ## Integers -/

theorem two_pow_le_unit : 2 ^ 53 ≤ unit := by decide +kernel

theorem lt_limit {grains : Nat} (h : grains ≤ 2 ^ 54 * unit) : grains < limit :=
  Nat.lt_of_le_of_lt h (by decide +kernel)

theorem scaled_le_nearest (h : 2 ^ 53 ≤ n) (bits : Nat) : 2 ^ 53 * Nat.pow 2 bits ≤ nearest (n * Nat.pow 2 bits) 1 := by
  change 2 ^ 53 * 2 ^ bits ≤ nearest (n * 2 ^ bits) 1
  have hle : 2 ^ 53 * 2 ^ bits ≤ n * 2 ^ bits := Nat.mul_le_mul_right _ h
  rw [← Nat.pow_add] at hle ⊢
  exact two_pow_le_nearest hle

/-- An integer beyond the safe ones is not rounded to one of them. -/
theorem isSafeInteger_ofNat_of_le (h : 2 ^ 53 ≤ n) : (ofNat n).isSafeInteger = false := by
  have hgrains : 2 ^ 53 * unit ≤ nearest (n * unit) 1 := by
    unfold unit
    generalize 1074 = bits
    exact scaled_le_nearest h bits
  apply Bool.eq_false_iff.mpr
  intro hsafe
  obtain ⟨i, hi, hsmall⟩ := exists_of_isSafeInteger hsafe
  obtain ⟨negative, m, heq, rfl⟩ := exists_of_toInt? hi
  have hm : (signed negative m).natAbs = m := by cases negative <;> simp [signed]
  have hrounded : nearest (n * unit) 1 = m * unit := by
    have hfinite : ofGrains false (n * unit) 1 = finite negative (m * unit) := heq
    exact (ofGrains_eq_finite_iff.mp hfinite).2.1
  rw [hrounded] at hgrains
  have hlarge := Nat.le_of_mul_le_mul_right hgrains unit_pos
  omega

/-- Integers of 54 bits are rounded to an even one, and of two to the one that four divides. -/
theorem nearest_of_between (hlow : 2 ^ 53 ≤ n) (hhigh : n < 2 ^ 54) (bits : Nat) :
    nearest (n * Nat.pow 2 bits) 1 = roundDiv n 2 * 2 * Nat.pow 2 bits := by
  change nearest (n * 2 ^ bits) 1 = roundDiv n 2 * 2 * 2 ^ bits
  have hpos : 0 < 2 ^ bits := Nat.two_pow_pos bits
  have hne : n * 2 ^ bits ≠ 0 := Nat.mul_ne_zero (by omega) hpos.ne'
  have hlog : (n * 2 ^ bits).log2 = 53 + bits := by
    rw [Nat.log2_eq_iff hne]
    constructor
    · rw [Nat.pow_add]
      exact Nat.mul_le_mul_right _ hlow
    · rw [Nat.add_right_comm, Nat.pow_add]
      exact Nat.mul_lt_mul_of_pos_right hhigh hpos
  have hstep : 53 + bits - 52 = 1 + bits := by omega
  rw [nearest_one, hlog, hstep, Nat.pow_add, Nat.pow_one, roundDiv_mul_right n 2 hpos, Nat.mul_assoc]

theorem ofGrains_between (hlow : 2 ^ 53 ≤ n) (hhigh : n < 2 ^ 54) (negative : Bool) :
    ofGrains negative (n * unit) 1 = finite negative (roundDiv n 2 * 2 * unit) := by
  have hnearest : nearest (n * unit) 1 = roundDiv n 2 * 2 * unit := by
    unfold unit
    generalize 1074 = bits
    exact nearest_of_between hlow hhigh bits
  have hbounds := roundDiv_bounds n Nat.two_pos
  have hlimit : roundDiv n 2 * 2 * unit < limit := lt_limit (Nat.mul_le_mul_right unit (by omega))
  exact ofGrains_eq_finite_iff.mpr ⟨rfl, hnearest, hlimit⟩

/-! ## Quotients of integers -/

/-- The quotient of two integers is rounded by less than it lies from the integers next to it. -/
theorem nearest_quotient_bounds (hm : m < 2 ^ 53) (hpos : 0 < n) (hn : n < 2 ^ 53) :
    m * unit < n * nearest (m * unit) n + unit ∧ n * nearest (m * unit) n < m * unit + unit := by
  have hunit := two_pow_le_unit
  obtain ⟨step, hstep, hlow, hhigh⟩ := nearest_bounds (m * unit) hpos
  have hsmall : n * step < 2 * unit := by
    rcases hstep with rfl | hstep
    · omega
    · have hscaled : m * unit < 2 ^ 53 * unit := Nat.mul_lt_mul_of_pos_right hm unit_pos
      omega
  omega

theorem nearest_multiple (h : m < 2 ^ 53) (hpos : 0 < n) : nearest (n * m * unit) n = m * unit := by
  have hscale := nearest_mul_right (m * unit) 1 hpos
  rw [Nat.one_mul, Nat.mul_right_comm, Nat.mul_comm m n] at hscale
  rw [hscale, nearest_integer h]

/-- A multiple of a step is its own floor and its own ceiling. -/
theorem div_of_multiple {step : Nat} (hstep : 0 < step) (q : Nat) :
    q * step / step = q ∧ (q * step + (step - 1)) / step = q := by
  refine ⟨Nat.mul_div_cancel q hstep, Nat.div_eq_of_lt_le (Nat.le_add_right _ _) ?_⟩
  rw [Nat.succ_mul]
  omega

/-- Between two multiples of a step, one is the floor and the next one is the ceiling. -/
theorem div_of_between {step q x : Nat} (hlow : q * step < x) (hhigh : x < q * step + step) :
    x / step = q ∧ (x + (step - 1)) / step = q + 1 := by
  have hnext : (q + 1) * step = q * step + step := Nat.succ_mul q step
  refine ⟨Nat.div_eq_of_lt_le (Nat.le_of_lt hlow) (by omega), Nat.div_eq_of_lt_le (by omega) ?_⟩
  rw [Nat.succ_mul (q + 1)]
  omega

/-- A quotient of two integers that is none itself stays between the integers next to it: its fraction is a part in `n`
at least, and `n` times the error of rounding is less than one. -/
theorem nearest_quotient_between (hm : m < 2 ^ 53) (hpos : 0 < n) (hn : n < 2 ^ 53) (hrest : 0 < m % n) :
    m / n * unit < nearest (m * unit) n ∧ nearest (m * unit) n < m / n * unit + unit := by
  obtain ⟨hlow, hhigh⟩ := nearest_quotient_bounds hm hpos hn
  have hsplit := Nat.div_add_mod' m n
  have hmod := Nat.mod_lt m hpos
  generalize m / n = q at hsplit ⊢
  generalize m % n = r at hsplit hmod hrest
  generalize nearest (m * unit) n = grains at hlow hhigh ⊢
  generalize unit = one at hlow hhigh ⊢
  have hscaled : m * one = n * (q * one) + r * one := by
    rw [← hsplit, Nat.add_mul, Nat.mul_right_comm, Nat.mul_comm (q * one)]
  constructor
  · have hone : one ≤ r * one := Nat.le_mul_of_pos_left one hrest
    apply Nat.lt_of_not_le
    intro hle
    have hmul := Nat.mul_le_mul_left n hle
    omega
  · have hnearly : r * one + one ≤ n * one := by
      rw [← Nat.succ_mul]
      exact Nat.mul_le_mul_right one hmod
    apply Nat.lt_of_not_le
    intro hle
    have hmul := Nat.mul_le_mul_left n hle
    rw [Nat.mul_add] at hmul
    omega

/-- Rounding a quotient of two integers does not move it past an integer. -/
theorem nearest_quotient_div (hm : m < 2 ^ 53) (hpos : 0 < n) (hn : n < 2 ^ 53) :
    nearest (m * unit) n / unit = m / n ∧ (nearest (m * unit) n + (unit - 1)) / unit = (m + (n - 1)) / n := by
  rcases Nat.eq_zero_or_pos (m % n) with hzero | hrest
  · have hdvd := Nat.dvd_of_mod_eq_zero hzero
    have hgrains := nearest_multiple (Nat.lt_of_le_of_lt (Nat.div_le_self m n) hm) hpos
    rw [Nat.mul_div_cancel' hdvd] at hgrains
    have hceil := (div_of_multiple hpos (m / n)).2
    rw [Nat.div_mul_cancel hdvd] at hceil
    rw [hgrains, hceil]
    exact div_of_multiple unit_pos (m / n)
  · have hsplit := Nat.div_add_mod' m n
    have hmod := Nat.mod_lt m hpos
    obtain ⟨habove, hbelow⟩ := nearest_quotient_between hm hpos hn hrest
    have hfloor : m / n * n < m := by omega
    have hnext : m < m / n * n + n := by omega
    rw [(div_of_between hfloor hnext).2]
    exact div_of_between habove hbelow

theorem ofGrains_quotient (hm : m < 2 ^ 53) (hpos : 0 < n) (hn : n < 2 ^ 53) (negative : Bool) :
    ofGrains negative (m * unit * unit) (n * unit) = finite negative (nearest (m * unit) n) := by
  have hbounds := (nearest_quotient_bounds hm hpos hn).2
  have hmul : nearest (m * unit) n ≤ n * nearest (m * unit) n := Nat.le_mul_of_pos_left _ hpos
  have hlimit : nearest (m * unit) n < limit := by
    apply lt_limit
    have hscaled : (m + 1) * unit ≤ 2 ^ 54 * unit := Nat.mul_le_mul_right unit (by omega)
    rw [Nat.succ_mul] at hscaled
    omega
  exact ofGrains_eq_finite_iff.mpr ⟨rfl, nearest_mul_right (m * unit) n unit_pos, hlimit⟩

/-! ## Operations on integers -/

section operations

variable {x y : Number} {i j : Int}

theorem signed_ne_zero {negative : Bool} (h : signed negative n ≠ 0) : 0 < n := by
  have habs := Int.natAbs_ne_zero.mpr h
  rw [natAbs_signed] at habs
  exact Nat.pos_of_ne_zero habs

theorem tmod_signed (s t : Bool) (m n : Nat) : (signed s m).tmod (signed t n) = signed s (m % n) := by
  have hmod : (m : Int).tmod n = (m % n : Nat) := (Int.ofNat_tmod m n).symm
  cases s <;> cases t <;> simp only [signed, Int.neg_tmod, Int.tmod_neg, hmod, if_true, Bool.false_eq_true, if_false]

/-- A negative quotient is rounded down by rounding its size up. -/
theorem fdiv_signed (s t : Bool) (m : Nat) (hpos : 0 < n) :
    (signed s m).fdiv (signed t n) = signed (s != t) (if s != t then (m + (n - 1)) / n else m / n) := by
  have hceil : (-(m : Int)).fdiv n = -((m + (n - 1)) / n : Nat) := by
    have hsplit := Nat.div_add_mod (m + (n - 1)) n
    have hmod := Nat.mod_lt (m + (n - 1)) hpos
    generalize (m + (n - 1)) / n = q at hsplit
    generalize (m + (n - 1)) % n = r at hsplit hmod
    have hcast : ((n * q : Nat) : Int) = (n : Int) * q := Int.natCast_mul n q
    refine ((Int.fdiv_fmod_unique (r := (n * q : Nat) - (m : Int)) (by omega)).mpr ⟨?_, ?_, ?_⟩).1
    · rw [Int.mul_neg]
      omega
    · omega
    · omega
  cases s <;> cases t
  · exact (Int.ofNat_fdiv m n).symm
  · change (m : Int).fdiv (-(n : Int)) = _
    rw [← Int.neg_neg (m : Int), Int.neg_fdiv_neg]
    exact hceil
  · exact hceil
  · exact (Int.neg_fdiv_neg m n).trans (Int.ofNat_fdiv m n).symm

theorem rem_finite (s t : Bool) (g : Nat) {h : Nat} (hh : h ≠ 0) : finite s g % finite t h = finite s (g % h) :=
  if_neg hh

theorem div_finite (s t : Bool) (g : Nat) {h : Nat} (hh : h ≠ 0) :
    finite s g / finite t h = ofGrains (s != t) (g * unit) h :=
  if_neg hh

theorem toInt?_rem (hx : x.toInt? = some i) (hy : y.toInt? = some j) (hj : j ≠ 0) :
    (x % y).toInt? = some (i.tmod j) := by
  obtain ⟨s, m, rfl, rfl⟩ := exists_of_toInt? hx
  obtain ⟨t, n, rfl, rfl⟩ := exists_of_toInt? hy
  have hne : n * unit ≠ 0 := Nat.mul_ne_zero (signed_ne_zero hj).ne' unit_pos.ne'
  rw [rem_finite s t (m * unit) hne, Nat.mul_mod_mul_right, toInt?_integer, tmod_signed]

theorem toInt?_floor_div (hx : x.toInt? = some i) (hy : y.toInt? = some j) (hi : i.natAbs < 2 ^ 53)
    (hj : j.natAbs < 2 ^ 53) (hzero : j ≠ 0) : (x / y).floor.toInt? = some (i.fdiv j) := by
  obtain ⟨s, m, rfl, rfl⟩ := exists_of_toInt? hx
  obtain ⟨t, n, rfl, rfl⟩ := exists_of_toInt? hy
  have hpos := signed_ne_zero hzero
  rw [natAbs_signed] at hi hj
  have hne : n * unit ≠ 0 := Nat.mul_ne_zero hpos.ne' unit_pos.ne'
  obtain ⟨hfloor, hceil⟩ := nearest_quotient_div hi hpos hj
  rw [div_finite s t (m * unit) hne, ofGrains_quotient hi hpos hj]
  unfold floor
  dsimp only
  rw [hfloor, hceil, toInt?_integer, fdiv_signed s t m hpos]

/-- The even integer that an integer is rounded to where odd ones are no numbers: of two that are as near, the one that
four divides. -/
def toEven (i : Int) : Int := if 2 ∣ i then i else if 4 ∣ i + 1 then i + 1 else i - 1

theorem toEven_of_dvd (h : 2 ∣ i) : toEven i = i := if_pos h

theorem toEven_odd (h : ¬ 2 ∣ i) : toEven i = i + 1 ∨ toEven i = i - 1 := by
  unfold toEven
  rw [if_neg h]
  split
  · exact .inl rfl
  · exact .inr rfl

theorem toEven_neg (i : Int) : toEven (-i) = -toEven i := by
  unfold toEven
  by_cases heven : 2 ∣ i
  · rw [if_pos heven, if_pos (by omega)]
  · rw [if_neg heven, if_neg (by omega)]
    by_cases hup : 4 ∣ i + 1
    · rw [if_pos hup, if_neg (by omega)]
      omega
    · rw [if_neg hup, if_pos (by omega)]
      omega

theorem roundDiv_two (n : Nat) : ((roundDiv n 2 * 2 : Nat) : Int) = toEven n := by
  have hquotient : 2 * (n / 2) + n % 2 = n := Nat.div_add_mod n 2
  unfold roundDiv
  dsimp only
  rcases Nat.mod_two_eq_zero_or_one n with heven | hodd
  · rw [heven, if_pos (by omega), toEven_of_dvd (by omega)]
    omega
  · rw [hodd, if_neg (by omega), if_neg (by omega)]
    unfold toEven
    rw [if_neg (by omega)]
    rcases Nat.mod_two_eq_zero_or_one (n / 2) with hhalf | hhalf
    · rw [hhalf, if_neg (by omega)]
      omega
    · rw [hhalf, if_pos (by omega)]
      omega

theorem signed_roundDiv (negative : Bool) (n : Nat) :
    signed negative (roundDiv n 2 * 2) = toEven (signed negative n) := by
  cases negative with
  | false => exact roundDiv_two n
  | true => exact (congrArg Neg.neg (roundDiv_two n)).trans (toEven_neg n).symm

/-- A sum of integers that takes 54 bits is rounded to an even one. -/
theorem toInt?_add_between (hx : x.toInt? = some i) (hy : y.toInt? = some j) (hlow : 2 ^ 53 ≤ (i + j).natAbs)
    (hhigh : (i + j).natAbs < 2 ^ 54) : (x + y).toInt? = some (toEven (i + j)) := by
  obtain ⟨s, m, rfl, hm⟩ := exists_of_toInt? hx
  obtain ⟨t, n, rfl, hn⟩ := exists_of_toInt? hy
  rw [add_integers s t m n (by omega), hm, hn, ofGrains_between hlow hhigh, toInt?_integer, signed_roundDiv, signed_natAbs]

end operations
end Stencil.Number
