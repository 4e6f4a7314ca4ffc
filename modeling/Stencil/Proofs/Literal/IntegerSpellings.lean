import Stencil.Proofs.Literal.Reading
import Stencil.Proofs.Number.Rounding

/-!
Integers as literals, in every base and of any length. An integer up to 2^53 - 1 is read exactly. A larger one is
refused: the check comes after the conversion to a number, but no larger integer is rounded to one that passes it.
-/
namespace Stencil.Literal

variable {base d n : Nat} {u : CodeUnit} {t : Text} {p : CodeUnit → Bool}

/-! ## Digits -/

/-- A digit of a base and its value. -/
def IsDigitOf (base : Nat) (u : CodeUnit) (d : Nat) : Prop := u.hexValue? = some d ∧ d < base

instance : Decidable (IsDigitOf base u d) := inferInstanceAs (Decidable (_ ∧ _))

/-- An integer and its digits in a base, with single underscores between them. -/
inductive Digits (base : Nat) : Nat → Text → Prop where
  | digit {d : Nat} {u : CodeUnit} (hu : IsDigitOf base u d) : Digits base d [u]
  | next {n d : Nat} {t : Text} {u : CodeUnit} (h : Digits base n t) (hu : IsDigitOf base u d) :
    Digits base (n * base + d) (t ++ [u])
  | apart {n d : Nat} {t : Text} {u : CodeUnit} (h : Digits base n t) (hu : IsDigitOf base u d) :
    Digits base (n * base + d) (t ++ [('_' : CodeUnit), u])

/-- The letter that marks a base. -/
inductive BaseMark : Nat → CodeUnit → Prop where
  | hexadecimal {mark : CodeUnit} (h : mark = 'x' ∨ mark = 'X') : BaseMark 16 mark
  | octal {mark : CodeUnit} (h : mark = 'o' ∨ mark = 'O') : BaseMark 8 mark
  | binary {mark : CodeUnit} (h : mark = 'b' ∨ mark = 'B') : BaseMark 2 mark

/-- An integer and a text that spells it: a decimal without zeros in front, or digits after a base mark. -/
inductive IntegerSpelling : Nat → Text → Prop where
  | zero : IntegerSpelling 0 ['0']
  | decimal {n : Nat} {t : Text} (h : Digits 10 n t) (hhead : t.head? ≠ some ('0' : CodeUnit)) : IntegerSpelling n t
  | marked {base n : Nat} {mark : CodeUnit} {t : Text} (hmark : BaseMark base mark) (h : Digits base n t) :
    IntegerSpelling n ('0' :: mark :: t)
  | markedApart {base n : Nat} {mark : CodeUnit} {t : Text} (hmark : BaseMark base mark) (h : Digits base n t) :
    IntegerSpelling n ('0' :: mark :: '_' :: t)

theorem hexValue?_of_isDigit (hu : u.isDigit = true) : u.hexValue? = some (u.toNat - 0x30) := if_pos hu

/-- A digit with a value below ten is a decimal one. -/
theorem IsDigitOf.isDigit (hu : IsDigitOf 10 u d) : u.isDigit = true ∧ u.toNat - 0x30 = d := by
  obtain ⟨hvalue, hlt⟩ := hu
  unfold CodeUnit.hexValue? at hvalue
  split at hvalue
  · rename_i hdigit
    exact ⟨hdigit, Option.some.inj hvalue⟩
  · split at hvalue
    · have hd := Option.some.inj hvalue
      omega
    · split at hvalue
      · have hd := Option.some.inj hvalue
        omega
      · cases hvalue

theorem IsDigitOf.isNumberUnit (hu : IsDigitOf base u d) : isNumberUnit u = true := by
  have hvalue := hu.1
  unfold CodeUnit.hexValue? at hvalue
  unfold Literal.isNumberUnit CodeUnit.isNamePart CodeUnit.isNameStart CodeUnit.isLetter CodeUnit.isDigit
  split at hvalue
  · rename_i hdigit
    rw [hdigit]
    simp
  · split at hvalue
    · rename_i hletter
      simp only [Bool.and_eq_true, decide_eq_true_eq] at hletter
      have hle : u ≤ 'z' := UInt16.le_trans hletter.2 (by decide)
      simp [hletter.1, hle]
    · split at hvalue
      · rename_i hletter
        simp only [Bool.and_eq_true, decide_eq_true_eq] at hletter
        have hle : u ≤ 'Z' := UInt16.le_trans hletter.2 (by decide)
        simp [hletter.1, hle]
      · cases hvalue

theorem IsDigitOf.ne_underscore (hu : IsDigitOf base u d) : u ≠ '_' := by
  rintro rfl
  have hnone : CodeUnit.hexValue? '_' = none := by decide
  cases hnone.symm.trans hu.1

theorem Digits.all (h : Digits base n t) : ∀ u ∈ t, (∃ d, IsDigitOf base u d) ∨ u = '_' := by
  induction h with
  | digit hu => exact List.forall_mem_singleton.mpr (.inl ⟨_, hu⟩)
  | next _ hu ih =>
    intro v hv
    rcases List.mem_append.mp hv with hv | hv
    · exact ih v hv
    · obtain rfl := List.mem_singleton.mp hv
      exact .inl ⟨_, hu⟩
  | apart _ hu ih =>
    intro v hv
    rcases List.mem_append.mp hv with hv | hv
    · exact ih v hv
    · rcases List.mem_cons.mp hv with rfl | hv
      · exact .inr rfl
      · obtain rfl := List.mem_singleton.mp hv
        exact .inl ⟨_, hu⟩

theorem Digits.exists_cons (h : Digits base n t) : ∃ u rest d, t = u :: rest ∧ IsDigitOf base u d := by
  induction h with
  | digit hu => exact ⟨_, _, _, rfl, hu⟩
  | next _ _ ih | apart _ _ ih =>
    obtain ⟨u, rest, d, rfl, hu⟩ := ih
    exact ⟨u, _, d, rfl, hu⟩

/-! ## Runs of digits -/

/-- The rest of a run, behind a digit of it. -/
def runAfter (p : CodeUnit → Bool) : Text → Nat
  | u :: v :: rest => if u = '_' && p v then 1 + Text.runLength p (v :: rest) else Text.runLength p (u :: v :: rest)
  | t => Text.runLength p t

theorem runLength_cons (hu : p u = true) (t : Text) : Text.runLength p (u :: t) = 1 + runAfter p t := by
  rcases t with _ | ⟨v, _ | ⟨w, rest⟩⟩
  · exact if_pos hu
  · rw [Text.runLength, if_pos hu, Bool.and_false, if_neg Bool.false_ne_true]
    rfl
  · rw [Text.runLength, if_pos hu]
    unfold runAfter
    dsimp only
    split
    · omega
    · rfl

theorem runAfter_digit (hu : p u = true) (hmark : u ≠ '_') (t : Text) : runAfter p (u :: t) = 1 + runAfter p t := by
  rw [← runLength_cons hu]
  cases t with
  | nil => rfl
  | cons v t =>
    unfold runAfter
    dsimp only
    rw [decide_eq_false hmark, Bool.false_and, if_neg Bool.false_ne_true]

theorem runAfter_apart (hu : p u = true) (t : Text) : runAfter p ('_' :: u :: t) = 2 + runAfter p t := by
  have hrun : runAfter p ('_' :: u :: t) = 1 + Text.runLength p (u :: t) := if_pos (by rw [hu]; rfl)
  rw [hrun, runLength_cons hu]
  omega

/-- All of an integer's digits are in one run, and the run goes on behind them as behind any digit. -/
theorem Digits.runLength (hp : ∀ u d, IsDigitOf base u d → p u = true) (h : Digits base n t) :
    ∀ rest, Text.runLength p (t ++ rest) = t.length + runAfter p rest := by
  induction h with
  | digit hu => exact fun rest => runLength_cons (hp _ _ hu) rest
  | next _ hu ih =>
    intro rest
    rw [List.append_assoc, ih, List.singleton_append, runAfter_digit (hp _ _ hu) hu.ne_underscore, List.length_append,
      List.length_singleton, Nat.add_assoc]
  | apart _ hu ih =>
    intro rest
    rw [List.append_assoc, ih, List.cons_append, List.singleton_append, runAfter_apart (hp _ _ hu), List.length_append,
      List.length_cons, List.length_singleton, Nat.add_assoc]

theorem Digits.isRun (hp : ∀ u d, IsDigitOf base u d → p u = true) (h : Digits base n t) : Text.isRun p t = true := by
  have hlength := h.runLength hp []
  rw [List.append_nil] at hlength
  obtain ⟨u, rest, d, rfl, hu⟩ := h.exists_cons
  unfold Text.isRun
  rw [hlength]
  exact decide_eq_true rfl

/-! ## Values -/

/-- The digits alone. -/
def bare (t : Text) : Text := t.filter (· != ('_' : CodeUnit))

theorem bare_append (t rest : Text) : bare (t ++ rest) = bare t ++ bare rest := List.filter_append _ _

theorem bare_cons (hu : u ≠ '_') (t : Text) : bare (u :: t) = u :: bare t :=
  List.filter_cons_of_pos (bne_iff_ne.mpr hu)

theorem bare_digit (hu : IsDigitOf base u d) : bare [u] = [u] := bare_cons hu.ne_underscore []

theorem bare_apart (hu : IsDigitOf base u d) : bare ['_', u] = [u] := bare_digit hu

theorem Digits.bare_ne_nil (h : Digits base n t) : bare t ≠ [] := by
  obtain ⟨u, rest, d, rfl, hu⟩ := h.exists_cons
  rw [bare_cons hu.ne_underscore]
  exact List.cons_ne_nil _ _

theorem Digits.bare_all (h : Digits base n t) : ∀ u ∈ bare t, ∃ d, IsDigitOf base u d := by
  intro u hu
  obtain ⟨hmem, hmark⟩ := List.mem_filter.mp hu
  rcases h.all u hmem with hdigit | rfl
  · exact hdigit
  · cases hmark

/-- What is read of the digits in a base, underscores aside. -/
theorem Digits.inBase? (h : Digits base n t) : Number.inBase? base (bare t) = some n := by
  have hempty : (bare t).isEmpty = false := List.isEmpty_eq_false_iff.mpr h.bare_ne_nil
  unfold Number.inBase?
  rw [hempty, if_neg Bool.false_ne_true]
  clear hempty
  have hstep : ∀ {n u d}, IsDigitOf base u d → ([u] : Text).foldl (fun n u => do
      let n ← n
      let d ← u.hexValue?
      if d < base then some (n * base + d) else none) (some n) = some (n * base + d) := by
    intro n u d hu
    rw [List.foldl_cons, List.foldl_nil, hu.1]
    exact if_pos hu.2
  induction h with
  | digit hu =>
    rw [bare_digit hu, hstep hu, Nat.zero_mul, Nat.zero_add]
  | next _ hu ih => rw [bare_append, List.foldl_append, ih, bare_digit hu, hstep hu]
  | apart _ hu ih => rw [bare_append, List.foldl_append, ih, bare_apart hu, hstep hu]

theorem Digits.digitsValue (h : Digits 10 n t) : Text.digitsValue (bare t) = n := by
  have hstep : ∀ {n u d}, IsDigitOf 10 u d →
      ([u] : Text).foldl (fun n u => if u.isDigit then n * 10 + (u.toNat - 0x30) else n) n = n * 10 + d := by
    intro n u d hu
    obtain ⟨hdigit, hvalue⟩ := hu.isDigit
    rw [List.foldl_cons, List.foldl_nil, if_pos hdigit, hvalue]
  unfold Text.digitsValue
  induction h with
  | digit hu => rw [bare_digit hu, hstep hu, Nat.zero_mul, Nat.zero_add]
  | next _ hu ih => rw [bare_append, List.foldl_append, ih, bare_digit hu, hstep hu]
  | apart _ hu ih => rw [bare_append, List.foldl_append, ih, bare_apart hu, hstep hu]

/-- What is read of decimal digits as a number, underscores aside. -/
theorem Digits.ofText? (h : Digits 10 n t) : Number.ofText? (bare t) = some (.ofDecimal false ⟨n, 0⟩) := by
  have hdigits : ∀ u ∈ bare t, u.isDigit = true := by
    intro u hu
    obtain ⟨d, hd⟩ := h.bare_all u hu
    exact hd.isDigit.1
  rw [Number.ofText?_of_digits h.bare_ne_nil hdigits, h.digitsValue]

/-! ## Tokens -/

/-- A number is the integer where that is a safe one, and no safe integer else. -/
def Approximates (x : Number) (n : Nat) : Prop :=
  (n < 2 ^ 53 → x = .ofNat n) ∧ (2 ^ 53 ≤ n → x.isSafeInteger = false)

theorem approximates_ofNat (n : Nat) : Approximates (.ofNat n) n := ⟨fun _ => rfl, Number.isSafeInteger_ofNat_of_le⟩

theorem approximates_ofDecimal (n : Nat) : Approximates (.ofDecimal false ⟨n, 0⟩) n := by
  refine ⟨Number.ofDecimal_integer, ?_⟩
  intro hlarge
  unfold Number.ofDecimal
  dsimp only
  rw [if_neg (by omega)]
  split
  · rfl
  · rw [if_neg (by omega)]
    change (Number.ofRatio false (n * 1) 1).isSafeInteger = false
    rw [Nat.mul_one]
    exact Number.isSafeInteger_ofNat_of_le hlarge

/-- The token is a spelled integer, and its digits are read as an approximation of it. -/
structure IntegerToken (n : Nat) (t : Text) : Prop where
  spelled : ((markedBase? t).isSome || isDecimalInteger t) = true
  read : ∃ x, Number.ofText? (bare t) = some x ∧ Approximates x n

theorem IntegerToken.numberOf (h : IntegerToken n t) :
    (n < 2 ^ 53 → numberOf t = .ok (.ofNat n)) ∧ (2 ^ 53 ≤ n → numberOf t = .error (.inexactInteger t)) := by
  obtain ⟨x, hx, hsmall, hlarge⟩ := h.read
  have hnumber : Literal.numberOf t = if x.isSafeInteger then .ok x else .error (.inexactInteger t) := by
    unfold bare at hx
    unfold Literal.numberOf
    dsimp only
    rw [h.spelled, if_pos rfl, hx, Option.getD_some]
  constructor
  · intro hlt
    rw [hnumber, hsmall hlt, Number.isSafeInteger_ofNat hlt, if_pos rfl]
  · intro hle
    rw [hnumber, hlarge hle, if_neg Bool.false_ne_true]

theorem integerToken_decimal (h : Digits 10 n t) (hhead : t.head? ≠ some ('0' : CodeUnit)) : IntegerToken n t := by
  constructor
  case spelled =>
    have hrun := h.isRun (p := CodeUnit.isDigit) fun _ _ hu => hu.isDigit.1
    obtain ⟨u, rest, d, rfl, -⟩ := h.exists_cons
    have hu : u ≠ '0' := fun heq => hhead (congrArg some heq)
    have hdecimal : isDecimalInteger (u :: rest) = true := (if_neg hu).trans hrun
    rw [hdecimal, Bool.or_true]
  case read => exact ⟨_, h.ofText?, approximates_ofDecimal n⟩

/-- Whether a unit is a digit, as base marks are followed by them. -/
def isBelow (base : Nat) (u : CodeUnit) : Bool :=
  match u.hexValue? with
  | some d => d < base
  | none => false

theorem IsDigitOf.isBelow (hu : IsDigitOf base u d) : isBelow base u = true := by
  unfold Literal.isBelow
  rw [hu.1]
  exact decide_eq_true hu.2

/-- The digits behind a base mark, without an underscore in front. -/
def afterMark : Text → Text
  | u :: rest => if u = '_' then rest else u :: rest
  | [] => []

theorem markedBase?_eq (mark : CodeUnit) (digits : Text) : markedBase? ('0' :: mark :: digits) =
    if (mark = 'x' || mark = 'X') && Text.isRun (Literal.isBelow 16) (afterMark digits) then some 16
    else if (mark = 'o' || mark = 'O') && Text.isRun (Literal.isBelow 8) (afterMark digits) then some 8
    else if (mark = 'b' || mark = 'B') && Text.isRun (Literal.isBelow 2) (afterMark digits) then some 2
    else none := by
  cases digits <;> rfl

theorem markedBase?_digits {mark : CodeUnit} (hmark : BaseMark base mark) {digits : Text}
    (hrun : Text.isRun (Literal.isBelow base) (afterMark digits) = true) :
    markedBase? ('0' :: mark :: digits) = some base := by
  rw [markedBase?_eq]
  cases hmark with
  | hexadecimal h | octal h | binary h =>
    rw [hrun]
    rcases h with rfl | rfl <;> rfl

theorem ofText?_marked {mark : CodeUnit} (hmark : BaseMark base mark) (h : Number.inBase? base t = some n) :
    Number.ofText? ('0' :: mark :: t) = some (.ofNat n) := by
  have hmarked : Number.marked? ('0' :: mark :: t) = some (.ofNat n) := by
    cases hmark with
    | hexadecimal hmark | octal hmark | binary hmark => rcases hmark with rfl | rfl <;> simp +decide [Number.marked?, h]
  unfold Number.ofText?
  rw [hmarked]

theorem BaseMark.ne_underscore {mark : CodeUnit} (h : BaseMark base mark) : mark ≠ '_' := by
  cases h with
  | hexadecimal h | octal h | binary h => rcases h with rfl | rfl <;> decide

theorem BaseMark.isNumberUnit {mark : CodeUnit} (h : BaseMark base mark) : isNumberUnit mark = true := by
  cases h with
  | hexadecimal h | octal h | binary h => rcases h with rfl | rfl <;> decide

/-- Digits behind a base mark, and perhaps an underscore. -/
theorem integerToken_marked {mark : CodeUnit} (hmark : BaseMark base mark) (h : Digits base n t) :
    IntegerToken n ('0' :: mark :: t) ∧ IntegerToken n ('0' :: mark :: '_' :: t) := by
  have hrun := h.isRun (p := Literal.isBelow base) fun _ _ hu => hu.isBelow
  have hread := ofText?_marked hmark h.inBase?
  have hbare : bare ('0' :: mark :: t) = ('0' : CodeUnit) :: mark :: bare t := by
    rw [bare_cons (by decide), bare_cons hmark.ne_underscore]
  have hplain : afterMark t = t := by
    obtain ⟨u, rest, d, rfl, hu⟩ := h.exists_cons
    exact if_neg hu.ne_underscore
  rw [← hbare] at hread
  constructor
  · have hbase : markedBase? ('0' :: mark :: t) = some base := markedBase?_digits hmark (hplain.symm ▸ hrun)
    exact ⟨by rw [hbase]; rfl, _, hread, approximates_ofNat n⟩
  · have hbase : markedBase? ('0' :: mark :: '_' :: t) = some base := markedBase?_digits hmark hrun
    exact ⟨by rw [hbase]; rfl, _, hread, approximates_ofNat n⟩

theorem integerToken_spelling (h : IntegerSpelling n t) : IntegerToken n t := by
  cases h with
  | zero => exact ⟨rfl, _, Number.ofText?_digits (Nat.two_pow_pos 53), approximates_ofNat 0⟩
  | decimal h hhead => exact integerToken_decimal h hhead
  | marked hmark h => exact (integerToken_marked hmark h).1
  | markedApart hmark h => exact (integerToken_marked hmark h).2

/-! ## Whole texts -/

/-- A text that starts with a digit and consists of what number tokens may hold. -/
structure IsToken (t : Text) : Prop where
  head : ∃ u rest, t = u :: rest ∧ u.isDigit = true
  units : ∀ u ∈ t, isNumberUnit u = true

theorem Digits.units (h : Digits base n t) : ∀ u ∈ t, isNumberUnit u = true := by
  intro u hu
  rcases h.all u hu with ⟨d, hd⟩ | rfl
  · exact hd.isNumberUnit
  · decide

theorem isToken_spelling (h : IntegerSpelling n t) : IsToken t := by
  cases h with
  | zero => exact ⟨⟨'0', [], rfl, by decide⟩, List.forall_mem_singleton.mpr (by decide)⟩
  | decimal h hhead =>
    obtain ⟨u, rest, d, ht, hu⟩ := h.exists_cons
    exact ⟨⟨u, rest, ht, hu.isDigit.1⟩, h.units⟩
  | marked hmark h =>
    exact ⟨⟨'0', _, rfl, by decide⟩, by simpa [hmark.isNumberUnit] using ⟨by decide, h.units⟩⟩
  | markedApart hmark h =>
    refine ⟨⟨'0', _, rfl, by decide⟩, ?_⟩
    simpa [hmark.isNumberUnit] using ⟨by decide, by decide, h.units⟩

theorem tokenLength_all (hex : Bool) (h : ∀ u ∈ t, isNumberUnit u = true) :
    ∀ previous, tokenLength hex previous t = t.length := by
  induction t with
  | nil => exact fun _ => rfl
  | cons u t ih =>
    intro previous
    obtain ⟨hu, h⟩ := List.forall_mem_cons.mp h
    rw [tokenLength, hu, Bool.true_or, if_pos rfl, ih h, List.length_cons, Nat.add_comm]

/-- All of a token is taken as one number. -/
theorem number_token (h : IsToken t) : number t =
    match numberOf t with
    | .ok x => .ok (x, [])
    | .error cause => .error ⟨cause, 0⟩ := by
  unfold number
  dsimp only
  rw [tokenLength_all _ h.units, List.take_length, List.drop_length]
  rfl

/-- The sign of a literal. -/
def signText (negative : Bool) : Text := if negative then ['-'] else []

theorem value_token (h : IsToken t) (fuel : Nat) : value (fuel + 1) t = (do
    let (x, rest) ← number t
    return (.number x, rest)) := by
  obtain ⟨u, rest, rfl, hu⟩ := h.head
  rw [value_of_isNumberUnit (isNumberUnit_of_isDigit hu), hu, Bool.true_or, if_pos rfl]

theorem value_minus (fuel : Nat) (h : IsToken t) : value (fuel + 1) ('-' :: t) = (do
    let (x, rest) ← number t
    return (.number (-x), rest)) := by
  obtain ⟨u, rest, rfl, hu⟩ := h.head
  have htrim := trimLeft_cons (isBlank_of_isNumberUnit (isNumberUnit_of_isDigit hu)) rest
  change (do
    let (x, rest) ← number (Text.trimLeft (u :: rest))
    return (Datum.number (if ('-' : CodeUnit) = '-' then -x else x), rest)) = _
  rw [htrim]
  rfl

/-- A token and a sign are the literal for the number of the token, or for no number as the token is. -/
theorem parse_token (h : IsToken t) (negative : Bool) : parse (signText negative ++ t) =
    match numberOf t with
    | .ok x => .ok (.number (if negative then -x else x))
    | .error cause => .error ⟨cause, (signText negative ++ t).length, signText negative ++ t⟩ := by
  have hvalue : ∀ fuel, value (fuel + 1) (signText negative ++ t) = (do
      let (x, rest) ← number t
      return (.number (if negative then -x else x), rest)) := by
    intro fuel
    cases negative with
    | false => exact value_token h fuel
    | true => exact value_minus fuel h
  unfold parse
  dsimp only
  rw [hvalue, number_token h]
  cases numberOf t with
  | ok x => rfl
  | error cause => rfl

/-! ## Integers -/

theorem digits_ofNat (n : Nat) : Digits 10 n (Text.ofNat n) := by
  induction n using Nat.strongRecOn with
  | ind n ih =>
    have hdigit : IsDigitOf 10 (CodeUnit.ofChar (Nat.digitChar (n % 10))) (n % 10) := by
      obtain ⟨hdigit, hvalue⟩ := Text.digitChar_facts (n % 10) (Nat.mod_lt n (by omega))
      exact ⟨by rw [hexValue?_of_isDigit hdigit, hvalue], Nat.mod_lt n (by omega)⟩
    rw [Text.ofNat_eq]
    by_cases hlt : n < 10
    · rw [if_pos hlt, List.nil_append]
      rw [Nat.mod_eq_of_lt hlt] at hdigit ⊢
      exact .digit hdigit
    · rw [if_neg hlt]
      have hnext := (ih (n / 10) (by omega)).next hdigit
      rwa [Nat.div_add_mod' n 10] at hnext

theorem integerSpelling_ofNat (n : Nat) : IntegerSpelling n (Text.ofNat n) := by
  rcases Nat.eq_zero_or_pos n with rfl | hpos
  · exact .zero
  · apply IntegerSpelling.decimal (digits_ofNat n)
    obtain ⟨u, rest, heq, hu⟩ := Text.ofNat_head hpos
    rw [heq]
    exact fun hhead => hu (Option.some.inj hhead)

theorem toInt?_signed {x : Number} (hx : x.toInt? = some (n : Int)) (negative : Bool) :
    (if negative then -x else x).toInt? = some (Number.signed negative n) := by
  cases negative with
  | false => exact hx
  | true => exact Number.toInt?_neg hx

theorem parse_number (h : IsToken t) {x : Number} (hx : numberOf t = .ok x) (negative : Bool) :
    parse (signText negative ++ t) = .ok (.number (if negative then -x else x)) := by
  rw [parse_token h, hx]

/-- A safe integer is what its spelling is read as. -/
theorem parse_safe (h : IntegerSpelling n t) (hn : n < 2 ^ 53) (negative : Bool) :
    ∃ x, parse (signText negative ++ t) = .ok (.number x) ∧ x = (if negative then -.ofNat n else .ofNat n) ∧
      x.toInt? = some (Number.signed negative n) :=
  ⟨_, parse_number (isToken_spelling h) ((integerToken_spelling h).numberOf.1 hn) negative, rfl,
    toInt?_signed (Number.toInt?_ofNat hn) negative⟩

/-- A larger integer is refused. -/
theorem parse_unsafe (h : IntegerSpelling n t) (hn : 2 ^ 53 ≤ n) (negative : Bool) :
    parse (signText negative ++ t) =
      .error ⟨.inexactInteger t, (signText negative ++ t).length, signText negative ++ t⟩ := by
  rw [parse_token (isToken_spelling h), (integerToken_spelling h).numberOf.2 hn]

theorem infer_toText {x : Number} {i : Int} (hx : x.toInt? = some i) (hi : i.natAbs < 2 ^ 53) :
    ∃ y, infer x.toText = .number y ∧ y.toInt? = some i := by
  obtain ⟨y, hparse, -, hy⟩ := parse_safe (integerSpelling_ofNat i.natAbs) hi (decide (i < 0))
  have htext : x.toText = signText (decide (i < 0)) ++ Text.ofNat i.natAbs := by
    rw [Number.toText_of_toInt? hx hi]
    by_cases hneg : i < 0
    · rw [if_pos hneg, decide_eq_true hneg]
      rfl
    · rw [if_neg hneg, decide_eq_false hneg]
      rfl
  rw [Number.signed_natAbs] at hy
  refine ⟨y, ?_, hy⟩
  unfold infer
  rw [htext, hparse]

/-- Every spelling of an integer, with a minus or without, is read as exactly that integer where it is a safe one, and
stays a text else. So the text of every safe integer is read back as the integer. -/
theorem integers_exact_or_refused :
    (∀ n t, IntegerSpelling n t → ∀ negative,
      (n < 2 ^ 53 → ∃ x, parse (signText negative ++ t) = .ok (.number x) ∧
        x = (if negative then -.ofNat n else .ofNat n) ∧ x.toInt? = some (Number.signed negative n)) ∧
      (2 ^ 53 ≤ n → parse (signText negative ++ t) =
          .error ⟨.inexactInteger t, (signText negative ++ t).length, signText negative ++ t⟩ ∧
        infer (signText negative ++ t) = .text (signText negative ++ t))) ∧
    ∀ (x : Number) (i : Int), x.toInt? = some i → i.natAbs < 2 ^ 53 →
      ∃ y, infer x.toText = .number y ∧ y.toInt? = some i := by
  constructor
  · intro n t h negative
    refine ⟨fun hn => parse_safe h hn negative, fun hn => ?_⟩
    have hparse := parse_unsafe h hn negative
    refine ⟨hparse, ?_⟩
    unfold infer
    rw [hparse]
  · intro x i hx hi
    exact infer_toText hx hi

/-- A negative hexadecimal integer with an underscore, the first integer that is refused, and the text of the last one
that is not. -/
theorem integers_exact_or_refused_of_three :
    (∃ x, parse ['-', '0', 'x', '_', '1', 'F'] = .ok (.number x) ∧ x.toInt? = some (-31)) ∧
      infer (Text.ofNat 9007199254740992) = .text (Text.ofNat 9007199254740992) ∧
      ∃ y, infer (Number.ofNat 9007199254740991).toText = .number y ∧ y.toInt? = some 9007199254740991 := by
  have hone : Digits 16 1 ['1'] := .digit (by decide)
  have hdigits : Digits 16 31 ['1', 'F'] := .next (d := 15) hone (by decide)
  have hspelling : IntegerSpelling 31 ['0', 'x', '_', '1', 'F'] := .markedApart (.hexadecimal (.inl rfl)) hdigits
  obtain ⟨hspelled, htext⟩ := integers_exact_or_refused
  obtain ⟨x, hparse, -, hx⟩ := (hspelled _ _ hspelling true).1 (by decide)
  refine ⟨⟨x, hparse, hx⟩, ?_, ?_⟩
  · exact ((hspelled _ _ (integerSpelling_ofNat 9007199254740992) false).2 (by decide)).2
  · exact htext _ _ (Number.toInt?_ofNat (by decide)) (by decide)

end Stencil.Literal
