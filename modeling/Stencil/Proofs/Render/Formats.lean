import Mathlib.Data.List.Basic
import Stencil.Proofs.Number.Integers
import Stencil.Proofs.Running
import Stencil.Render.Operate

/-!
Formats that are written out of plain texts and conversions, and what a list of values fills them in to. Whatever stands
behind a percent sign or a conversion in a plain text is left alone.
-/
namespace Stencil

/-- A conversion of any value, as it is written: quoted or not, to the left or to the right of a width. The width zero
is not written. -/
structure Hole where
  quoted : Bool
  left : Bool
  width : Nat

namespace Hole

def letter (h : Hole) : CodeUnit := if h.quoted then 'r' else 's'

def digits (h : Hole) : Text := if h.width = 0 then [] else Text.ofNat h.width

/-- What is written behind the percent sign. -/
def body (h : Hole) : Text := (if h.left then [('-' : CodeUnit)] else []) ++ h.digits ++ [h.letter]

/-- What is read back. -/
def conversion (h : Hole) (index : Nat) : Conversion :=
  ⟨index, none, if h.left then some ('-' : CodeUnit) else none, h.width, none, some h.letter⟩

/-- A text with blanks up to the width. -/
def padded (h : Hole) (t : Text) : Text :=
  let blanks := List.replicate (h.width - t.length) (' ' : CodeUnit)
  if h.left then t ++ blanks else blanks ++ t

/-- The text of a value, quoted if that is asked for. -/
def textOf? (h : Hole) (s : Store) (v : Value) : Option Text := if h.quoted then s.repr? v else s.display? v

/-- The text that stands for a value, unless the value has none or there is no text of that width. -/
def write (h : Hole) (s : Store) (v : Value) : Except Fault Text :=
  match h.textOf? s v with
  | none => .error .tooDeep
  | some t => if t.length < h.width && maxTextLength < h.width then .error .textTooLong else .ok (h.padded t)

/-- A value that has a text, which no width makes longer than a text can be. -/
def Takes (h : Hole) (s : Store) (v : Value) : Prop :=
  ∃ t, h.textOf? s v = some t ∧ (h.width ≤ t.length ∨ h.width ≤ maxTextLength)

/-- The text that stands for a value that has one. -/
def written (h : Hole) (s : Store) (v : Value) : Text := h.padded ((h.textOf? s v).getD [])

theorem write_eq {h : Hole} {s : Store} {v : Value} (htakes : h.Takes s v) : h.write s v = .ok (h.written s v) := by
  obtain ⟨t, htext, hwidth⟩ := htakes
  have hfits : ¬ (t.length < h.width && maxTextLength < h.width) = true := by
    rw [Bool.and_eq_true, decide_eq_true_eq, decide_eq_true_eq]
    omega
  unfold write written
  rw [htext]
  exact if_neg hfits

end Hole

/-- A plain text inside a format: each percent sign is written twice. -/
def doubled (t : Text) : Text := t.flatMap fun (u : CodeUnit) => if u = '%' then ['%', '%'] else [u]

/-- A format: conversions after a plain text, each with a plain text behind it. -/
def formatOf (first : Text) (rest : List (Hole × Text)) : Text :=
  doubled first ++ rest.flatMap fun p => ('%' : CodeUnit) :: p.1.body ++ doubled p.2

/-! ## Reading a conversion -/

section reading

variable {flag digits rest t : Text} {letter u : CodeUnit} {index : Nat}

/-- A unit that ends a conversion, whatever comes before or behind it. -/
structure Final (u : CodeUnit) : Prop where
  notKey : u ≠ '('
  notFlag : (u = '-' || u = '0') = false
  notDigit : u.isDigit = false
  notPoint : u ≠ '.'
  notLineEnd : u.isLineEnd = false

theorem Hole.final (h : Hole) : Final h.letter := by
  unfold Hole.letter
  cases h.quoted <;> exact ⟨by decide, by decide, by decide, by decide, by decide⟩

theorem final_percent : Final '%' := ⟨by decide, by decide, by decide, by decide, by decide⟩

theorem spanDigits_digits (hdigits : ∀ d ∈ digits, d.isDigit = true) (hu : Final u) (rest : Text) :
    Conversion.spanDigits (digits ++ u :: rest) = (digits, u :: rest) := by
  unfold Conversion.spanDigits
  rw [List.takeWhile_append_of_pos hdigits, List.dropWhile_append_of_pos hdigits,
    List.takeWhile_cons_of_neg (by simp [hu.notDigit]), List.dropWhile_cons_of_neg (by simp [hu.notDigit]), List.append_nil]

theorem readKey_cons (h : u ≠ '(') (rest : Text) : Conversion.readKey (u :: rest) = (none, u :: rest) := if_neg h

/-- Digits that do not start with a zero, or the letter itself, are no flag and no key. -/
theorem unflagged (hdigits : ∀ d ∈ digits, d.isDigit = true) (hhead : digits.head? ≠ some ('0' : CodeUnit)) (hu : Final u)
    (rest : Text) : ∃ v more, digits ++ u :: rest = v :: more ∧ v ≠ '(' ∧ (v = '-' || v = '0') = false := by
  cases digits with
  | nil => exact ⟨u, rest, rfl, hu.notKey, hu.notFlag⟩
  | cons d ds =>
    have hd := hdigits d List.mem_cons_self
    have hzero : d ≠ '0' := fun h => hhead (congrArg some h)
    have hdash : d ≠ '-' := Number.ne_of_isDigit hd (by decide)
    refine ⟨d, ds ++ u :: rest, rfl, Number.ne_of_isDigit hd (by decide), ?_⟩
    rw [decide_eq_false hdash, decide_eq_false hzero]
    rfl

/-- A conversion is read up to its letter, and the rest is left alone. -/
theorem read_eq (left : Bool) (hdigits : ∀ d ∈ digits, d.isDigit = true) (hhead : digits.head? ≠ some ('0' : CodeUnit))
    (hu : Final u) (index : Nat) (rest : Text) :
    Conversion.read index ((if left then [('-' : CodeUnit)] else []) ++ digits ++ u :: rest) =
      (⟨index, none, if left then some ('-' : CodeUnit) else none, Text.digitsValue digits, none, some u⟩, rest) := by
  have hspan := spanDigits_digits hdigits hu rest
  have hprecision : Conversion.readPrecision (u :: rest) = (none, u :: rest) := by
    unfold Conversion.readPrecision
    simp [hu.notPoint]
  have hletter : Conversion.takeUnit (fun u => !u.isLineEnd) (u :: rest) = (some u, rest) := by
    unfold Conversion.takeUnit
    simp [hu.notLineEnd]
  unfold Conversion.read
  cases left with
  | true =>
    have hkey := readKey_cons (u := '-') (by decide) (digits ++ u :: rest)
    have hflag : Conversion.takeUnit (fun u => u = '-' || u = '0') (('-' : CodeUnit) :: (digits ++ u :: rest)) =
        (some ('-' : CodeUnit), digits ++ u :: rest) := rfl
    simp only [if_true, List.cons_append, List.nil_append, hkey, hflag, hspan, hprecision, hletter]
  | false =>
    obtain ⟨v, more, heq, hv, hnot⟩ := unflagged hdigits hhead hu rest
    have hkey := readKey_cons hv more
    have hflag : Conversion.takeUnit (fun u => u = '-' || u = '0') (v :: more) = (none, v :: more) := by
      unfold Conversion.takeUnit
      simp only [hnot]
      rfl
    rw [← heq] at hkey hflag
    simp only [Bool.false_eq_true, if_false, List.nil_append, hkey, hflag, hspan, hprecision, hletter]

theorem Hole.digits_facts (h : Hole) : (∀ d ∈ h.digits, d.isDigit = true) ∧ h.digits.head? ≠ some ('0' : CodeUnit) ∧
    Text.digitsValue h.digits = h.width := by
  unfold Hole.digits
  split
  · rename_i hzero
    exact ⟨List.forall_mem_nil _, fun h => Option.some_ne_none _ h.symm, hzero.symm⟩
  · rename_i hpos
    obtain ⟨u, more, heq, hu⟩ := Text.ofNat_head (Nat.pos_of_ne_zero hpos)
    refine ⟨Text.isDigit_of_mem_ofNat h.width, ?_, Text.digitsValue_ofNat h.width⟩
    rw [heq]
    exact fun h => hu (Option.some.inj h)

theorem Hole.read_body (h : Hole) (index : Nat) (rest : Text) :
    Conversion.read index (h.body ++ rest) = (h.conversion index, rest) := by
  obtain ⟨hdigits, hhead, hvalue⟩ := h.digits_facts
  have hread := read_eq h.left hdigits hhead h.final index rest
  rw [hvalue] at hread
  unfold Hole.body Hole.conversion
  rw [← hread]
  simp only [List.append_assoc, List.singleton_append]

/-- A percent sign behind another one. -/
theorem read_percent (index : Nat) (rest : Text) :
    Conversion.read index ('%' :: rest) = (⟨index, none, none, 0, none, some ('%' : CodeUnit)⟩, rest) :=
  read_eq false (List.forall_mem_nil _) (List.head?_nil.trans_ne (Option.some_ne_none _).symm) final_percent index rest

end reading

/-! ## Pieces of a format -/

section pieces

variable {plain after after' : Text} {c : Conversion} {fuel index : Nat}

theorem formatPieces_plain (hplain : ∀ u ∈ plain, u ≠ ('%' : CodeUnit)) :
    formatPieces (fuel + 1) index plain = [.literal plain] := by
  have htake : plain.takeWhile (fun (u : CodeUnit) => u != ('%' : CodeUnit)) = plain :=
    List.takeWhile_eq_self_iff.mpr fun u hu => bne_iff_ne.mpr (hplain u hu)
  unfold formatPieces
  simp only [htake, List.drop_length]

/-- The first percent sign starts a conversion, wherever it stands. -/
theorem formatPieces_percent {read : Nat → Conversion} (fuel index : Nat) (hplain : ∀ u ∈ plain, u ≠ ('%' : CodeUnit))
    (hread : ∀ i, Conversion.read i after = (read i, after')) :
    ∃ i j, formatPieces (fuel + 1) index (plain ++ ('%' : CodeUnit) :: after) =
      .literal plain :: .conversion (read i) :: formatPieces fuel j after' := by
  have hne : ∀ u ∈ plain, (u != ('%' : CodeUnit)) = true := fun u hu => bne_iff_ne.mpr (hplain u hu)
  have htake : (plain ++ ('%' : CodeUnit) :: after).takeWhile (fun (u : CodeUnit) => u != ('%' : CodeUnit)) = plain := by
    rw [List.takeWhile_append_of_pos hne, List.takeWhile_cons_of_neg (by decide), List.append_nil]
  refine ⟨index + plain.length, index + plain.length + 1 + (after.length - after'.length), ?_⟩
  rw [formatPieces]
  simp only [htake, List.drop_left, hread]

theorem doubled_plain (hplain : ∀ u ∈ plain, u ≠ ('%' : CodeUnit)) : doubled plain = plain := by
  unfold doubled
  rw [List.flatMap_congr fun u hu => if_neg (hplain u hu)]
  exact List.flatMap_singleton' plain

theorem doubled_append (t u : Text) : doubled (t ++ u) = doubled t ++ doubled u := List.flatMap_append

/-- What stands before the first percent sign of a format, where its first text has none. -/
theorem formatOf_plain (hplain : ∀ u ∈ plain, u ≠ ('%' : CodeUnit)) (rest : List (Hole × Text)) :
    formatOf plain rest = plain ++ rest.flatMap fun p => ('%' : CodeUnit) :: p.1.body ++ doubled p.2 := by
  unfold formatOf
  rw [doubled_plain hplain]

theorem formatOf_hole (hplain : ∀ u ∈ plain, u ≠ ('%' : CodeUnit)) (h : Hole) (t : Text) (rest : List (Hole × Text)) :
    formatOf plain ((h, t) :: rest) = plain ++ ('%' : CodeUnit) :: (h.body ++ formatOf t rest) := by
  rw [formatOf_plain hplain, List.flatMap_cons]
  unfold formatOf
  simp only [List.cons_append, List.append_assoc]

/-- What stands before the first percent sign of a format, where its first text has one. -/
theorem formatOf_percent (hplain : ∀ u ∈ plain, u ≠ ('%' : CodeUnit)) (first : Text) (rest : List (Hole × Text)) :
    formatOf (plain ++ ('%' : CodeUnit) :: first) rest = plain ++ ('%' : CodeUnit) :: '%' :: formatOf first rest := by
  have hdoubled : doubled (plain ++ ('%' : CodeUnit) :: first) = plain ++ ('%' : CodeUnit) :: '%' :: doubled first := by
    rw [doubled_append, doubled_plain hplain]
    rfl
  unfold formatOf
  rw [hdoubled, List.append_assoc]
  rfl

theorem plain_or_percent (t : Text) : (∀ u ∈ t, u ≠ ('%' : CodeUnit)) ∨
    ∃ plain behind, (∀ u ∈ plain, u ≠ ('%' : CodeUnit)) ∧ t = plain ++ ('%' : CodeUnit) :: behind := by
  by_cases hmem : ('%' : CodeUnit) ∈ t
  · obtain ⟨plain, behind, heq, hnot⟩ := List.eq_append_cons_of_mem hmem
    exact .inr ⟨plain, behind, fun u hu h => hnot (h ▸ hu), heq⟩
  · exact .inl fun u hu h => hmem (h ▸ hu)

end pieces

/-- The texts of values in place of conversions, each with the plain text behind it. -/
def fillIn (s : Store) : List (Hole × Text) → List Value → Except Fault Text
  | [], [] => .ok []
  | [], _ :: _ => .error .formatTooMany
  | _ :: _, [] => .error .formatTooFew
  | (h, t) :: rest, v :: values => return (← h.write s v) ++ t ++ (← fillIn s rest values)

theorem fillIn_cons (s : Store) (h : Hole) (t : Text) (rest : List (Hole × Text)) (v : Value) (values : List Value) :
    fillIn s ((h, t) :: rest) (v :: values) =
      (h.write s v >>= fun u => fillIn s rest values >>= fun more => .ok (u ++ t ++ more)) := rfl

/-- The texts of values in place of as many conversions. -/
def filledIn (s : Store) (rest : List (Hole × Text)) (values : List Value) : Text :=
  (List.zipWith (fun p v => p.1.written s v ++ p.2) rest values).flatten

theorem fillIn_eq {s : Store} {rest : List (Hole × Text)} {values : List Value}
    (htakes : ∀ p ∈ rest.zip values, p.1.1.Takes s p.2) :
    fillIn s rest values = if rest.length = values.length then .ok (filledIn s rest values)
      else .error (if values.length < rest.length then .formatTooFew else .formatTooMany) := by
  induction rest generalizing values with
  | nil => cases values <;> rfl
  | cons p rest ih =>
    cases values with
    | nil => rfl
    | cons v values =>
      obtain ⟨h, t⟩ := p
      have hfirst : h.write s v = .ok (h.written s v) := Hole.write_eq (htakes _ List.mem_cons_self)
      rw [fillIn_cons, hfirst, ih fun p hp => htakes p (List.mem_cons_of_mem _ hp)]
      simp only [List.length_cons, Nat.add_right_cancel_iff, Nat.add_lt_add_iff_right]
      split <;> rfl

namespace Eval

variable {s : Store} {args done coming : List Value} {v : Value} {h : Hole} {t : Text} {index : Nat}

/-! ## Filling in -/

theorem convert_percent (used : Nat) :
    convert ⟨index, none, none, 0, none, some ('%' : CodeUnit)⟩ none args used s = .ok (['%'], used) s := rfl

theorem convert_tooFew : convert (h.conversion index) none args args.length s = .error .formatTooFew s := by
  have hvalue : conversionValue (h.conversion index) none args args.length s = .error .formatTooFew s := by
    unfold conversionValue Hole.conversion
    dsimp only
    rw [List.getElem?_eq_none (Nat.le_refl _)]
    rfl
  obtain ⟨quoted, left, width⟩ := h
  cases quoted <;> exact bind_error hvalue

theorem padTo_eq (t : Text) : padTo (h.conversion index) t s =
    if t.length < h.width && maxTextLength < h.width then .error .textTooLong s else .ok (h.padded t) s := by
  unfold padTo Hole.conversion Hole.padded
  dsimp only
  obtain ⟨quoted, left, width⟩ := h
  by_cases hshort : t.length < width
  · rw [decide_eq_true hshort, Bool.true_and, if_neg (Nat.not_le.mpr hshort)]
    by_cases hwide : maxTextLength < width
    · rw [if_pos hwide, if_pos (decide_eq_true hwide)]
      rfl
    · rw [if_neg hwide, decide_eq_false hwide, if_neg (c := false = true) Bool.false_ne_true]
      cases left <;> rfl
  · have hfull : width - t.length = 0 := Nat.sub_eq_zero_of_le (Nat.not_lt.mp hshort)
    rw [decide_eq_false hshort, Bool.false_and, if_pos (Nat.not_lt.mp hshort), if_neg Bool.false_ne_true, hfull,
      List.replicate_zero, List.append_nil, List.nil_append, ite_self]
    rfl

/-- A conversion writes the text of the next value, and pads it. -/
theorem convert_eq (hargs : args = done ++ v :: coming) : convert (h.conversion index) none args done.length s =
    (readDeep (h.textOf? · v) >>= fun t => padTo (h.conversion index) t >>= fun t => pure (t, done.length + 1)) s := by
  have hvalue : conversionValue (h.conversion index) none args done.length s = .ok (v, done.length + 1) s := by
    have hnth : args[done.length]? = some v := by
      rw [hargs]
      simp
    unfold conversionValue Hole.conversion
    dsimp only
    rw [hnth]
    rfl
  obtain ⟨quoted, left, width⟩ := h
  cases quoted <;> exact bind_ok hvalue

theorem convert_hole (hargs : args = done ++ v :: coming) : convert (h.conversion index) none args done.length s =
    (ofExcept (h.write s v) >>= fun t => pure (t, done.length + 1)) s := by
  rw [convert_eq hargs]
  unfold Hole.write
  cases htext : h.textOf? s v with
  | none =>
    rw [bind_error (readDeep_none htext)]
    rfl
  | some t =>
    rw [bind_ok (readDeep_eq htext)]
    dsimp only
    have hpadded : padTo (h.conversion index) t s = _ := padTo_eq t
    split at hpadded
    · rename_i hwide
      rw [bind_error hpadded, if_pos hwide]
      rfl
    · rename_i hfits
      rw [bind_ok hpadded, if_neg hfits]
      rfl

/-- How the pieces of a format are written: a plain text as it is, and a conversion with what it takes from the values. -/
structure Writes (f : List Text × Nat → FormatPiece → Eval (List Text × Nat)) (args : List Value) : Prop where
  plain : ∀ parts used t s, f (parts, used) (.literal t) s = .ok (t :: parts, used) s
  conversion : ∀ parts used c s, f (parts, used) (.conversion c) s =
    (convert c none args used >>= fun r => pure (r.1 :: parts, r.2)) s

section folding

variable {f : List Text × Nat → FormatPiece → Eval (List Text × Nat)} {plain first : Text} {rest : List (Hole × Text)}
  {parts : List Text} {fuel : Nat}

/-- What the written pieces come to. -/
def finished (args : List Value) (r : List Text × Nat) : Eval Text :=
  if r.2 < args.length then throw .formatTooMany else pure r.1.reverse.flatten

/-- A plain text and the conversion behind it. -/
theorem foldlM_step (hf : Writes f args) (c : Conversion) (pieces : List FormatPiece) (used : Nat) :
    ((.literal plain :: .conversion c :: pieces).foldlM f (parts, used) >>= finished args) s =
      (convert c none args used >>= fun r => pieces.foldlM f (r.1 :: plain :: parts, r.2) >>= finished args) s := by
  rw [List.foldlM_cons, bind_assoc, bind_ok (hf.plain parts used plain s), List.foldlM_cons, bind_assoc,
    bind_congr_of_eq (hf.conversion (plain :: parts) used c s), bind_assoc]
  simp only [pure_bind]

theorem flatten_reverse_cons (t : Text) (parts : List Text) :
    (t :: parts).reverse.flatten = parts.reverse.flatten ++ t := by
  rw [List.reverse_cons, List.flatten_concat]

/-- At the end of a format all values are used, or it fails. -/
theorem foldlM_last (hf : Writes f args) (hargs : args = done ++ coming) :
    ([.literal plain].foldlM f (parts, done.length) >>= finished args) s =
      ofExcept ((fillIn s [] coming).map (parts.reverse.flatten ++ plain ++ ·)) s := by
  rw [List.foldlM_cons, bind_assoc, bind_ok (hf.plain parts done.length plain s), List.foldlM_nil, pure_bind, hargs]
  unfold finished
  cases coming with
  | nil =>
    have hnil : fillIn s [] [] = .ok [] := rfl
    rw [List.append_nil, if_neg (Nat.lt_irrefl _), flatten_reverse_cons, hnil, Except.map, List.append_nil]
    rfl
  | cons v values =>
    rw [if_pos (by simp)]
    rfl

/-- What is left to do for a format when some values have been used. The induction is on the number of pieces: each
percent sign of a plain text and each conversion is one, and only a conversion takes a value. -/
theorem foldlM_formatPieces (hf : Writes f args) (hargs : args = done ++ coming)
    (hfuel : (formatOf first rest).length < fuel) :
    ((formatPieces fuel index (formatOf first rest)).foldlM f (parts, done.length) >>= finished args) s =
      ofExcept ((fillIn s rest coming).map (parts.reverse.flatten ++ first ++ ·)) s := by
  induction fuel generalizing index first rest parts done coming with
  | zero => exact absurd hfuel (Nat.not_lt_zero _)
  | succ fuel ih =>
    obtain hplain | ⟨plain, behind, hplain, rfl⟩ := plain_or_percent first
    · cases rest with
      | nil =>
        rw [formatOf_plain hplain, List.flatMap_nil, List.append_nil, formatPieces_plain hplain, foldlM_last hf hargs]
      | cons p rest =>
        obtain ⟨h, t⟩ := p
        rw [formatOf_hole hplain] at hfuel ⊢
        obtain ⟨i, j, hpieces⟩ := formatPieces_percent fuel index hplain fun i => h.read_body i (formatOf t rest)
        rw [hpieces, foldlM_step hf]
        cases coming with
        | nil =>
          rw [hargs, List.append_nil, bind_error convert_tooFew]
          rfl
        | cons v values =>
          rw [fillIn_cons, bind_congr_of_eq (convert_hole hargs)]
          cases h.write s v with
          | error e => rfl
          | ok u =>
            have hused : args = (done ++ [v]) ++ values := by rw [hargs, List.append_assoc, List.singleton_append]
            have hshorter : (formatOf t rest).length < fuel := by
              simp only [List.length_append, List.length_cons] at hfuel ⊢
              omega
            have hcount : (done ++ [v]).length = done.length + 1 := List.length_append
            change (List.foldlM f (u :: first :: parts, done.length + 1) (formatPieces fuel j (formatOf t rest)) >>=
              finished args) s = _
            rw [← hcount, ih hused hshorter, flatten_reverse_cons, flatten_reverse_cons]
            cases fillIn s rest values with
            | error e => rfl
            | ok more =>
              simp only [Except.map, List.append_assoc]
              rfl
    · rw [formatOf_percent hplain] at hfuel ⊢
      obtain ⟨i, j, hpieces⟩ := formatPieces_percent fuel index hplain fun i => read_percent i (formatOf behind rest)
      rw [hpieces, foldlM_step hf, bind_ok (convert_percent done.length), ih hargs]
      · simp only [flatten_reverse_cons, List.append_assoc, List.singleton_append]
      · simp only [List.length_append, List.length_cons] at hfuel ⊢
        omega

end folding

theorem percentFormat_eq (first : Text) (rest : List (Hole × Text)) (id : ListId) :
    percentFormat (formatOf first rest) (.list id) s = ofExcept ((fillIn s rest (s.list id)).map (first ++ ·)) s := by
  have hargs : formatArguments (.list id) s = .ok (s.list id) s := rfl
  have hnone : (Value.list id).keyed?.isNone = true := rfl
  unfold percentFormat
  rw [bind_ok hargs]
  simp only [hnone, Bool.true_and, decide_eq_true_eq]
  have hused : s.list id = [] ++ s.list id := rfl
  exact foldlM_formatPieces ⟨fun _ _ _ _ => rfl, fun _ _ _ _ => rfl⟩ hused (Nat.lt_succ_self _)

/-- A format takes as many values as it has conversions. Its texts stand in the result as they are, and between them the
texts of the values, each with blanks up to the width of its conversion. -/
theorem percentFormat_fills (s : Store) (first : Text) (rest : List (Hole × Text)) (id : ListId)
    (htakes : ∀ p ∈ rest.zip (s.list id), p.1.1.Takes s p.2) :
    (rest.length = (s.list id).length →
      percentFormat (formatOf first rest) (.list id) s = .ok (first ++ filledIn s rest (s.list id)) s) ∧
    (rest.length ≠ (s.list id).length →
      ∃ e, percentFormat (formatOf first rest) (.list id) s = .error e s ∧ e.faultClass = .runtime) := by
  have hfill := fillIn_eq htakes
  refine ⟨fun heq => ?_, fun hne => ?_⟩
  · rw [percentFormat_eq, hfill, if_pos heq]
    rfl
  · rw [percentFormat_eq, hfill, if_neg hne]
    refine ⟨_, rfl, ?_⟩
    split <;> rfl

/-- Behind the conversions stand a digit, a percent sign and a point, which do not belong to them. -/
theorem percentFormat_fills_of_two :
    let s : Store := { Store.empty with lists := #[[.text "a", .text "b"], [.text "a"]] }
    let rest : List (Hole × Text) := [(⟨false, true, 3⟩, "0%"), (⟨true, false, 5⟩, ".1")]
    formatOf "%5" rest = "%%5%-3s0%%%5r.1" ∧ (∀ p ∈ rest.zip (s.list 0), p.1.1.Takes s p.2) ∧
      (∀ p ∈ rest.zip (s.list 1), p.1.1.Takes s p.2) ∧
      percentFormat "%%5%-3s0%%%5r.1" (.list 0) s = .ok "%5a  0%  'b'.1" s ∧
      ∃ e, percentFormat "%%5%-3s0%%%5r.1" (.list 1) s = .error e s ∧ e.faultClass = .runtime := by
  intro s rest
  have hformat : formatOf "%5" rest = "%%5%-3s0%%%5r.1" := by decide
  have hfirst : (Hole.mk false true 3).Takes s (.text "a") := ⟨"a", rfl, .inr (by decide)⟩
  have hsecond : (Hole.mk true false 5).Takes s (.text "b") := ⟨"'b'", rfl, .inr (by decide)⟩
  have htwo : ∀ p ∈ rest.zip (s.list 0), p.1.1.Takes s p.2 :=
    List.forall_mem_cons.mpr ⟨hfirst, List.forall_mem_singleton.mpr hsecond⟩
  have hone : ∀ p ∈ rest.zip (s.list 1), p.1.1.Takes s p.2 := List.forall_mem_singleton.mpr hfirst
  have hfilled : ("%5" : Text) ++ filledIn s rest (s.list 0) = "%5a  0%  'b'.1" := by decide
  refine ⟨hformat, htwo, hone, ?_, ?_⟩
  · rw [← hformat, ← hfilled]
    exact (percentFormat_fills s "%5" rest 0 htwo).1 rfl
  · rw [← hformat]
    exact (percentFormat_fills s "%5" rest 1 hone).2 (by decide)

/-- As many values as conversions are not enough: a text of that width cannot be, and a list inside of itself has no
text. -/
theorem percentFormat_beyond_extent :
    let one : Store := { Store.empty with lists := #[[.text "a"]] }
    let nested : Store := { Store.empty with lists := #[[.list 0]] }
    let wide : List (Hole × Text) := [(⟨false, false, 999999999⟩, [])]
    let narrow : List (Hole × Text) := [(⟨false, false, 0⟩, [])]
    wide.length = (one.list 0).length ∧ percentFormat (formatOf [] wide) (.list 0) one = .error .textTooLong one ∧
      narrow.length = (nested.list 0).length ∧
      percentFormat (formatOf [] narrow) (.list 0) nested = .error .tooDeep nested ∧
      Fault.textTooLong.faultClass ≠ .runtime ∧ Fault.tooDeep.faultClass ≠ .runtime := by
  intro one nested wide narrow
  refine ⟨rfl, ?_, rfl, ?_, by decide, by decide⟩
  · rw [percentFormat_eq]
    rfl
  · rw [percentFormat_eq]
    rfl

end Eval
end Stencil
