import Mathlib.Data.List.DropRight
import Stencil.Literal
import Stencil.Proofs.Number.Integers
import Stencil.Proofs.Value.PropertyOrder

/-!
The spellings of literals. A datum is written in many ways: with blanks around its parts, with either quote, with
square brackets or parentheses, with a comma after the last item or without one. Each of them is read as the datum.
-/

namespace Stencil.Literal

/-- Nothing but blank units. -/
def Blanks (t : Text) : Prop := ∀ u ∈ t, u.isBlank = true

/-- How a unit is written between quotes. -/
def spellUnit (quote u : CodeUnit) : Text :=
  if u = '\\' then ['\\', '\\'] else if u = quote then ['\\', quote] else if u = '\n' then ['\\', 'n'] else [u]

mutual

/-- A datum and a text that starts and ends with it. The entries of a mapping are written in any order. -/
inductive Spelling : Datum → Text → Prop where
  | none : Spelling .none "None"
  | capital (b : Bool) : Spelling (.bool b) (if b then "True" else "False")
  | lower (b : Bool) : Spelling (.bool b) (if b then "true" else "false")
  | integer {n : Nat} (h : n < 2 ^ 53) : Spelling (.number (.ofNat n)) (Text.ofNat n)
  | signed (negative : Bool) {n : Nat} {blanks : Text} (h : n < 2 ^ 53) (hblanks : Blanks blanks) :
    Spelling (.number (if negative then -.ofNat n else .ofNat n))
      ((if negative then '-' else '+' : CodeUnit) :: (blanks ++ Text.ofNat n))
  | text {quote : CodeUnit} (hquote : quote = '\'' ∨ quote = '"') (t : Text) :
    Spelling (.text t) (quote :: (t.flatMap (spellUnit quote) ++ [quote]))
  | list {items : List Datum} {t : Text} (h : Items items t) :
    Spelling (.list items) (('[' : CodeUnit) :: (t ++ [(']' : CodeUnit)]))
  | empty {blanks : Text} (hblanks : Blanks blanks) :
    Spelling (.list []) (('(' : CodeUnit) :: (blanks ++ [(')' : CodeUnit)]))
  | tuple {first : Datum} {items : List Datum} {t rest : Text} (hfirst : Padded first t) (h : Items items rest) :
    Spelling (.list (first :: items)) (('(' : CodeUnit) :: (t ++ (',' : CodeUnit) :: (rest ++ [(')' : CodeUnit)])))
  | enclosed {d : Datum} {t : Text} (h : Padded d t) : Spelling d (('(' : CodeUnit) :: (t ++ [(')' : CodeUnit)]))
  | mapping {entries ordered : List (Text × Datum)} {t : Text} (h : Entries entries t)
    (hkeys : (entries.map (·.1)).Nodup) (hordered : InPropertyOrder entries ordered) :
    Spelling (.mapping ordered) (('\x7b' : CodeUnit) :: (t ++ [('\x7d' : CodeUnit)]))

/-- A datum with blanks around it. -/
inductive Padded : Datum → Text → Prop where
  | intro {d : Datum} {t before after : Text} (hbefore : Blanks before) (h : Spelling d t) (hafter : Blanks after) :
    Padded d (before ++ (t ++ after))

/-- Items with commas between them, and perhaps one after the last. -/
inductive Items : List Datum → Text → Prop where
  | nil {blanks : Text} (hblanks : Blanks blanks) : Items [] blanks
  | last {d : Datum} {t : Text} (h : Padded d t) : Items [d] t
  | cons {d : Datum} {items : List Datum} {t rest : Text} (hd : Padded d t) (h : Items items rest) :
    Items (d :: items) (t ++ (',' : CodeUnit) :: rest)

/-- Entries with commas between them, and perhaps one after the last. A key is a text. -/
inductive Entries : List (Text × Datum) → Text → Prop where
  | nil {blanks : Text} (hblanks : Blanks blanks) : Entries [] blanks
  | last {key : Text} {d : Datum} {k t : Text} (hkey : Padded (.text key) k) (hd : Padded d t) :
    Entries [(key, d)] (k ++ (':' : CodeUnit) :: t)
  | cons {key : Text} {d : Datum} {entries : List (Text × Datum)} {k t rest : Text} (hkey : Padded (.text key) k)
    (hd : Padded d t) (h : Entries entries rest) :
    Entries ((key, d) :: entries) (k ++ (':' : CodeUnit) :: (t ++ (',' : CodeUnit) :: rest))

end

/-! ## Units -/

theorem toNat_of_isBlank {u : CodeUnit} (h : u.isBlank = true) :
    (9 ≤ u.toNat ∧ u.toNat ≤ 13) ∨ u.toNat = 32 ∨ 160 ≤ u.toNat := by
  simp only [CodeUnit.isBlank, Bool.or_eq_true, Bool.and_eq_true, decide_eq_true_eq, beq_iff_eq, UInt16.le_iff_toNat_le,
    ← UInt16.toNat_inj] at h
  simp at h
  omega

theorem toNat_of_isNumberUnit {u : CodeUnit} (h : isNumberUnit u = true) : 46 ≤ u.toNat ∧ u.toNat ≤ 122 := by
  simp only [isNumberUnit, CodeUnit.isNamePart, CodeUnit.isNameStart, CodeUnit.isLetter, CodeUnit.isDigit,
    Bool.or_eq_true, Bool.and_eq_true, decide_eq_true_eq, UInt16.le_iff_toNat_le, ← UInt16.toNat_inj,
    CodeUnit.ofChar] at h
  simp at h
  omega

theorem isNumberUnit_of_isDigit {u : CodeUnit} (h : u.isDigit = true) : isNumberUnit u = true := by
  simp [isNumberUnit, CodeUnit.isNamePart, h]

theorem isNumberUnit_of_isBlank {u : CodeUnit} (h : u.isBlank = true) : isNumberUnit u = false := by
  refine Bool.eq_false_iff.mpr fun hunit => ?_
  have hblank := toNat_of_isBlank h
  have hrange := toNat_of_isNumberUnit hunit
  omega

/-! ## Blanks -/

theorem trimLeft_append {blanks : Text} (h : Blanks blanks) (t : Text) : (blanks ++ t).trimLeft = t.trimLeft :=
  List.dropWhile_append_of_pos h

theorem trimLeft_cons {u : CodeUnit} (h : u.isBlank = false) (t : Text) : Text.trimLeft (u :: t) = u :: t := by
  unfold Text.trimLeft
  rw [List.dropWhile_cons, if_neg (by rw [h]; exact Bool.false_ne_true)]

theorem trimLeft_trimLeft (t : Text) : t.trimLeft.trimLeft = t.trimLeft := List.dropWhile_idempotent _ _

/-- A text that does not go on with a number or a word. -/
def Apart (rest : Text) : Prop := ∀ u ∈ rest.head?, isNumberUnit u = false

theorem apart_cons {u : CodeUnit} (h : isNumberUnit u = false) (t : Text) : Apart (u :: t) := by
  rintro v ⟨⟩
  exact h

theorem apart_append {blanks t : Text} (hblanks : Blanks blanks) (h : Apart t) : Apart (blanks ++ t) := by
  cases blanks with
  | nil => exact h
  | cons u blanks => exact apart_cons (isNumberUnit_of_isBlank (hblanks u List.mem_cons_self)) _

/-! ## Numbers and words -/

variable {n : Nat} {rest : Text}

theorem tokenLength_digits (hex : Bool) (hrest : Apart rest) :
    ∀ {digits : Text} {previous : Option CodeUnit}, (∀ u ∈ digits, u.isDigit = true) →
      (∀ u ∈ previous, u.isDigit = true) → tokenLength hex previous (digits ++ rest) = digits.length
  | [], previous, _, hprevious => by
    cases rest with
    | nil => rfl
    | cons u rest =>
      have hmark : ∀ mark : CodeUnit, mark.isDigit = false → previous ≠ some mark := by
        rintro mark hmark rfl
        rw [hprevious mark rfl] at hmark
        cases hmark
      have he := hmark 'e' (by decide)
      have hE := hmark 'E' (by decide)
      rw [List.nil_append, tokenLength, hrest u rfl, decide_eq_false he, decide_eq_false hE]
      simp
  | u :: digits, previous, hdigits, _ => by
    obtain ⟨hu, hdigits⟩ := List.forall_mem_cons.mp hdigits
    rw [List.cons_append, tokenLength, isNumberUnit_of_isDigit hu, Bool.true_or, if_pos rfl,
      tokenLength_digits hex hrest hdigits (by rintro v ⟨⟩; exact hu), List.length_cons, Nat.add_comm]

theorem isDecimalInteger_ofNat (n : Nat) : isDecimalInteger (Text.ofNat n) = true := by
  rcases Nat.eq_zero_or_pos n with rfl | hpos
  · decide
  · obtain ⟨u, rest, hspell, hu⟩ := Text.ofNat_head hpos
    have hrun := Text.isRun_ofNat n
    rw [hspell] at hrun ⊢
    exact (if_neg hu).trans hrun

theorem numberOf_ofNat (h : n < 2 ^ 53) : numberOf (Text.ofNat n) = .ok (.ofNat n) := by
  unfold numberOf
  dsimp only
  rw [Text.filter_underscore, Number.ofText?_digits h, isDecimalInteger_ofNat, Bool.or_true, if_pos rfl, Option.getD_some,
    Number.isSafeInteger_ofNat h, if_pos rfl]

/-- The digits of an integer are taken as one number. -/
theorem number_ofNat (h : n < 2 ^ 53) (hrest : Apart rest) : number (Text.ofNat n ++ rest) = .ok (.ofNat n, rest) := by
  have hlength := tokenLength_digits (startsHex (Text.ofNat n ++ rest)) hrest (Text.isDigit_of_mem_ofNat n)
    (show ∀ u ∈ (none : Option CodeUnit), u.isDigit = true from nofun)
  unfold number
  dsimp only
  rw [hlength, List.take_left' rfl, List.drop_left' rfl, numberOf_ofNat h]

/-! ## Texts -/

/-- What was written between quotes is read back up to the closing quote. -/
theorem quotedText_spelled {quote : CodeUnit} (hquote : quote = '\'' ∨ quote = '"') (rest : Text) :
    ∀ (t out : Text), quotedText quote 0 out (t.flatMap (spellUnit quote) ++ quote :: rest) = .ok (out.reverse ++ t, rest)
  | [], out => by
    rw [List.flatMap_nil, List.nil_append, quotedText.eq_def]
    dsimp only
    rw [if_pos rfl, List.append_nil]
  | u :: t, out => by
    have hslash : ('\\' : CodeUnit) ≠ quote ∧ quote ≠ '\n' := by rcases hquote with rfl | rfl <;> decide
    have hescape : escape? quote = some [quote] := by rcases hquote with rfl | rfl <;> rfl
    have hnext : quotedText quote 0 (u :: out) (t.flatMap (spellUnit quote) ++ quote :: rest) =
        .ok (out.reverse ++ u :: t, rest) := by
      rw [quotedText_spelled hquote rest t, List.reverse_cons, List.append_assoc]
      rfl
    have hescaped : ∀ v : CodeUnit, escape? v = some [u] →
        quotedText quote 0 out (('\\' : CodeUnit) :: v :: (t.flatMap (spellUnit quote) ++ quote :: rest)) =
          .ok (out.reverse ++ u :: t, rest) := by
      intro v hv
      rw [quotedText.eq_def]
      dsimp only
      rw [if_neg hslash.1, if_neg (by decide), if_pos rfl, hv]
      exact hnext
    rw [List.flatMap_cons, List.append_assoc, spellUnit]
    by_cases hback : u = '\\'
    · rw [if_pos hback]
      exact hescaped '\\' (by rw [hback]; rfl)
    by_cases hclose : u = quote
    · rw [if_neg hback, if_pos hclose]
      exact hescaped quote (by rw [hclose]; exact hescape)
    by_cases hfeed : u = '\n'
    · rw [if_neg hback, if_neg hclose, if_pos hfeed]
      exact hescaped 'n' (by rw [hfeed]; rfl)
    · rw [if_neg hback, if_neg hclose, if_neg hfeed, List.cons_append, List.nil_append, quotedText.eq_def]
      dsimp only
      rw [if_neg hclose, if_neg hfeed, if_neg hback]
      exact hnext

end Stencil.Literal
