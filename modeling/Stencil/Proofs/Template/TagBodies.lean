import Mathlib.Data.List.Find
import Stencil.Proofs.Template.Marks

/-!
The inside of a tag. A token there is told by the units of the body alone: no word, number or operator goes on into the
mark that closes the tag, with or without a dash. So a body that is read as one on its own is read the same in every
tag it stands in.
-/
namespace Stencil

variable {t rest tail : Text} {u v : CodeUnit}

/-- The units that come after a body: a dash, if any, and a unit that starts a closing mark. -/
def Text.Closing (tail : Text) : Prop :=
  ∃ b more, (tail = Lexer.dash b ++ ('%' : CodeUnit) :: more) ∨ tail = Lexer.dash b ++ ('\x7d' : CodeUnit) :: more

/-- The units that a closing mark, or a dash in front of it, starts with. -/
def CodeUnit.isClosing (u : CodeUnit) : Bool := u = '-' || u = '%' || u = '\x7d'

/-! ## What goes on into a closing mark -/

namespace Text

/-- A closing mark starts with such a unit, and after a dash another one follows. -/
theorem Closing.units (h : Closing tail) : ∃ u more, tail = u :: more ∧ u.isClosing = true ∧
    (u = '-' → ∃ v more', more = v :: more' ∧ v.isClosing = true) := by
  obtain ⟨b, more, rfl | rfl⟩ := h <;> cases b <;>
    first
      | exact ⟨_, _, rfl, rfl, fun _ => ⟨_, _, rfl, rfl⟩⟩
      | exact ⟨_, _, rfl, rfl, fun hu => absurd hu (by decide)⟩

theorem takeWhile_append_cons {p : CodeUnit → Bool} (hu : p u = false) (t more : Text) :
    (t ++ u :: more).takeWhile p = t.takeWhile p := by
  induction t with
  | nil => simp [hu]
  | cons v t ih => rw [List.cons_append, List.takeWhile_cons, List.takeWhile_cons, ih]

theorem takeWhile_append {p : CodeUnit → Bool} (hp : ∀ u : CodeUnit, u.isClosing → p u = false) (t : Text)
    (h : Closing tail) : (t ++ tail).takeWhile p = t.takeWhile p := by
  obtain ⟨u, more, rfl, hu, -⟩ := h.units
  exact takeWhile_append_cons (hp u hu) t more

/-! ## What goes on with a number -/

theorem runLength_append_cons {p : CodeUnit → Bool} (hu : p u = false) (hscore : u ≠ '_') (t more : Text) :
    runLength p (t ++ u :: more) = runLength p t := by
  induction t using runLength.induct p with
  | case1 => cases more <;> simp [runLength, hu]
  | case2 v hv =>
    simp only [List.singleton_append, runLength, hv, if_true, hscore, decide_false, Bool.false_and]
    cases more <;> simp [runLength, hu]
  | case3 v hv => simp [runLength, hv]
  | case4 v w rest hv hw ih =>
    cases rest with
    | nil => simp at hw
    | cons x rest =>
      simp only [List.cons_append] at ih ⊢
      rw [runLength, if_pos hv, if_pos hw, ih, runLength, if_pos hv, if_pos hw]
  | case5 v w rest hv hw ih =>
    cases rest with
    | nil =>
      have hnot : ¬ (decide (w = '_') && p u) = true := by simp [hu]
      have hpair : runLength p [v, w] = 1 + runLength p [w] := (if_pos hv).trans (if_neg hw)
      simp only [List.cons_append, List.nil_append] at ih ⊢
      rw [runLength, if_pos hv, if_neg hnot, ih, hpair]
    | cons x rest =>
      simp only [List.cons_append] at ih ⊢
      rw [runLength, if_pos hv, if_neg hw, ih, runLength, if_pos hv, if_neg hw]
  | case6 v w rest hv => simp [runLength, hv]

/-- A number ends in front of a unit: it is none of a number, and no sign with digits behind it. -/
structure EndsAt (u : CodeUnit) (more : Text) : Prop where
  digit : u.isDigit = false
  unit : u ∉ [('_' : CodeUnit), ('.' : CodeUnit), ('e' : CodeUnit), ('E' : CodeUnit), ('+' : CodeUnit)]
  dash : u = '-' → digitsLength more = 0

variable {more : Text}

theorem EndsAt.digitsLength (h : EndsAt u more) (t : Text) : digitsLength (t ++ u :: more) = digitsLength t := by
  refine runLength_append_cons h.digit ?_ t more
  rintro rfl
  exact h.unit (by decide)

theorem EndsAt.fractionLength (h : EndsAt u more) (t : Text) : fractionLength (t ++ u :: more) = fractionLength t := by
  cases t with
  | nil =>
    have hpoint : u ≠ '.' := by
      rintro rfl
      exact h.unit (by decide)
    simp [Text.fractionLength, hpoint]
  | cons v t => simp only [List.cons_append, Text.fractionLength, h.digitsLength t]

theorem EndsAt.exponentLength (h : EndsAt u more) (t : Text) : exponentLength (t ++ u :: more) = exponentLength t := by
  cases t with
  | nil =>
    have hletter : ¬ (u = 'e' || u = 'E') := by
      intro he
      rw [Bool.or_eq_true, decide_eq_true_eq, decide_eq_true_eq] at he
      rcases he with rfl | rfl <;> exact h.unit (by decide)
    simp [Text.exponentLength, hletter]
  | cons v t =>
    cases t with
    | nil =>
      have hend : Text.exponentLength [v] = 0 := by simp [Text.exponentLength, Text.digitsLength, runLength]
      have hnone : Text.digitsLength (u :: more) = 0 := h.digitsLength []
      rw [hend]
      by_cases hsign : u = '-'
      · simp [Text.exponentLength, hsign, h.dash hsign]
      · have hplus : u ≠ '+' := by
          rintro rfl
          exact h.unit (by decide)
        simp [Text.exponentLength, hsign, hplus, hnone]
    | cons w t =>
      have hdigits : ∀ n : Nat, n ≤ 1 →
          Text.digitsLength ((w :: t ++ u :: more).drop n) = Text.digitsLength ((w :: t).drop n) := by
        intro n hn
        rw [List.drop_append_of_le_length (by simp; omega)]
        exact h.digitsLength _
      have hsign : (if (w = '+' || w = '-') = true then 1 else 0) ≤ 1 := by split <;> omega
      have hboth := hdigits _ hsign
      simp only [List.cons_append] at hboth ⊢
      simp only [Text.exponentLength, hboth]

theorem isClosing_eq (h : u.isClosing = true) : u = '-' ∨ u = '%' ∨ u = '\x7d' := by
  simpa [CodeUnit.isClosing, or_assoc] using h

/-- What holds of none of the units that start a closing mark. -/
theorem not_of_isClosing {p : CodeUnit → Bool} (h : (p '-' || p '%' || p '\x7d') = false) (u : CodeUnit)
    (hu : u.isClosing) : p u = false := by
  simp only [Bool.or_eq_false_iff] at h
  rcases isClosing_eq hu with rfl | rfl | rfl
  exacts [h.1.1, h.1.2, h.2]

theorem endsAt_of_isClosing (hu : u.isClosing = true)
    (hdash : u = '-' → ∃ v more', more = v :: more' ∧ v.isClosing = true) : EndsAt u more where
  digit := not_of_isClosing (by decide) u hu
  unit := by rcases isClosing_eq hu with rfl | rfl | rfl <;> decide
  dash h := by
    obtain ⟨v, more', rfl, hv⟩ := hdash h
    have hdigit : v.isDigit = false := not_of_isClosing (by decide) v hv
    cases more' <;> simp [digitsLength, runLength, hdigit]

end Text

namespace Lexer

open Stencil.Literal (Blanks)

open Text (Closing)

theorem numberLength_append {u : CodeUnit} {more : Text} (h : Text.EndsAt u more) (t : Text) :
    numberLength (t ++ u :: more) = numberLength t := by
  have hwhole : t.digitsLength ≤ t.length := runLength_le _ t
  have hdecimals := fractionLength_le (t.drop t.digitsLength)
  rw [List.length_drop] at hdecimals
  unfold numberLength
  dsimp only
  rw [h.digitsLength, List.drop_append_of_le_length hwhole, h.fractionLength,
    List.drop_append_of_le_length (by omega), h.exponentLength]

theorem numberLength_closing (t : Text) (h : Closing tail) : numberLength (t ++ tail) = numberLength t := by
  obtain ⟨u, more, rfl, hu, hdash⟩ := h.units
  exact numberLength_append (Text.endsAt_of_isClosing hu hdash) t

section strings

variable {quote : CodeUnit} {value : Text} {n : Nat}

/-- A string that ends in a text is the same whatever comes behind the text. -/
theorem stringBody?_append (tail : Text) (h : stringBody? quote t = some (value, n)) :
    stringBody? quote (t ++ tail) = some (value, n) := by
  fun_induction stringBody? quote t generalizing value n with
  | case1 => cases h
  | case2 =>
    cases h
    cases tail <;> exact if_pos rfl
  | case3 => cases h
  | case4 v rest =>
    cases h
    exact if_pos rfl
  | case5 v rest hquote ih =>
    obtain ⟨⟨value', m⟩, hm, he⟩ := Option.map_eq_some_iff.mp h
    cases he
    simp only [List.cons_append, stringBody?, hquote, if_false, if_true, ih hm, Option.map_some]
  | case6 u v rest hquote hslash ih =>
    obtain ⟨⟨value', m⟩, hm, he⟩ := Option.map_eq_some_iff.mp h
    cases he
    have hrest := ih hm
    simp only [List.cons_append] at hrest ⊢
    simp only [stringBody?, hquote, hslash, if_false, hrest, Option.map_some]

theorem stringBody?_pos (h : stringBody? quote t = some (value, n)) : 0 < n := by
  obtain ⟨m, -, rfl, -⟩ := stringBody?_quote h
  exact Nat.succ_pos m

/-- A string that ends within a text is one there. -/
theorem stringBody?_of_append (h : stringBody? quote (t ++ tail) = some (value, n)) (hn : n ≤ t.length) :
    stringBody? quote t = some (value, n) := by
  fun_induction stringBody? quote t generalizing value n with
  | case1 => exact absurd (stringBody?_pos h) (by simpa using hn)
  | case2 => cases tail <;> exact (if_pos rfl).symm.trans h
  | case3 u hquote =>
    cases tail with
    | nil => exact (if_neg hquote).symm.trans h
    | cons v tail =>
      simp only [List.cons_append, List.nil_append, stringBody?, hquote, if_false] at h
      rw [List.length_singleton] at hn
      split at h <;> obtain ⟨⟨value', m⟩, hm, he⟩ := Option.map_eq_some_iff.mp h <;> have hpos := stringBody?_pos hm <;>
        cases he <;> omega
  | case4 v rest => exact (if_pos rfl).symm.trans h
  | case5 v rest hquote ih =>
    simp only [List.cons_append, stringBody?, hquote, if_false, if_true] at h
    obtain ⟨⟨value', m⟩, hm, he⟩ := Option.map_eq_some_iff.mp h
    cases he
    simp only [List.length_cons] at hn
    rw [ih hm (by omega)]
    rfl
  | case6 u v rest hquote hslash ih =>
    simp only [List.cons_append, stringBody?, hquote, hslash, if_false] at h
    obtain ⟨⟨value', m⟩, hm, he⟩ := Option.map_eq_some_iff.mp h
    cases he
    simp only [List.length_cons] at hn
    rw [ih hm (by simp only [List.length_cons]; omega)]
    rfl

end strings

/-- A part without a unit cannot reach that unit. -/
theorem isPrefixOf_append_of_notMem {part : Text} (hu : u ∉ part) (t more : Text) :
    part.isPrefixOf (t ++ u :: more) = part.isPrefixOf t := by
  induction t generalizing part with
  | nil =>
    cases part with
    | nil => rfl
    | cons v part =>
      have hne : (v == u) = false := beq_false_of_ne fun heq => hu (heq ▸ List.mem_cons_self)
      simp [List.isPrefixOf, hne]
  | cons w t ih =>
    cases part with
    | nil => rfl
    | cons v part => simp only [List.cons_append, List.isPrefixOf, ih fun hmem => hu (List.mem_cons_of_mem v hmem)]

/-- No operator goes on into a closing mark. -/
theorem ofStart?_closing (ht : t ≠ []) (h : Closing tail) : Operator.ofStart? (t ++ tail) = Operator.ofStart? t := by
  obtain ⟨u, more, rfl, hu, -⟩ := h.units
  obtain ⟨v, t, rfl⟩ := List.exists_cons_of_ne_nil ht
  have hsymbol : ∀ op : Operator, ∃ w s, Text.ofString op.symbol = w :: s ∧ s.any CodeUnit.isClosing = false := by
    intro op
    cases op <;> exact ⟨_, _, rfl, rfl⟩
  refine List.find?_congr fun op _ => ?_
  obtain ⟨w, s, heq, hs⟩ := hsymbol op
  have hmem : u ∉ s := fun hmem => List.any_eq_false.mp hs u hmem hu
  simp only [heq, List.cons_append, List.isPrefixOf, isPrefixOf_append_of_notMem hmem]

/-! ## Tokens -/

/-- The token inside a tag that starts with a unit, its length, and the brackets that are open after it. -/
def tokenAhead? (brackets : List Operator) (u : CodeUnit) (rest : Text) : Option (TokenKind × Nat × List Operator) :=
  if u = '\'' || u = '"' then (stringBody? u rest).map fun found => (.string found.1, found.2 + 1, brackets)
  else if u.isDigit then
    let found := numberLength (u :: rest)
    let spelling := (u :: rest).take found.1
    some (if found.2 then .float spelling else .integer spelling, found.1, brackets)
  else if u.isNameStart then
    let word := (u :: rest).takeWhile CodeUnit.isNamePart
    some (.name word, word.length, brackets)
  else (Operator.ofStart? (u :: rest)).bind fun op =>
    (track brackets op).map fun opened => (.operator op, op.symbol.length, opened)

variable {kind : TagKind} {brackets brackets' : List Operator} {k : TokenKind} {n : Nat} {c : Cursor}

theorem tokenAhead?_pos (h : tokenAhead? brackets u rest = some (k, n, brackets')) :
    0 < n ∧ ∀ kind, k ≠ .tagEnd kind := by
  unfold tokenAhead? at h
  split at h
  · obtain ⟨_, _, he⟩ := Option.map_eq_some_iff.mp h
    cases he
    exact ⟨Nat.succ_pos _, fun _ he => by cases he⟩
  · split at h
    · rename_i hdigit
      cases h
      refine ⟨numberLength_pos hdigit, fun kind he => ?_⟩
      split at he <;> cases he
    · split at h
      · rename_i hstart
        have hpart : u.isNamePart = true := by simp [CodeUnit.isNamePart, hstart]
        cases h
        refine ⟨?_, fun _ he => by cases he⟩
        rw [List.takeWhile_cons, if_pos hpart]
        exact Nat.succ_pos _
      · obtain ⟨op, _, hop⟩ := Option.bind_eq_some_iff.mp h
        obtain ⟨_, _, he⟩ := Option.map_eq_some_iff.mp hop
        cases he
        refine ⟨?_, fun _ he => by cases he⟩
        cases op <;> decide

/-- A token that ends within a body is the same in front of each closing mark. -/
theorem tokenAhead?_closing (h : Closing tail) (hn : n ≤ rest.length + 1) :
    tokenAhead? brackets u (rest ++ tail) = some (k, n, brackets') ↔
      tokenAhead? brackets u rest = some (k, n, brackets') := by
  have hnumber := numberLength_closing (u :: rest) h
  have hword := Text.takeWhile_append (Text.not_of_isClosing (p := CodeUnit.isNamePart) (by decide)) (u :: rest) h
  have hop := ofStart?_closing (List.cons_ne_nil u rest) h
  have htake : (u :: (rest ++ tail)).take (numberLength (u :: rest)).1 =
      (u :: rest).take (numberLength (u :: rest)).1 := List.take_append_of_le_length (numberLength_le (u :: rest))
  rw [List.cons_append] at hnumber hword hop
  unfold tokenAhead?
  rw [hnumber, hword, hop]
  split
  · constructor
    · intro hstring
      obtain ⟨⟨value, m⟩, hm, he⟩ := Option.map_eq_some_iff.mp hstring
      cases he
      rw [stringBody?_of_append hm (by omega)]
      rfl
    · intro hstring
      obtain ⟨⟨value, m⟩, hm, he⟩ := Option.map_eq_some_iff.mp hstring
      cases he
      rw [stringBody?_append tail hm]
      rfl
  · dsimp only
    rw [htake]

/-! ## Steps -/

theorem advance_eq_skip (h : ('\n' : CodeUnit) ∉ c.rest.take n) : c.advance n = c.skip n := by
  have hzero : Text.lineFeeds (c.rest.take n) = 0 := List.count_eq_zero.mpr h
  simp [Cursor.advance, Cursor.skip, hzero]

theorem advance_add (c : Cursor) (m n : Nat) : c.advance (m + n) = (c.advance m).advance n := by
  simp only [Cursor.advance, Cursor.skip, List.drop_drop, List.take_add, Text.lineFeeds_append, Nat.add_assoc]

/-- The quote behind a string ends no line. -/
theorem advance_string {value : Text} {m : Nat} (hc : c.rest = u :: rest) (hu : (u = '\'' || u = '"') = true)
    (h : stringBody? u rest = some (value, m)) : (c.advance m).skip 1 = c.advance (m + 1) := by
  obtain ⟨m, more, rfl, hmore⟩ := stringBody?_quote h
  have hrest : (c.advance (m + 1)).rest = u :: more := by
    change c.rest.drop (m + 1) = u :: more
    rw [hc, List.drop_succ_cons, hmore]
  have hfeed : ('\n' : CodeUnit) ∉ (c.advance (m + 1)).rest.take 1 := by
    rw [hrest, List.take_succ_cons, List.take_zero, List.mem_singleton]
    rintro rfl
    revert hu
    decide
  rw [advance_add c (m + 1) 1, advance_eq_skip hfeed]

/-- Where no end of the tag is seen, a step gives the token ahead, and fails if there is none. -/
theorem ahead_of_insideStep {openLine : Nat} {r : Except Unreadable Step} (hstep : InsideStep c kind openLine brackets r)
    (hc : c.rest = u :: rest) (hopen : Open kind brackets c.rest) :
    (tokenAhead? brackets u rest = none ∧ ∃ e, r = .error e) ∨
      ∃ k n brackets', tokenAhead? brackets u rest = some (k, n, brackets') ∧
        r = .ok ⟨[⟨k, c.line, c.offset⟩], c.advance n, .inside kind openLine brackets'⟩ := by
  have hskip : ∀ {t : Text}, ('\n' : CodeUnit) ∉ t → t <+: c.rest → c.skip t.length = c.advance t.length := by
    intro t ht hprefix
    refine (advance_eq_skip ?_).symm
    rwa [← List.prefix_iff_eq_take.mp hprefix]
  unfold tokenAhead?
  cases hstep with
  | unclosedTag hrest => cases hc.symm.trans hrest
  | dashedEnd hempty hmark => exact absurd hopen (not_open_of_mark hempty (.inl hmark))
  | bareEnd hempty hmark => exact absurd hopen (not_open_of_mark hempty (.inr hmark))
  | unclosedString hrest _ hquote hbody =>
    cases hc.symm.trans hrest
    rw [if_pos hquote, hbody]
    exact .inl ⟨rfl, _, rfl⟩
  | string hrest _ hquote hbody =>
    cases hc.symm.trans hrest
    rw [if_pos hquote, hbody, advance_string hc hquote hbody]
    exact .inr ⟨_, _, _, rfl, rfl⟩
  | @number _ _ n _ hrest _ hdigit hnumber =>
    cases hc.symm.trans hrest
    have hquote := isQuote_eq_false (Bool.or_eq_true_iff.mpr (.inl hdigit))
    have hfeed : ('\n' : CodeUnit) ∉ c.rest.take n := by
      have hfeed := feed_not_mem_number c.rest
      rwa [hnumber] at hfeed
    rw [if_neg (Bool.eq_false_iff.mp hquote), if_pos hdigit, ← hc, hnumber, ← advance_eq_skip hfeed]
    exact .inr ⟨_, _, _, rfl, rfl⟩
  | name hrest _ hstart hword =>
    cases hc.symm.trans hrest
    have hquote := isQuote_eq_false (Bool.or_eq_true_iff.mpr (.inr hstart))
    have hname : ('\n' : CodeUnit) ∉ c.rest.takeWhile CodeUnit.isNamePart := fun hmem =>
      absurd (List.all_eq_true.mp List.all_takeWhile _ hmem) (by decide)
    rw [if_neg (Bool.eq_false_iff.mp hquote), if_neg (isDigit_of_isNameStart hstart), if_pos hstart, ← hc, ← hword,
      hskip hname (List.takeWhile_prefix _)]
    exact .inr ⟨_, _, _, rfl, rfl⟩
  | strayUnit hrest _ hu hop =>
    cases hc.symm.trans hrest
    rw [hu.quote, hu.digit, hu.nameStart, ← hc, hop]
    exact .inl ⟨rfl, _, rfl⟩
  | strayBracket hrest _ hu hop htrack =>
    cases hc.symm.trans hrest
    rw [hu.quote, hu.digit, hu.nameStart, ← hc, hop, Option.bind_some, htrack]
    exact .inl ⟨rfl, _, rfl⟩
  | @operator _ _ op _ hrest _ hu hop htrack =>
    cases hc.symm.trans hrest
    have hsymbol : ('\n' : CodeUnit) ∉ Text.ofString op.symbol := by cases op <;> decide
    have hprefix := List.isPrefixOf_iff_prefix.mp (Operator.ofStart?_isPrefix hop)
    rw [hu.quote, hu.digit, hu.nameStart, ← hc, hop, Option.bind_some, htrack, (mark_symbol op).2, hskip hsymbol hprefix]
    exact .inr ⟨_, _, _, rfl, rfl⟩

theorem step_token (openLine : Nat) (hc : c.skipBlanks.rest = u :: rest) (hopen : Open kind brackets (u :: rest))
    (htoken : tokenAhead? brackets u rest = some (k, n, brackets')) :
    step c (.inside kind openLine brackets) = .ok ⟨[⟨k, c.skipBlanks.line, c.skipBlanks.offset⟩],
      c.skipBlanks.advance n, .inside kind openLine brackets'⟩ := by
  obtain ⟨hnone, -⟩ | ⟨_, _, _, hfound, hstep⟩ :=
    ahead_of_insideStep (insideStep c kind openLine brackets) hc (hc ▸ hopen)
  · cases hnone.symm.trans htoken
  · cases hfound.symm.trans htoken
    exact hstep

/-! ## Closing marks -/

/-- The first unit of a closing mark. -/
def closeUnit : TagKind → CodeUnit
  | .output => '\x7d'
  | .statement => '%'

theorem closeMark_eq (kind : TagKind) : Text.ofString kind.closeMark = [closeUnit kind, ('\x7d' : CodeUnit)] := by
  cases kind <;> decide

theorem closing_mark (kind : TagKind) (r : Bool) (more : Text) :
    Closing (dash r ++ (Text.ofString kind.closeMark ++ more)) := by
  cases kind
  · exact ⟨r, ('\x7d' : CodeUnit) :: more, .inr rfl⟩
  · exact ⟨r, ('\x7d' : CodeUnit) :: more, .inl rfl⟩

theorem closing_closeMark (kind : TagKind) : Closing (Text.ofString kind.closeMark) := by
  have hmark := closing_mark kind false []
  rwa [List.append_nil] at hmark

/-- Where no end is seen before a body is over, none is seen if a dash stands behind it. -/
theorem open_closing (ht : t ≠ []) (hlast : t.getLast? ≠ some ('-' : CodeUnit))
    (h : Open kind brackets (t ++ Text.ofString kind.closeMark)) (r : Bool) (more : Text) :
    Open kind brackets (t ++ (dash r ++ (Text.ofString kind.closeMark ++ more))) := by
  cases brackets with
  | cons op brackets => exact ⟨rfl, rfl⟩
  | nil =>
    unfold Open at h ⊢
    simp only [List.isEmpty_nil, Bool.true_and] at h ⊢
    match t, ht with
    | [u], _ =>
      have hdash : ('-' : CodeUnit) ≠ u := fun heq => hlast (congrArg some heq.symm)
      have hend : ('\x7d' : CodeUnit) ≠ '-' := by decide
      refine ⟨by simp [List.isPrefixOf, hdash], ?_⟩
      cases r with
      | true => cases kind <;> simp [List.isPrefixOf, dash, hend, closeMark_eq]
      | false => cases kind <;> exact h.2
    | [u, v], _ =>
      have hend : ('\x7d' : CodeUnit) ≠ '-' := by decide
      cases r with
      | true =>
        refine ⟨?_, by cases kind <;> exact h.2⟩
        cases kind <;> simp [List.isPrefixOf, dash, hend, closeMark_eq]
      | false => cases kind <;> exact h
    | u :: v :: w :: t, _ => cases kind <;> exact h

variable {r : Bool} {more : Text}

/-- The tag ends behind the blanks. -/
theorem step_end (openLine : Nat) (hc : c.skipBlanks.rest = dash r ++ (Text.ofString kind.closeMark ++ more)) :
    ∃ c', step c (.inside kind openLine []) =
        .ok ⟨[⟨.tagEnd kind, c.skipBlanks.line, c.skipBlanks.offset⟩], c', .between r⟩ ∧
      c'.At c.skipBlanks.line more := by
  have hat : c.skipBlanks.At c.skipBlanks.line (dash r ++ Text.ofString kind.closeMark ++ more) :=
    ⟨by rw [hc, List.append_assoc], rfl⟩
  cases r with
  | true =>
    refine ⟨c.skipBlanks.skip 3, stepInside_eq_iff.mpr (.dashedEnd rfl ⟨more, hc.symm⟩), ?_⟩
    cases kind <;> exact hat.skip
  | false =>
    refine ⟨c.skipBlanks.skip 2, stepInside_eq_iff.mpr (.bareEnd rfl ⟨more, hc.symm⟩), ?_⟩
    cases kind <;> exact hat.skip

/-! ## Bodies -/

/-- A body is read as the inside of a tag, where the tag stands alone: the tag ends where the body does, and not before.
Each token of the body is on a line that many lines after that of the tag. -/
def LexesAlone (kind : TagKind) (body : Text) (inner : List (TokenKind × Nat)) : Prop :=
  ∃ tokens line, tokenize (Text.ofString kind.openMark ++ (body ++ Text.ofString kind.closeMark)) true =
      .ok (⟨.tagBegin kind, 1, 0⟩ :: tokens ++
        [⟨.tagEnd kind, line, body.length + 2⟩, ⟨.eof, line, body.length + 4⟩]) ∧
    (∀ k ∈ tokens, k.kind ≠ .tagEnd kind) ∧ tokens.map Token.reading = inner.map fun p => (p.1, 1 + p.2)

variable {body source : Text} {tokens : List Token} {base passed : Nat} {inner : List (TokenKind × Nat)}

theorem onLine_one (source : Text) : OnLine source 1 := ⟨le_refl 1, Nat.le_add_right 1 _⟩

/-- No token stands before the place where reading starts. -/
theorem offset_le_of_run {fuel : Nat} {mode : Mode} (hc : c.In source) (hmode : mode.In source)
    (h : run fuel c mode = .ok tokens) {k : Token} (hk : k ∈ tokens) : c.offset ≤ k.offset := by
  have hfinishes := finishes_run fuel hc hmode
  rw [h] at hfinishes
  obtain ⟨-, past, horder⟩ := hfinishes
  exact (horder.between k hk).1

/-- Blanks are passed over up to the first other unit. -/
theorem skipBlanks_at {blanks : Text} (hblanks : Blanks blanks) (hu : u.isBlank = false)
    (hc : c.At line (blanks ++ u :: rest)) : c.skipBlanks.At (line + Text.lineFeeds blanks) (u :: rest) ∧
      c.skipBlanks.offset = c.offset + blanks.length := by
  unfold Cursor.skipBlanks
  rw [hc.rest, takeWhile_blanks hblanks hu]
  exact ⟨hc.advance, rfl⟩

theorem isBlank_closeUnit (kind : TagKind) : (closeUnit kind).isBlank = false := by cases kind <;> decide

/-- Where the end of the tag is seen, it is what the step gives. -/
theorem end_of_insideStep {openLine : Nat} {r : Except Unreadable Step} (hstep : InsideStep c kind openLine brackets r)
    (hc : c.rest = u :: rest) (h : ¬ Open kind brackets c.rest) :
    ∃ c' strip, r = .ok ⟨[⟨.tagEnd kind, c.line, c.offset⟩], c', .between strip⟩ := by
  cases hstep with
  | unclosedTag hrest => cases hc.symm.trans hrest
  | dashedEnd | bareEnd => exact ⟨_, _, rfl⟩
  | unclosedString _ hopen | string _ hopen | number _ hopen | name _ hopen | strayUnit _ hopen
  | strayBracket _ hopen | operator _ hopen => exact absurd hopen h

/-- Reading on in a tag whose end is known: the end is seen here, or a token comes that does not go beyond it. -/
theorem inside_step {fuel line line' offset offset' : Nat} (hsource : c.In source)
    (hrun : run fuel c (.inside kind 1 brackets) =
      .ok (tokens ++ [⟨.tagEnd kind, line, offset⟩, ⟨.eof, line', offset'⟩]))
    (hc : c.skipBlanks.rest = u :: rest) (htokens : ∀ k ∈ tokens, k.kind ≠ .tagEnd kind) :
    (¬ Open kind brackets (u :: rest) ∧ tokens = [] ∧ c.skipBlanks.offset = offset) ∨
      ∃ k n brackets' tokens' fuel', Open kind brackets (u :: rest) ∧
        tokenAhead? brackets u rest = some (k, n, brackets') ∧
        tokens = ⟨k, c.skipBlanks.line, c.skipBlanks.offset⟩ :: tokens' ∧
        run fuel' (c.skipBlanks.advance n) (.inside kind 1 brackets') =
          .ok (tokens' ++ [⟨.tagEnd kind, line, offset⟩, ⟨.eof, line', offset'⟩]) ∧
        c.skipBlanks.offset + n ≤ offset := by
  have hne : c.rest ≠ [] := by
    intro hnil
    change c.rest.drop _ = _ at hc
    rw [hnil, List.drop_nil] at hc
    cases hc
  cases fuel with
  | zero => cases hrun
  | succ fuel =>
    obtain ⟨s, tokens', hs, htokens', heq⟩ := exists_step_of_run (.inl hne) hrun
    by_cases hopen : Open kind brackets (u :: rest)
    · obtain ⟨-, e, herror⟩ | ⟨k, n, brackets', htoken, hstep⟩ :=
        ahead_of_insideStep (insideStep c kind 1 brackets) hc (hc ▸ hopen)
      · cases hs.symm.trans herror
      cases hs.symm.trans hstep
      cases tokens with
      | nil =>
        cases heq
        exact absurd rfl ((tokenAhead?_pos htoken).2 kind)
      | cons k' tokens =>
        obtain ⟨rfl, rfl⟩ := List.cons.inj heq
        have hcursor : (c.skipBlanks.advance n).In source := hsource.skipBlanks.advance n
        have hmode : (Mode.inside kind 1 brackets').In source := onLine_one source
        refine .inr ⟨k, n, brackets', tokens, fuel, hopen, htoken, rfl, htokens', ?_⟩
        exact offset_le_of_run hcursor hmode htokens' (List.mem_append_right _ List.mem_cons_self)
    · obtain ⟨c', strip, hstep⟩ := end_of_insideStep (insideStep c kind 1 brackets) hc (hc ▸ hopen)
      cases hs.symm.trans hstep
      cases tokens with
      | nil =>
        refine .inl ⟨hopen, rfl, ?_⟩
        exact congrArg Token.offset (List.cons.inj heq).1
      | cons k' tokens =>
        obtain ⟨rfl, -⟩ := List.cons.inj heq
        exact absurd rfl (htokens _ List.mem_cons_self)

/-- A body is read from its own text, whatever mark closes its tag. Of each token it is known how many lines end before
it, those included that were passed over in front of the text; and no token goes beyond the text. -/
inductive Body (kind : TagKind) : List Operator → Text → Nat → List (TokenKind × Nat) → Prop where
  | done {blanks : Text} {passed : Nat} (hblanks : Blanks blanks) : Body kind [] blanks passed []
  | token {brackets brackets' : List Operator} {blanks rest : Text} {u : CodeUnit} {k : TokenKind} {n passed : Nat}
    {inner : List (TokenKind × Nat)} (hblanks : Blanks blanks) (hu : u.isBlank = false)
    (hopen : ∀ r more, Open kind brackets (u :: rest ++ (dash r ++ (Text.ofString kind.closeMark ++ more))))
    (htoken : tokenAhead? brackets u rest = some (k, n, brackets')) (hn : n ≤ rest.length + 1)
    (hrest : Body kind brackets' ((u :: rest).drop n)
      (passed + Text.lineFeeds blanks + Text.lineFeeds ((u :: rest).take n)) inner) :
    Body kind brackets (blanks ++ u :: rest) passed ((k, passed + Text.lineFeeds blanks) :: inner)

/-- The blanks in front of a body are passed over; what comes behind them is of the body, or else its mark. -/
theorem exists_blanks (hc : c.At line (body ++ Text.ofString kind.closeMark)) :
    ∃ blanks core u rest, body = blanks ++ core ∧ Blanks blanks ∧ core ++ Text.ofString kind.closeMark = u :: rest ∧
      u.isBlank = false ∧ c.skipBlanks.At (line + Text.lineFeeds blanks) (u :: rest) ∧
      c.skipBlanks.offset = c.offset + blanks.length := by
  have hsplit := (List.takeWhile_append_dropWhile (p := CodeUnit.isBlank) (l := body)).symm
  have hcore := List.head?_dropWhile_not CodeUnit.isBlank body
  generalize body.dropWhile CodeUnit.isBlank = core at hsplit hcore
  obtain ⟨u, rest, heq, hu⟩ : ∃ u rest, core ++ Text.ofString kind.closeMark = u :: rest ∧ u.isBlank = false := by
    cases core with
    | nil => exact ⟨_, _, closeMark_eq kind, isBlank_closeUnit kind⟩
    | cons u rest => exact ⟨u, _, rfl, hcore⟩
  rw [hsplit, List.append_assoc, heq] at hc
  exact ⟨_, core, u, rest, hsplit, blanks_takeWhile body, heq, hu, skipBlanks_at (blanks_takeWhile body) hu hc⟩

/-- What is read of a body where its tag stands alone is read from the body. The tag ends where the body does, so no
token goes beyond it. -/
theorem body_of_run {fuel line line' offset' : Nat} (hsource : c.In source)
    (hrun : run fuel c (.inside kind 1 brackets) =
      .ok (tokens ++ [⟨.tagEnd kind, line, c.offset + body.length⟩, ⟨.eof, line', offset'⟩]))
    (hc : c.At (1 + passed) (body ++ Text.ofString kind.closeMark)) (htokens : ∀ k ∈ tokens, k.kind ≠ .tagEnd kind)
    (hinner : tokens.map Token.reading = inner.map fun p => (p.1, 1 + p.2))
    (hlast : body.getLast? ≠ some ('-' : CodeUnit)) : Body kind brackets body passed inner := by
  induction tokens generalizing c fuel brackets body passed inner with
  | nil =>
    obtain ⟨blanks, core, u, rest, rfl, hblanks, -, -, hskip, hoffset⟩ := exists_blanks hc
    obtain rfl : inner = [] := List.map_eq_nil_iff.mp hinner.symm
    obtain ⟨hclosed, -, hend⟩ | ⟨k, n, brackets', tokens', fuel', -, -, heq, -, -⟩ :=
      inside_step hsource hrun hskip.rest htokens
    · rw [List.length_append] at hend
      obtain rfl : core = [] := List.length_eq_zero_iff.mp (by omega)
      cases brackets with
      | nil =>
        rw [List.append_nil]
        exact .done hblanks
      | cons op brackets => exact absurd ⟨rfl, rfl⟩ hclosed
    · cases heq
  | cons token tokens ih =>
    obtain ⟨blanks, core, v, after, rfl, hblanks, hcore, hv, hskip, hoffset⟩ := exists_blanks hc
    obtain ⟨p, inner, rfl⟩ : ∃ p inner', inner = p :: inner' := by
      cases inner with
      | nil => cases hinner
      | cons p inner => exact ⟨p, inner, rfl⟩
    obtain ⟨hp, hmore⟩ := List.cons.inj hinner
    obtain ⟨-, hnil, -⟩ | ⟨k, n, brackets', tokens', fuel', hopen, htoken, heq, hrun', hn⟩ :=
      inside_step hsource hrun hskip.rest htokens
    · cases hnil
    cases heq
    have hpos := (tokenAhead?_pos htoken).1
    -- the token has units of the body, since it ends within the body
    cases core with
    | nil =>
      rw [List.append_nil] at hn
      omega
    | cons u rest =>
      obtain ⟨rfl, rfl⟩ := List.cons.inj hcore
      have hn' : n ≤ rest.length + 1 := by
        simp only [List.length_append, List.length_cons] at hn
        omega
      have hend : c.offset + (blanks ++ u :: rest).length =
          (c.skipBlanks.advance n).offset + ((u :: rest).drop n).length := by
        have hadvance : (c.skipBlanks.advance n).offset = c.skipBlanks.offset + n := rfl
        rw [hadvance, hoffset, List.length_append, List.length_drop, List.length_cons]
        omega
      have hlast' : (u :: rest).getLast? ≠ some ('-' : CodeUnit) := by
        simpa using hlast
      have hlast'' : ((u :: rest).drop n).getLast? ≠ some ('-' : CodeUnit) := by
        rw [List.getLast?_drop]
        split
        · exact fun h => by cases h
        · exact hlast'
      have hnext := Cursor.At.advance_take (t := u :: rest) hskip hn'
      simp only [Nat.add_assoc 1] at hnext
      have hkind : k = p.1 := congrArg Prod.fst hp
      have hline : c.skipBlanks.line = 1 + p.2 := congrArg Prod.snd hp
      rw [hskip.line] at hline
      obtain rfl : p = (k, passed + Text.lineFeeds blanks) := Prod.ext hkind.symm (by omega)
      rw [hend] at hrun'
      exact .token hblanks hv (open_closing (List.cons_ne_nil u rest) hlast' hopen)
        ((tokenAhead?_closing (closing_closeMark kind) hn').mp htoken) hn'
        (ih (hsource.skipBlanks.advance n) hrun' hnext (fun k hk => htokens k (List.mem_cons_of_mem _ hk)) hmore
          hlast'')

/-- A body is passed over in front of each closing mark. -/
theorem steps_body (openLine : Nat) (h : Body kind brackets body passed inner) (r : Bool) (more : Text)
    (hc : c.At (base + passed) (body ++ (dash r ++ (Text.ofString kind.closeMark ++ more)))) :
    ∃ c', Steps c (.inside kind openLine brackets)
        ((inner.map fun p => (p.1, base + p.2)) ++ [(.tagEnd kind, base + passed + Text.lineFeeds body)])
        c' (.between r) ∧
      c'.At (base + passed + Text.lineFeeds body) more := by
  have hmark : ∃ u rest, dash r ++ (Text.ofString kind.closeMark ++ more) = u :: rest ∧ u.isBlank = false := by
    obtain ⟨u, rest, heq, hu, -⟩ := (closing_mark kind r more).units
    exact ⟨u, rest, heq, Text.not_of_isClosing (by decide) u hu⟩
  obtain ⟨v, after, hv, hblank⟩ := hmark
  have hne : ∀ {c : Cursor} {line : Nat} {t : Text},
      c.At line (t ++ (dash r ++ (Text.ofString kind.closeMark ++ more))) → c.rest ≠ [] := by
    intro c line t hc
    rw [hc.rest, hv]
    exact List.append_ne_nil_of_right_ne_nil _ (List.cons_ne_nil _ _)
  induction h generalizing c with
  | @done blanks passed hblanks =>
    obtain ⟨hskip, -⟩ := skipBlanks_at hblanks hblank (hv ▸ hc)
    obtain ⟨c', hstep, hafter⟩ := step_end openLine (hskip.rest.trans hv.symm)
    rw [hskip.line] at hstep hafter
    exact ⟨c', .one (hne hc) hstep, hafter⟩
  | @token brackets brackets' blanks rest u k n passed inner hblanks hu hopen htoken hn _ ih =>
    obtain ⟨hskip, -⟩ := skipBlanks_at hblanks hu (List.append_assoc blanks _ _ ▸ hc)
    have htoken' := (tokenAhead?_closing (closing_mark kind r more) hn).mpr htoken
    have hstep := step_token openLine hskip.rest (hopen r more) htoken'
    have hlines : Text.lineFeeds (blanks ++ u :: rest) =
        Text.lineFeeds blanks + Text.lineFeeds ((u :: rest).take n) + Text.lineFeeds ((u :: rest).drop n) := by
      rw [Text.lineFeeds_append, Nat.add_assoc, ← Text.lineFeeds_append ((u :: rest).take n), List.take_append_drop]
    have hnext := Cursor.At.advance_take (t := u :: rest) hskip hn
    simp only [Nat.add_assoc] at hnext
    simp only [Nat.add_assoc] at ih
    obtain ⟨c', hsteps, hafter⟩ := ih hnext
    have hall := Steps.next (hne hc) hstep hsteps
    rw [hskip.line, Nat.add_assoc] at hall
    rw [hlines]
    simp only [Nat.add_assoc]
    exact ⟨c', hall, hafter⟩

/-! ## Tags -/

/-- The unit behind the brace of an opening mark. -/
def openUnit : TagKind → CodeUnit
  | .output => '\x7b'
  | .statement => '%'

theorem ofUnit?_openUnit (kind : TagKind) : Opener.ofUnit? (openUnit kind) = some (.tag kind) := by
  cases kind <;> rfl

theorem openMark_eq (kind : TagKind) : Text.ofString kind.openMark = opening (openUnit kind) false := by
  cases kind <;> decide

/-- The mark of a statement starts with a percent sign, or a dash in front of one. -/
theorem head_statementEnd (r : Bool) (more : Text) :
    (dash r ++ (statementEnd ++ more)).head? ≠ some ('\x7d' : CodeUnit) := by
  cases r <;> exact fun h => absurd (Option.some.inj h) (by decide)

/-- A body that does not start a raw block with one mark behind it starts none with another. -/
theorem wordThenClose?_closing (hlast : body.getLast? ≠ some ('-' : CodeUnit))
    (h : wordThenClose? "raw" (body ++ statementEnd) = none) (r : Bool) (more : Text) :
    wordThenClose? "raw" (body ++ (dash r ++ (statementEnd ++ more))) = none := by
  refine Option.eq_none_iff_forall_ne_some.mpr fun found hsome => ?_
  obtain ⟨n, d⟩ := found
  obtain ⟨first, second, more', hfirst, hsecond, heq, -⟩ := framed_of_wordThenClose? hsome
  let front := first ++ (Text.ofString "raw" ++ second)
  have hfront : ∀ d, framed first "raw" second d = front ++ (dash d ++ statementEnd) := fun d => by
    simp only [front, framed, List.append_assoc]
  -- a body that goes up to the mark starts a raw block on its own
  have hfound : ∀ d rest, body ++ statementEnd = front ++ (dash d ++ statementEnd) ++ rest → False := by
    intro d rest hbody
    rw [hbody, ← hfront, wordThenClose?_framed rfl (by decide) hfirst hsecond] at h
    cases h
  have hexact : body = front → False := fun hbody => hfound false [] (by rw [hbody, List.append_nil]; rfl)
  rw [hfront, List.append_assoc] at heq
  rcases List.append_eq_append_iff.mp heq with ⟨beyond, hbeyond, htail⟩ | ⟨beyond, hbeyond, hmark⟩
  · cases beyond with
    | nil => exact hexact (by rw [hbeyond, List.append_nil])
    | cons v beyond =>
      -- the mark cannot stand among the blanks and the letters
      obtain ⟨w, rest, hw, hclosing, -⟩ := (closing_mark .statement r more).units
      obtain ⟨rfl, -⟩ := List.cons.inj (htail.symm.trans hw)
      have hmem : v ∈ front := hbeyond ▸ List.mem_append_right _ List.mem_cons_self
      have hblank : ∀ {blanks : Text}, Blanks blanks → v ∉ blanks := by
        intro blanks hblanks hv
        have hnot : v.isBlank = false := Text.not_of_isClosing (by decide) v hclosing
        exact Bool.false_ne_true (hnot.symm.trans (hblanks v hv))
      have hword : v ∉ Text.ofString "raw" := by
        rcases Text.isClosing_eq hclosing with rfl | rfl | rfl <;> decide
      simp only [front, List.mem_append] at hmem
      exact hmem.elim (hblank hfirst) fun hmem => hmem.elim hword (hblank hsecond)
  · rcases List.append_eq_append_iff.mp hmark with ⟨x, rfl, -⟩ | ⟨x, hx, htail⟩
    · exact hfound d (x ++ statementEnd) (by rw [hbeyond]; simp only [List.append_assoc])
    · -- the mark begins in the body, so it is whole there, or the body ends in a dash
      have hhead := head_statementEnd r more
      rw [htail] at hhead
      subst hbeyond
      cases d <;> simp only [dash, statementEnd, Bool.false_eq_true, if_true, if_false, List.nil_append,
        List.cons_append] at hx
      · rcases beyond with _ | ⟨_, _ | ⟨_, beyond⟩⟩
        · exact hexact (List.append_nil front)
        · cases hx
          exact hhead rfl
        · obtain ⟨rfl, rfl⟩ := List.append_eq_nil_iff.mp (List.cons.inj (List.cons.inj hx).2).2.symm
          cases hx
          exact hfound false statementEnd (by simp [dash, statementEnd])
      · rcases beyond with _ | ⟨_, _ | ⟨_, _ | ⟨_, beyond⟩⟩⟩
        · exact hexact (List.append_nil front)
        · cases hx
          exact hlast List.getLast?_concat
        · cases hx
          exact hhead rfl
        · obtain ⟨rfl, rfl⟩ := List.append_eq_nil_iff.mp (List.cons.inj (List.cons.inj (List.cons.inj hx).2).2).2.symm
          cases hx
          exact hfound true statementEnd (by simp [dash, statementEnd])

variable {a : Text} {strip l : Bool}

/-- A mark opens its tag, unless a raw block starts there. -/
theorem step_opening (strip : Bool) (ha : Plain a) (hc : c.At line (a ++ (opening (openUnit kind) l ++ t)))
    (hstart : t.head? ≠ some ('-' : CodeUnit)) (hraw : kind = .statement → wordThenClose? "raw" t = none) :
    ∃ c', step c (.between strip) = .ok ⟨dataTokens c a.length strip l ++
        [⟨.tagBegin kind, line + Text.lineFeeds a, c.offset + a.length⟩], c',
        .inside kind (line + Text.lineFeeds a) []⟩ ∧
      c'.At (line + Text.lineFeeds a) t ∧ c'.offset = c.offset + a.length + (if l then 3 else 2) := by
  obtain ⟨hopener, hinner⟩ := openerAt?_opening hc ha (ofUnit?_openUnit kind) fun _ => hstart
  have hstep : step c (.between strip) = _ :=
    stepBetween_eq_iff.mpr (.tag hopener fun hkind => hinner.rest.symm ▸ hraw hkind)
  rw [hc.advance.line] at hstep
  exact ⟨behindMark c a.length l, hstep, hinner, rfl⟩

theorem offset_of_mem_dataTokens {stripStart stripEnd : Bool} {k : Token} (h : k ∈ dataTokens c n stripStart stripEnd) :
    k.offset = c.offset := by
  unfold dataTokens at h
  dsimp only at h
  split at h
  · cases h
  · rw [List.mem_singleton] at h
    rw [h]

/-- A raw block gives no token at the place where its tag starts. -/
theorem wordThenClose?_of_step (hc : c.At line ([] ++ (opening '%' l ++ t)))
    (hstart : l = false → t.head? ≠ some ('-' : CodeUnit)) {strip : Bool} {s : Step}
    (hs : step c (.between strip) = .ok s) {k : Token} {after : List Token}
    (hafter : ∀ k ∈ after, s.cursor.offset ≤ k.offset) (hk : k ∈ s.tokens ++ after) (hoffset : k.offset = c.offset) :
    wordThenClose? "raw" t = none := by
  obtain ⟨hopener, hinner⟩ := openerAt?_opening hc plain_nil (ofUnit?_openUnit .statement) hstart
  refine Option.eq_none_iff_forall_ne_some.mpr fun found hword => ?_
  obtain ⟨width, stripStart⟩ := found
  have hraw : stepBetween c strip = _ := stepBetween_eq_iff.mpr (.raw hopener (hinner.rest.symm ▸ hword))
  replace hs := hraw.symm.trans hs
  unfold rawBlock at hs
  dsimp only at hs
  have hpast : c.offset + 0 < (behindMark c ([] : Text).length l).offset := lt_behindMark c _ l
  split at hs
  · cases hs
  · rename_i n length dash dashAfter hend
    cases hs
    have hnone : dataTokens c ([] : Text).length strip l = [] := by cases strip <;> cases l <;> rfl
    rw [hnone, List.nil_append] at hk
    rcases List.mem_append.mp hk with hk | hk
    · have heq := offset_of_mem_dataTokens hk
      change k.offset = (behindMark c ([] : Text).length l).offset + width at heq
      omega
    · have hle := hafter k hk
      change (behindMark c ([] : Text).length l).offset + width + n + length ≤ k.offset at hle
      omega

/-- A tag that stands alone with a body is opened by its mark, and then its body is read. -/
theorem run_of_lexesAlone (h : LexesAlone kind body inner) (hstart : body.head? ≠ some ('-' : CodeUnit))
    (hne : body ≠ []) :
    ∃ fuel c source tokens line line' offset', c.In source ∧ c.At 1 (body ++ Text.ofString kind.closeMark) ∧
      run fuel c (.inside kind 1 []) =
        .ok (tokens ++ [⟨.tagEnd kind, line, c.offset + body.length⟩, ⟨.eof, line', offset'⟩]) ∧
      (∀ k ∈ tokens, k.kind ≠ .tagEnd kind) ∧ tokens.map Token.reading = (inner.map fun p => (p.1, 1 + p.2)) ∧
      (kind = .statement → wordThenClose? "raw" (body ++ Text.ofString kind.closeMark) = none) := by
  obtain ⟨tokens, line, htokens, hkinds, hreadings⟩ := h
  let source := Text.ofString kind.openMark ++ (body ++ Text.ofString kind.closeMark)
  have hc : (Cursor.start source).At 1
      ([] ++ (opening (openUnit kind) false ++ (body ++ Text.ofString kind.closeMark))) :=
    ⟨by rw [← openMark_eq]; rfl, rfl⟩
  have hhead : (body ++ Text.ofString kind.closeMark).head? ≠ some ('-' : CodeUnit) := by
    obtain ⟨u, body, rfl⟩ := List.exists_cons_of_ne_nil hne
    exact hstart
  obtain ⟨s, after, hs, hafter, heq⟩ := exists_step_of_run (.inl (rest_ne_nil hc)) htokens
  have hplaced : s.Placed source (.start source) := by
    have hmode : (Mode.between false).In source := trivial
    have hends := ends_step Cursor.in_start hmode
    rw [hs] at hends
    exact hends
  have hraw : kind = .statement → wordThenClose? "raw" (body ++ Text.ofString kind.closeMark) = none := by
    rintro rfl
    have hlater : ∀ k ∈ after, s.cursor.offset ≤ k.offset := fun k hk =>
      offset_le_of_run hplaced.cursor hplaced.mode hafter hk
    have hfirst : (⟨.tagBegin .statement, 1, 0⟩ : Token) ∈ s.tokens ++ after := by
      rw [heq]
      exact List.mem_cons_self
    exact wordThenClose?_of_step hc (fun _ => hhead) hs hlater hfirst rfl
  obtain ⟨c, hstep, hinner, hoffset⟩ := step_opening false plain_nil hc hhead hraw
  cases hs.symm.trans hstep
  have hafter' : after = tokens ++
      [⟨.tagEnd kind, line, body.length + 2⟩, ⟨.eof, line, body.length + 4⟩] := (List.cons.inj heq).2
  have htwo : c.offset = 2 := hoffset
  have hend : body.length + 2 = c.offset + body.length := by omega
  rw [hafter', hend] at hafter
  exact ⟨_, c, source, tokens, line, line, body.length + 4, hplaced.cursor, hinner, hafter, hkinds, hreadings, hraw⟩

/-- A tag with a body that is read as one on its own: its tokens are those of the body, whatever its dashes are. -/
theorem steps_code (strip : Bool) (ha : Plain a) (hbody : LexesAlone kind body inner)
    (hstart : body.head? ≠ some ('-' : CodeUnit)) (hend : body.getLast? ≠ some ('-' : CodeUnit)) (hne : body ≠ [])
    (hc : c.At line
      (a ++ (opening (openUnit kind) l ++ (body ++ (dash r ++ (Text.ofString kind.closeMark ++ more)))))) :
    ∃ c', Steps c (.between strip)
        (dataReadings line a strip l ++ ((.tagBegin kind, line + Text.lineFeeds a) ::
          inner.map (fun p => (p.1, line + Text.lineFeeds a + p.2)) ++
            [(.tagEnd kind, line + Text.lineFeeds a + Text.lineFeeds body)])) c' (.between r) ∧
      c'.At (line + Text.lineFeeds a + Text.lineFeeds body) more := by
  obtain ⟨fuel, lone, source, tokens, endLine, endLine', endOffset, hsource, hlone, hrun, htokens, hinner, hraw⟩ :=
    run_of_lexesAlone hbody hstart hne
  have hhead : ∀ t, (body ++ t).head? ≠ some ('-' : CodeUnit) := by
    intro t
    obtain ⟨u, body, rfl⟩ := List.exists_cons_of_ne_nil hne
    exact hstart
  have hraw' : kind = .statement →
      wordThenClose? "raw" (body ++ (dash r ++ (Text.ofString kind.closeMark ++ more))) = none := by
    rintro rfl
    exact wordThenClose?_closing hend (hraw rfl) r more
  obtain ⟨c', hstep, hc', -⟩ := step_opening strip ha hc (hhead _) hraw'
  have hread : Body kind [] body 0 inner := body_of_run hsource hrun hlone htokens hinner hend
  obtain ⟨c'', hsteps, hafter⟩ := steps_body (line + Text.lineFeeds a) hread r more hc'
  refine ⟨c'', ?_, hafter⟩
  have hall := Steps.next (rest_ne_nil hc) hstep hsteps
  rw [List.map_append, readings_dataTokens hc, List.append_assoc] at hall
  exact hall

end Lexer
end Stencil
