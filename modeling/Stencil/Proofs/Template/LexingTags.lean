import Stencil.Proofs.Literal.Reading
import Stencil.Proofs.Template.LexerSteps
import Stencil.Proofs.Template.Printing
import Stencil.Value.Display

/-!
Tokens inside tags: how texts that are written next to each other, with blanks between them, are split. Inside
brackets no end of the tag is seen, so that brackets of every kind can be closed one after the other.
-/

namespace Stencil.Lexer

open Stencil.Literal (Blanks Apart isNumberUnit isNumberUnit_of_isDigit isBlank_of_isNumberUnit takeWhile_name)

variable {c c' c'' : Cursor} {mode mode' mode'' : Mode} {kinds kinds' : List TokenKind}
  {before between after : List Operator} {blanks t t' rest more : Text} {u : CodeUnit}

/-! ## Runs -/

/-- Reading goes on from one place to another and gives tokens of these kinds, in a step for each unit at most. -/
def Passes (c : Cursor) (mode : Mode) (kinds : List TokenKind) (c' : Cursor) (mode' : Mode) : Prop :=
  ∃ tokens steps, tokens.map (·.kind) = kinds ∧ steps + c'.rest.length ≤ c.rest.length ∧
    ∀ fuel, run (steps + fuel) c mode = (tokens ++ ·) <$> run fuel c' mode'

theorem Passes.trans (h : Passes c mode kinds c' mode') (h' : Passes c' mode' kinds' c'' mode'') :
    Passes c mode (kinds ++ kinds') c'' mode'' := by
  obtain ⟨tokens, steps, hkinds, hlength, hrun⟩ := h
  obtain ⟨tokens', steps', hkinds', hlength', hrun'⟩ := h'
  refine ⟨tokens ++ tokens', steps + steps', by rw [List.map_append, hkinds, hkinds'], by omega, fun fuel => ?_⟩
  rw [Nat.add_assoc, hrun, hrun']
  cases run fuel c'' mode'' with
  | ok done => exact congrArg Except.ok (List.append_assoc tokens tokens' done).symm
  | error e => rfl

theorem Passes.step {k : TokenKind} {line offset : Nat} (h : step c mode = .ok ⟨[⟨k, line, offset⟩], c', mode'⟩)
    (hlt : c'.rest.length < c.rest.length) : Passes c mode [k] c' mode' := by
  have hmore : GoesOn c mode := .inl (List.ne_nil_of_length_pos (by omega))
  refine ⟨[⟨k, line, offset⟩], 1, rfl, by omega, fun fuel => ?_⟩
  rw [Nat.add_comm, run_of_ok hmore h]

/-! ## Steps inside a tag -/

/-- No end of an output tag is seen ahead. -/
def Goes (brackets : List Operator) (t : Text) : Prop :=
  (brackets.isEmpty && (('-' : CodeUnit) :: Text.ofString TagKind.output.closeMark).isPrefixOf t) = false ∧
    (brackets.isEmpty && (Text.ofString TagKind.output.closeMark).isPrefixOf t) = false

theorem goes_of_head (hdash : u ≠ '-') (hbrace : u ≠ '\x7d') : Goes before (u :: more) := by
  have hmark : Text.ofString TagKind.output.closeMark = ['\x7d', '\x7d'] := by decide
  unfold Goes
  rw [hmark]
  simp [List.isPrefixOf, hdash.symm, hbrace.symm]

theorem goes_of_dash (hbrace : u ≠ '\x7d') : Goes before ('-' :: u :: more) := by
  have hmark : Text.ofString TagKind.output.closeMark = ['\x7d', '\x7d'] := by decide
  have hdash : ('\x7d' : CodeUnit) ≠ '-' := by decide
  unfold Goes
  rw [hmark]
  simp [List.isPrefixOf, hdash, hbrace.symm]

theorem goes_of_ne (h : before ≠ []) : Goes before t := by
  have hempty : before.isEmpty = false := List.isEmpty_eq_false_iff.mpr h
  unfold Goes
  rw [hempty]
  exact ⟨rfl, rfl⟩

theorem skipBlanks_rest (hblanks : Blanks blanks) (hu : u.isBlank = false) (hc : c.rest = blanks ++ u :: more) :
    c.skipBlanks.rest = u :: more := by
  change c.rest.drop (c.rest.takeWhile CodeUnit.isBlank).length = _
  rw [hc, List.takeWhile_append_of_pos hblanks, List.takeWhile_cons, hu, if_neg Bool.false_ne_true, List.append_nil]
  exact List.drop_left

/-- A text between two others is split into tokens of these kinds, whatever blanks stand in front of it. -/
def Lexes (before : List Operator) (t : Text) (kinds : List TokenKind) (after : List Operator) (rest : Text) : Prop :=
  ∀ (c : Cursor) (openLine : Nat) (blanks : Text), Blanks blanks → c.rest = blanks ++ (t ++ rest) →
    ∃ c', c'.rest = rest ∧ Passes c (.inside .output openLine before) kinds c' (.inside .output openLine after)

theorem Lexes.append (h : Lexes before t kinds between (blanks ++ (t' ++ rest))) (hblanks : Blanks blanks)
    (h' : Lexes between t' kinds' after rest) : Lexes before (t ++ (blanks ++ t')) (kinds ++ kinds') after rest := by
  intro c openLine ahead hahead hc
  obtain ⟨c', hc', hpasses⟩ := h c openLine ahead hahead (hc.trans (by simp only [List.append_assoc]))
  obtain ⟨c'', hc'', hpasses'⟩ := h' c' openLine blanks hblanks hc'
  exact ⟨c'', hc'', hpasses.trans hpasses'⟩

/-- A single token that starts with a unit. -/
theorem lexes_of_step {w : Text} {k : TokenKind} (hblank : u.isBlank = false)
    (h : ∀ (c : Cursor) (openLine : Nat), c.skipBlanks.rest = u :: (w ++ rest) → ∃ c', c'.rest = rest ∧
      stepInside c .output openLine before =
        .ok ⟨[⟨k, c.skipBlanks.line, c.skipBlanks.offset⟩], c', .inside .output openLine after⟩) :
    Lexes before (u :: w) [k] after rest := by
  intro c openLine blanks hblanks hc
  have hskip : c.skipBlanks.rest = u :: (w ++ rest) := skipBlanks_rest hblanks hblank hc
  obtain ⟨c', hc', hstep⟩ := h c openLine hskip
  refine ⟨c', hc', .step hstep ?_⟩
  rw [hc, hc']
  simp only [List.length_append, List.length_cons]
  omega

/-! ## Strings -/

/-- How a unit is written between quotes. -/
def escapeUnit (u : CodeUnit) : Text := if u = '\\' || u = '\'' then ['\\', u] else [u]

theorem quoted_eq (t : Text) : quoted t = ('\'' : CodeUnit) :: (t.flatMap escapeUnit ++ [('\'' : CodeUnit)]) := rfl

/-- What is written between quotes is read back up to the closing quote. -/
theorem stringBody?_escaped (t rest : Text) :
    stringBody? '\'' (t.flatMap escapeUnit ++ ('\'' : CodeUnit) :: rest) =
      some (t, (t.flatMap escapeUnit).length + 1) := by
  induction t with
  | nil => cases rest <;> rfl
  | cons u t ih =>
    rw [List.flatMap_cons, List.append_assoc, List.length_append]
    generalize hmore : t.flatMap escapeUnit ++ ('\'' : CodeUnit) :: rest = more at ih ⊢
    by_cases hescape : u = '\\' ∨ u = '\''
    · have hunit : escapeUnit u = [('\\' : CodeUnit), u] := if_pos (by simpa using hescape)
      have hvalue : escapeValue u = [u] := by rcases hescape with rfl | rfl <;> decide
      rw [hunit, List.cons_append, List.cons_append, List.nil_append, stringBody?, if_neg (by decide), if_pos rfl, ih,
        hvalue]
      simp only [Option.map_some, List.singleton_append, List.length_cons, List.length_nil]
      congr 2
      omega
    · rw [not_or] at hescape
      have hunit : escapeUnit u = [u] := if_neg (by simpa using hescape)
      obtain ⟨v, more, rfl⟩ : ∃ v more', more = v :: more' := by
        cases more with
        | nil => simp at hmore
        | cons v more => exact ⟨v, more, rfl⟩
      rw [hunit, List.singleton_append, stringBody?, if_neg hescape.2, if_neg hescape.1, ih]
      simp only [Option.map_some, List.length_singleton]
      congr 2
      omega

theorem lexes_quoted (t : Text) : Lexes before (quoted t) [.string t] before rest := by
  rw [quoted_eq]
  refine lexes_of_step (by decide) fun c openLine hc => ?_
  rw [List.append_assoc, List.singleton_append] at hc
  have hgoes : Goes before c.skipBlanks.rest := hc ▸ goes_of_head (by decide) (by decide)
  refine ⟨(c.skipBlanks.advance ((t.flatMap escapeUnit).length + 1)).skip 1, ?_, ?_⟩
  · change (c.skipBlanks.rest.drop _).drop 1 = rest
    rw [hc, List.drop_succ_cons, List.drop_left' rfl]
    rfl
  · exact stepInside_eq_iff.mpr (.string hc hgoes (by decide) (stringBody?_escaped t rest))

/-! ## Numbers and words -/

/-- Neither digits nor an exponent go on. -/
def Halts (rest : Text) : Prop := ∀ u ∈ rest.head?, u.isDigit = false ∧ u ≠ '_' ∧ u ≠ 'e' ∧ u ≠ 'E'

theorem halts_of_apart (h : Apart rest) : Halts rest := by
  intro u hu
  have hunit := h u hu
  have hne : ∀ v : CodeUnit, isNumberUnit v = true → u ≠ v := by
    rintro v hv rfl
    rw [hunit] at hv
    cases hv
  refine ⟨?_, hne '_' (by decide), hne 'e' (by decide), hne 'E' (by decide)⟩
  apply Bool.eq_false_iff.mpr
  intro hdigit
  rw [isNumberUnit_of_isDigit hdigit] at hunit
  cases hunit

theorem exponentLength_eq_zero (hrest : Halts rest) : Text.exponentLength rest = 0 := by
  cases rest with
  | nil => rfl
  | cons u rest => simp [Text.exponentLength, (hrest u rfl).2.2]

theorem fractionLength_eq_zero (hrest : Apart rest) : Text.fractionLength rest = 0 := by
  cases rest with
  | nil => rfl
  | cons u rest =>
    have hu : u ≠ '.' := by
      rintro rfl
      cases hrest _ rfl
    simp [Text.fractionLength, hu]

/-- A run of digits that no number or word follows is one integer. -/
theorem numberLength_integer (hwhole : Text.digitsLength (t ++ rest) = t.length) (hrest : Apart rest) :
    numberLength (t ++ rest) = (t.length, false) := by
  unfold numberLength
  dsimp only
  rw [hwhole, List.drop_left' rfl, fractionLength_eq_zero hrest, Nat.add_zero, List.drop_left' rfl,
    exponentLength_eq_zero (halts_of_apart hrest)]
  rfl

theorem numberLength_digits {digits : Text} (hdigits : ∀ u ∈ digits, u.isDigit = true) (hrest : Apart rest) :
    numberLength (digits ++ rest) = (digits.length, false) := by
  have hhalts := halts_of_apart hrest
  apply numberLength_integer _ hrest
  exact Text.runLength_append (by decide) (fun u hu => ⟨(hhalts u hu).1, (hhalts u hu).2.1⟩) hdigits

/-- A digit or a letter starts nothing but a number or a word. -/
theorem facts_of_isNumberUnit (h : isNumberUnit u = true) :
    u.isBlank = false ∧ u ≠ '-' ∧ u ≠ '\x7d' := by
  have hne : ∀ v : CodeUnit, isNumberUnit v = false → u ≠ v := by
    rintro v hv rfl
    rw [h] at hv
    cases hv
  exact ⟨isBlank_of_isNumberUnit h, hne _ (by decide), hne _ (by decide)⟩

/-- A number that starts with a digit, and is as long as it is read. -/
theorem lexes_number {number : Text} {float : Bool} (hu : ∀ u ∈ number.head?, u.isDigit = true) (hne : number ≠ [])
    (hlength : numberLength (number ++ rest) = (number.length, float)) :
    Lexes before number [if float then .float number else .integer number] before rest := by
  cases number with
  | nil => exact absurd rfl hne
  | cons u number =>
    have hu : u.isDigit = true := hu u rfl
    obtain ⟨hblank, hminus, hbrace⟩ := facts_of_isNumberUnit (isNumberUnit_of_isDigit hu)
    refine lexes_of_step hblank fun c openLine hc => ⟨c.skipBlanks.skip (number.length + 1), ?_, ?_⟩
    · change c.skipBlanks.rest.drop (number.length + 1) = rest
      rw [hc, List.drop_succ_cons, List.drop_left' rfl]
    · have hgoes : Goes before c.skipBlanks.rest := hc ▸ goes_of_head hminus hbrace
      have htake : c.skipBlanks.rest.take (u :: number).length = u :: number := hc ▸ List.take_left' rfl
      have hnumber : numberLength c.skipBlanks.rest = ((u :: number).length, float) := by rwa [hc]
      rw [← htake]
      exact stepInside_eq_iff.mpr (.number hc hgoes hu hnumber)

theorem lexes_digits {digits : Text} (hdigits : ∀ u ∈ digits, u.isDigit = true) (hne : digits ≠ [])
    (hrest : Apart rest) : Lexes before digits [.integer digits] before rest :=
  lexes_number (fun u hu => hdigits u (List.mem_of_head? hu)) hne (numberLength_digits hdigits hrest)

theorem lexes_name {word : Text} (hstart : u.isNameStart = true) (hword : word.all CodeUnit.isNamePart = true)
    (hrest : ∀ v ∈ rest.head?, v.isNamePart = false) : Lexes before (u :: word) [.name (u :: word)] before rest := by
  have hpart : u.isNamePart = true := by simp [CodeUnit.isNamePart, hstart]
  have hnumber : isNumberUnit u = true := by simp [isNumberUnit, hpart]
  have htake : (u :: (word ++ rest)).takeWhile CodeUnit.isNamePart = u :: word :=
    takeWhile_name (List.forall_mem_cons.mpr ⟨hpart, List.all_eq_true.mp hword⟩) hrest
  obtain ⟨hblank, hminus, hbrace⟩ := facts_of_isNumberUnit hnumber
  refine lexes_of_step hblank fun c openLine hc => ⟨c.skipBlanks.skip (u :: word).length, ?_, ?_⟩
  · change c.skipBlanks.rest.drop (word.length + 1) = rest
    rw [hc, List.drop_succ_cons, List.drop_left' rfl]
  · have hgoes : Goes before c.skipBlanks.rest := hc ▸ goes_of_head hminus hbrace
    exact stepInside_eq_iff.mpr (.name hc hgoes hstart (hc ▸ htake))

theorem lexes_word {word : Text} (hstart : u.isNameStart = true) (hword : word.all CodeUnit.isNamePart = true)
    (hrest : Apart rest) : Lexes before (u :: word) [.name (u :: word)] before rest :=
  lexes_name hstart hword hrest.isNamePart

/-! ## Operators -/

/-- An operator of one unit that starts no longer one, and nothing else. -/
structure Punctuation (op : Operator) (u : CodeUnit) : Prop where
  symbol : op.symbol.length = 1
  start : ∀ rest, Operator.ofStart? (u :: rest) = some op
  blank : u.isBlank = false
  quote : (u = '\'' || u = '"') = false
  word : isNumberUnit u = false

theorem punctuation_minus : Punctuation .minus '-' := ⟨rfl, fun _ => rfl, by decide, by decide, by decide⟩

theorem punctuation_comma : Punctuation .comma ',' := ⟨rfl, fun _ => rfl, by decide, by decide, by decide⟩

theorem punctuation_colon : Punctuation .colon ':' := ⟨rfl, fun _ => rfl, by decide, by decide, by decide⟩

theorem punctuation_leftBracket : Punctuation .leftBracket '[' := ⟨rfl, fun _ => rfl, by decide, by decide, by decide⟩

theorem punctuation_rightBracket : Punctuation .rightBracket ']' := ⟨rfl, fun _ => rfl, by decide, by decide, by decide⟩

theorem punctuation_leftBrace : Punctuation .leftBrace '\x7b' := ⟨rfl, fun _ => rfl, by decide, by decide, by decide⟩

theorem punctuation_rightBrace : Punctuation .rightBrace '\x7d' := ⟨rfl, fun _ => rfl, by decide, by decide, by decide⟩

/-- An operator of one unit that starts no word. -/
theorem lexes_operator {op : Operator} (hsymbol : op.symbol.length = 1)
    (hstart : Operator.ofStart? (u :: rest) = some op) (hblank : u.isBlank = false)
    (hquote : (u = '\'' || u = '"') = false) (hpart : u.isNamePart = false) (hgoes : Goes before (u :: rest))
    (htrack : track before op = some after) : Lexes before [u] [.operator op] after rest := by
  obtain ⟨hname, hdigit⟩ := Bool.or_eq_false_iff.mp hpart
  refine lexes_of_step hblank fun c openLine hc => ⟨c.skipBlanks.skip op.symbol.length, ?_, ?_⟩
  · change c.skipBlanks.rest.drop op.symbol.length = rest
    rw [hc, hsymbol]
    rfl
  · exact stepInside_eq_iff.mpr (.operator hc (hc ▸ hgoes) ⟨hquote, hdigit, hname⟩ (hc ▸ hstart) htrack)

theorem lexes_punctuation {op : Operator} (hop : Punctuation op u) (hgoes : Goes before (u :: rest))
    (htrack : track before op = some after) : Lexes before [u] [.operator op] after rest :=
  lexes_operator hop.symbol (hop.start rest) hop.blank hop.quote (Bool.or_eq_false_iff.mp hop.word).1 hgoes htrack

theorem lexes_dot : Lexes before [('.' : CodeUnit)] [.operator .dot] before rest :=
  lexes_operator rfl rfl (by decide) (by decide) (by decide) (goes_of_head (by decide) (by decide)) rfl

/-! ## Brackets -/

theorem join_cons (mark part : Text) (parts : List Text) :
    Text.join mark (part :: parts) = part ++ parts.flatMap (mark ++ ·) := by
  induction parts generalizing part with
  | nil => simp [Text.join]
  | cons next parts ih =>
    have hnext : Text.join mark (part :: next :: parts) = part ++ (mark ++ Text.join mark (next :: parts)) := by
      simp [Text.join, List.intercalate]
    rw [hnext, ih, List.flatMap_cons, List.append_assoc]

/-- Parts with commas between them, up to the closing mark. -/
theorem lexes_bracketed {opening closing : Operator} {o u : CodeUnit} (hopens : Punctuation opening o)
    (hcloses : Punctuation closing u) (hopening : opening.isOpening = true) (hclosing : closing.isOpening = false)
    (hpair : closing.opening? = some opening) (hgoes : o ≠ '-' ∧ o ≠ '\x7d') {parts : List (Text × List TokenKind)}
    (hparts : ∀ p ∈ parts, ∀ rest, Apart rest → Lexes (opening :: before) p.1 p.2 (opening :: before) rest) :
    Lexes before (o :: (Text.join (Text.ofString ", ") (parts.map (·.1)) ++ [u]))
      (.operator opening :: (Expr.separated (parts.map (·.2)) ++ [.operator closing])) before rest := by
  have hnone : Blanks [] := List.forall_mem_nil _
  have hspace : Blanks [(' ' : CodeUnit)] := List.forall_mem_singleton.mpr (by decide)
  have hseparator : Text.ofString ", " = [(',' : CodeUnit), (' ' : CodeUnit)] := by decide
  have hinside : ∀ more, Goes (opening :: before) more := fun _ => goes_of_ne (List.cons_ne_nil _ _)
  have hopen : ∀ rest, Lexes before [o] [.operator opening] (opening :: before) rest := fun rest =>
    lexes_punctuation hopens (goes_of_head hgoes.1 hgoes.2) (if_pos hopening)
  have hclose : Lexes (opening :: before) [u] [.operator closing] before rest :=
    lexes_punctuation hcloses (hinside _) (by simp [track, hclosing, hpair])
  -- what comes after an item: more of them, each after a comma, and the closing mark
  have hmore : ∀ parts : List (Text × List TokenKind),
      (∀ p ∈ parts, ∀ rest, Apart rest → Lexes (opening :: before) p.1 p.2 (opening :: before) rest) →
      Lexes (opening :: before) ((parts.map (·.1)).flatMap (Text.ofString ", " ++ ·) ++ [u])
        ((parts.map (·.2)).flatMap (.operator .comma :: ·) ++ [.operator closing]) before rest ∧
      Apart ((parts.map (·.1)).flatMap (Text.ofString ", " ++ ·) ++ [u] ++ rest) := by
    intro parts
    induction parts with
    | nil => exact fun _ => ⟨hclose, Literal.apart_cons hcloses.word rest⟩
    | cons p parts ih =>
      intro hparts
      obtain ⟨hp, hparts⟩ := List.forall_mem_cons.mp hparts
      obtain ⟨ih, hapart⟩ := ih hparts
      refine ⟨?_, Literal.apart_cons punctuation_comma.word _⟩
      have hcomma : ∀ rest, Lexes (opening :: before) [(',' : CodeUnit)] [.operator .comma] (opening :: before) rest :=
        fun rest => lexes_punctuation punctuation_comma (hinside _) rfl
      have hall := (hcomma _).append hspace ((hp _ hapart).append hnone ih)
      simpa [hseparator] using hall
  cases parts with
  | nil =>
    have hall := (hopen _).append hnone hclose
    simpa [Text.join, Expr.separated] using hall
  | cons p parts =>
    obtain ⟨hp, hparts⟩ := List.forall_mem_cons.mp hparts
    obtain ⟨hrest, hapart⟩ := hmore parts hparts
    have hall := Lexes.append (hopen _) hnone ((hp _ hapart).append hnone hrest)
    rw [List.map_cons, join_cons, List.map_cons, Expr.separated]
    simpa using hall

/-! ## Whole sources -/

/-- A source that does not end in a line feed is read as it is. -/
theorem trimmed_append {last : CodeUnit} (hlast : last ≠ '\n') (t : Text) (keep : Bool) :
    trimmed (t ++ [last]) keep = t ++ [last] := by
  cases keep with
  | true => rfl
  | false =>
    change trimFinalBreak (t ++ [last]) = _
    unfold trimFinalBreak
    rw [List.reverse_append, List.reverse_singleton, List.singleton_append]
    cases t.reverse with
    | nil => exact if_neg hlast
    | cons u rest => exact if_neg hlast

/-- The source of an output tag with a text in it. -/
def outputTag (t : Text) : Text := Text.ofString "\x7b\x7b " ++ t ++ Text.ofString " \x7d\x7d"

theorem passes_open (more : Text) : ∃ c, c.rest = (' ' : CodeUnit) :: more ∧
    Passes (.start (Text.ofString "\x7b\x7b " ++ more)) (.between false) [.tagBegin .output] c
      (.inside .output 1 []) := by
  have hstep : step (.start (Text.ofString "\x7b\x7b " ++ more)) (.between false) =
      .ok ⟨[⟨.tagBegin .output, 1, 0⟩], ⟨(' ' : CodeUnit) :: more, 2, 1⟩, .inside .output 1 []⟩ := rfl
  refine ⟨_, rfl, .step hstep ?_⟩
  change more.length + 1 < more.length + 3
  omega

theorem passes_close {openLine : Nat} (hc : c.rest = Text.ofString " \x7d\x7d") : ∃ c', c'.rest = [] ∧
    Passes c (.inside .output openLine []) [.tagEnd .output] c' (.between false) := by
  have hspace : Blanks [(' ' : CodeUnit)] := List.forall_mem_singleton.mpr (by decide)
  have hskip : c.skipBlanks.rest = Text.ofString "\x7d\x7d" := skipBlanks_rest hspace (by decide) hc
  have hafter : (c.skipBlanks.skip 2).rest = [] := by
    change c.skipBlanks.rest.drop 2 = []
    rw [hskip]
    rfl
  have hstep : stepInside c .output openLine [] =
      .ok ⟨[⟨.tagEnd .output, c.skipBlanks.line, c.skipBlanks.offset⟩], c.skipBlanks.skip 2, .between false⟩ :=
    stepInside_eq_iff.mpr (.bareEnd rfl ⟨[], hskip.symm⟩)
  refine ⟨c.skipBlanks.skip 2, hafter, .step hstep ?_⟩
  rw [hafter, hc]
  decide

/-- A template of one output tag is split into the marks of the tag and what stands between them. -/
theorem tokenize_output (h : Lexes [] t kinds [] (Text.ofString " \x7d\x7d")) (keep : Bool) :
    ∃ tokens, tokenize (outputTag t) keep = .ok tokens ∧
      tokens.map (·.kind) = .tagBegin .output :: (kinds ++ [.tagEnd .output, .eof]) := by
  have htrimmed : trimmed (outputTag t) keep = Text.ofString "\x7b\x7b " ++ (t ++ Text.ofString " \x7d\x7d") := by
    have hfeed : ('\x7d' : CodeUnit) ≠ '\n' := by decide
    have hend : Text.ofString " \x7d\x7d" = Text.ofString " \x7d" ++ [('\x7d' : CodeUnit)] := by decide
    unfold outputTag
    rw [hend, ← List.append_assoc _ (Text.ofString " \x7d"), trimmed_append hfeed]
    simp only [List.append_assoc]
  have hspace : Blanks [(' ' : CodeUnit)] := List.forall_mem_singleton.mpr (by decide)
  obtain ⟨c, hc, hopen⟩ := passes_open (t ++ Text.ofString " \x7d\x7d")
  obtain ⟨c', hc', hinside⟩ := h c 1 _ hspace hc
  obtain ⟨c'', hc'', hclose⟩ := passes_close hc'
  obtain ⟨tokens, steps, hkinds, hlength, hrun⟩ := (hopen.trans hinside).trans hclose
  rw [hc'', List.length_nil, Nat.add_zero] at hlength
  refine ⟨tokens ++ [⟨.eof, c''.line, c''.offset⟩], ?_, ?_⟩
  · unfold tokenize
    dsimp only
    rw [htrimmed]
    obtain ⟨fuel, hfuel⟩ := Nat.exists_eq_add_of_le hlength
    change run ((Cursor.start _).rest.length + 1) _ _ = _
    rw [hfuel, Nat.add_assoc, hrun, run_over hc'']
    rfl
  · rw [List.map_append, hkinds]
    simp

end Stencil.Lexer
