import Stencil.Proofs.Lines
import Stencil.Proofs.Template.LexerSteps

/-! Tokens stand where they say: in the order of the source, each with its spelling there, on the line that
the line feeds before it make. -/
namespace Stencil

variable {source : Text} {c : Cursor}

/-- The source has a line of this number. -/
def OnLine (source : Text) (line : Nat) : Prop := 1 ≤ line ∧ line ≤ 1 + Text.lineFeeds source

theorem onLine_take (source : Text) (n : Nat) : OnLine source (1 + Text.lineFeeds (source.take n)) := by
  have hle : Text.lineFeeds (source.take n) ≤ Text.lineFeeds source :=
    List.Sublist.count_le _ (List.take_sublist n source)
  unfold OnLine
  omega

theorem lineFeeds_take_mono (t : Text) {i j : Nat} (h : i ≤ j) :
    Text.lineFeeds (t.take i) ≤ Text.lineFeeds (t.take j) :=
  List.Sublist.count_le _ ((List.take_prefix_take_left h).sublist)

theorem Operator.ofStart?_isPrefix {t : Text} {op : Operator} (h : ofStart? t = some op) :
    (Text.ofString op.symbol).isPrefixOf t := by
  unfold ofStart? at h
  have hprefix := List.find?_some h
  exact hprefix

namespace Cursor

/-- The cursor is a place in the source, on the right line. -/
structure In (source : Text) (c : Cursor) : Prop where
  rest : c.rest = source.drop c.offset
  line : c.line = 1 + Text.lineFeeds (source.take c.offset)

theorem in_start : In source (start source) := ⟨rfl, rfl⟩

theorem In.onLine (h : In source c) : OnLine source c.line := h.line ▸ onLine_take source c.offset

theorem In.advance (h : In source c) (n : Nat) : In source (c.advance n) where
  rest := by simp [Cursor.advance, skip, h.rest]
  line := by
    have htake : source.take (c.offset + n) = source.take c.offset ++ (source.drop c.offset).take n :=
      List.take_add
    simp only [Cursor.advance, skip, h.line, h.rest, htake, Text.lineFeeds, List.count_append]
    omega

/-- Nothing is counted, and nothing need be, where no line ends. -/
theorem In.skip (h : In source c) {n : Nat} (hn : ('\n' : CodeUnit) ∉ c.rest.take n) : In source (c.skip n) := by
  have hzero : Text.lineFeeds (c.rest.take n) = 0 := List.count_eq_zero.mpr hn
  have heq : c.advance n = c.skip n := by simp [Cursor.advance, Cursor.skip, hzero]
  exact heq ▸ h.advance n

theorem In.skip_mark (h : In source c) {mark : Text} (hm : mark <+: c.rest) (hf : ('\n' : CodeUnit) ∉ mark) :
    In source (c.skip mark.length) := by
  refine h.skip ?_
  rwa [← List.prefix_iff_eq_take.mp hm]

theorem In.skipBlanks (h : In source c) : In source c.skipBlanks := h.advance _

end Cursor

namespace Lexer

/-- An opening mark is a brace and the unit that tells its kind. -/
theorem openerAt?_eq_some {t : Text} {n : Nat} {o : Opener} {dash : Bool} (h : openerAt? t = some (n, o, dash)) :
    ∃ u rest, t.drop n = ('\x7b' : CodeUnit) :: u :: rest ∧ Opener.ofUnit? u = some o ∧
      dash = decide (rest.head? = some ('-' : CodeUnit)) := by
  induction t generalizing n with
  | nil => cases h
  | cons v t ih =>
    unfold openerAt? at h
    split at h
    · rename_i opener hopener
      cases h
      split at hopener
      · obtain ⟨u, hu, ho⟩ := Option.bind_eq_some_iff.mp hopener
        obtain ⟨rest, rfl⟩ := List.head?_eq_some_iff.mp hu
        rename_i hv
        exact ⟨u, rest, by rw [hv]; rfl, ho, by simp⟩
      · cases hopener
    · obtain ⟨⟨m, o', dash'⟩, hm, he⟩ := Option.map_eq_some_iff.mp h
      cases he
      exact ih hm

theorem ofUnit?_ne_feed {u : CodeUnit} {o : Opener} (h : Opener.ofUnit? u = some o) : ('\n' : CodeUnit) ≠ u := by
  rintro rfl
  revert h
  decide +revert

theorem ofUnit?_openMark {u : CodeUnit} {tag : TagKind} (h : Opener.ofUnit? u = some (.tag tag)) :
    Text.ofString tag.openMark = [('\x7b' : CodeUnit), u] := by
  unfold Opener.ofUnit? at h
  split at h
  · rename_i hu
    cases h
    subst hu
    decide
  · split at h
    · rename_i hu
      cases h
      subst hu
      decide
    · split at h <;> cases h

/-- The mark that opens a tag or a comment holds no line feed, with its dash. -/
theorem in_behindMark (h : c.In source) {n : Nat} {o : Opener} {dash : Bool}
    (hopener : openerAt? c.rest = some (n, o, dash)) : (behindMark c n dash).In source := by
  obtain ⟨u, rest, hrest, ho, hd⟩ := openerAt?_eq_some hopener
  have hmark : (c.advance n).rest = ('\x7b' : CodeUnit) :: u :: rest := hrest
  have hu := ofUnit?_ne_feed ho
  have hb : ('\n' : CodeUnit) ≠ '\x7b' := by decide
  have hm : ('\n' : CodeUnit) ≠ '-' := by decide
  refine (h.advance n).skip ?_
  rw [hmark]
  split
  · rename_i hdash
    rw [hd, decide_eq_true_eq] at hdash
    obtain ⟨more, rfl⟩ := List.head?_eq_some_iff.mp hdash
    simp [hu, hb, hm]
  · simp [hu, hb]

theorem lt_behindMark (c : Cursor) (n : Nat) (dash : Bool) : c.offset + n < (behindMark c n dash).offset := by
  change c.offset + n < c.offset + n + _
  split <;> omega

section spelling

variable {p : CodeUnit → Bool} {t : Text}

theorem feed_not_mem_run (hp : p ('\n' : CodeUnit) = false) (t : Text) :
    ('\n' : CodeUnit) ∉ t.take (Text.runLength p t) := by
  have hunit : ∀ {u}, p u = true → ('\n' : CodeUnit) ≠ u := by
    rintro u hu rfl
    rw [hp] at hu
    cases hu
  have hscore : ('\n' : CodeUnit) ≠ '_' := by decide
  fun_induction Text.runLength p t with
  | case1 => simp
  | case2 u hu => simpa using hunit hu
  | case3 u hu => simp
  | case4 u v rest hu hv ih =>
    rw [Bool.and_eq_true, decide_eq_true_eq] at hv
    rw [Nat.add_comm, List.take_succ_cons, List.take_succ_cons, hv.1]
    simpa [hunit hu, hscore] using ih
  | case5 u v rest hu hv ih =>
    rw [Nat.add_comm, List.take_succ_cons]
    simpa [hunit hu] using ih
  | case6 u v rest hu => simp

theorem isDigit_feed : CodeUnit.isDigit ('\n' : CodeUnit) = false := by decide

theorem isNamePart_feed : CodeUnit.isNamePart ('\n' : CodeUnit) = false := by decide

theorem feed_not_mem_digits (t : Text) : ('\n' : CodeUnit) ∉ t.take t.digitsLength :=
  feed_not_mem_run isDigit_feed t

theorem feed_not_mem_fraction (t : Text) : ('\n' : CodeUnit) ∉ t.take (Text.fractionLength t) := by
  fun_cases Text.fractionLength t with
  | case1 u rest hu =>
    rw [Bool.and_eq_true, decide_eq_true_eq] at hu
    have hdot : ('\n' : CodeUnit) ≠ '.' := by decide
    rw [Nat.add_comm, List.take_succ_cons, hu.1]
    simpa [hdot] using feed_not_mem_digits rest
  | case2 => simp
  | case3 => simp

theorem feed_not_mem_exponent (t : Text) : ('\n' : CodeUnit) ∉ t.take (Text.exponentLength t) := by
  fun_cases Text.exponentLength t with
  | case1 => simp
  | case2 u rest hu sign digits _ =>
    have hmark : ('\n' : CodeUnit) ≠ u := by
      rintro rfl
      revert hu
      decide
    have hsign : ('\n' : CodeUnit) ∉ rest.take sign := by
      cases rest with
      | nil => simp
      | cons v more =>
        dsimp only [sign]
        split
        · rename_i hv
          have hne : ('\n' : CodeUnit) ≠ v := by
            rintro rfl
            revert hv
            decide
          simpa using hne
        · simp
    rw [Nat.add_assoc, Nat.add_comm 1, List.take_succ_cons, List.take_add]
    simp [hmark, hsign, digits, feed_not_mem_digits]
  | case3 => simp
  | case4 => simp

theorem feed_not_mem_number (t : Text) : ('\n' : CodeUnit) ∉ t.take (numberLength t).1 := by
  unfold numberLength
  dsimp only
  rw [List.take_add, List.take_add, List.mem_append, List.mem_append]
  rintro ((h | h) | h)
  · exact feed_not_mem_digits t h
  · exact feed_not_mem_fraction _ h
  · exact feed_not_mem_exponent _ h

theorem numberLength_pos {u : CodeUnit} {rest : Text} (hu : u.isDigit) : 0 < (numberLength (u :: rest)).1 := by
  have hdigits : 0 < Text.digitsLength (u :: rest) := by
    unfold Text.digitsLength
    cases rest with
    | nil => simp [Text.runLength, hu]
    | cons v rest =>
      have hcases : ∀ b : Bool, 0 < if b then 2 + Text.runLength CodeUnit.isDigit rest
          else 1 + Text.runLength CodeUnit.isDigit (v :: rest) := by
        intro b
        split <;> omega
      unfold Text.runLength
      rw [if_pos hu]
      exact hcases _
  unfold numberLength
  dsimp only
  omega

/-- A string ends in its quote. -/
theorem stringBody?_quote {quote : CodeUnit} {value : Text} {n : Nat} (h : stringBody? quote t = some (value, n)) :
    ∃ m rest, n = m + 1 ∧ t.drop m = quote :: rest := by
  fun_induction stringBody? quote t generalizing value n with
  | case1 => cases h
  | case2 => cases h; exact ⟨0, [], rfl, rfl⟩
  | case3 => cases h
  | case4 v rest => cases h; exact ⟨0, v :: rest, rfl, rfl⟩
  | case5 v rest hv ih =>
    obtain ⟨⟨value', _⟩, hm, he⟩ := Option.map_eq_some_iff.mp h
    cases he
    obtain ⟨m, more, rfl, hmore⟩ := ih hm
    exact ⟨m + 2, more, rfl, hmore⟩
  | case6 u v rest hu hv ih =>
    obtain ⟨⟨value', _⟩, hm, he⟩ := Option.map_eq_some_iff.mp h
    cases he
    obtain ⟨m, more, rfl, hmore⟩ := ih hm
    exact ⟨m + 1, more, rfl, hmore⟩

end spelling

/-- What a source goes on with where a token stands. Text between tags stands with the blanks and the line
breaks that its value lacks, and a string between its quotes. -/
def Spelled (rest : Text) : TokenKind → Prop
  | .data value => ∃ n stripStart stripEnd, value = dataValue (rest.take n) stripStart stripEnd ∧ value ≠ []
  | .tagBegin tag => Text.ofString tag.openMark <+: rest
  | .tagEnd tag => Text.ofString tag.closeMark <+: rest ∨ ('-' : CodeUnit) :: Text.ofString tag.closeMark <+: rest
  | .name word => word ≠ [] ∧ word.all CodeUnit.isNamePart ∧ word <+: rest
  | .string value => ∃ quote body n, rest = quote :: body ∧ (quote = '\'' ∨ quote = '"') ∧
      stringBody? quote body = some (value, n)
  | .integer spelling | .float spelling => spelling ≠ [] ∧ spelling <+: rest
  | .operator op => Text.ofString op.symbol <+: rest
  | .eof => rest = []

end Lexer

/-- The token stands at its place in the source, on its line. -/
structure Token.Placed (source : Text) (k : Token) : Prop where
  line : k.line = 1 + Text.lineFeeds (source.take k.offset)
  spelled : Lexer.Spelled (source.drop k.offset) k.kind

theorem Token.Placed.name {k : Token} (h : k.Placed source) (word : Text) (hk : k.kind = .name word) :
    word ≠ [] ∧ word.all CodeUnit.isNamePart ∧ word <+: source.drop k.offset := by
  have hspelled := h.spelled
  rwa [hk] at hspelled

theorem Token.Placed.onLine {k : Token} (h : k.Placed source) : OnLine source k.line :=
  h.line ▸ onLine_take source k.offset

namespace Lexer

theorem placed_of_spelled (h : c.In source) {kind : TokenKind} (hk : Spelled c.rest kind) :
    Token.Placed source ⟨kind, c.line, c.offset⟩ where
  line := h.line
  spelled := h.rest ▸ hk

/-- Tokens one after the other, all from one place on and before another. -/
structure InOrder (first past : Nat) (tokens : List Token) : Prop where
  le : first ≤ past
  between : ∀ k ∈ tokens, first ≤ k.offset ∧ k.offset < past
  increasing : tokens.Pairwise fun k l => k.offset < l.offset

namespace InOrder

variable {first mid past : Nat} {ks ls : List Token}

theorem nil (h : first ≤ past) : InOrder first past [] := ⟨h, by simp, .nil⟩

theorem single {k : Token} (h : first ≤ k.offset) (h' : k.offset < past) : InOrder first past [k] :=
  ⟨by omega, by simp [h, h'], by simp⟩

theorem append (h : InOrder first mid ks) (h' : InOrder mid past ls) : InOrder first past (ks ++ ls) where
  le := Nat.le_trans h.le h'.le
  between := by
    intro k hk
    have hle := h.le
    have hle' := h'.le
    rcases List.mem_append.mp hk with hk | hk
    · have := h.between k hk
      omega
    · have := h'.between k hk
      omega
  increasing := by
    refine List.pairwise_append.mpr ⟨h.increasing, h'.increasing, ?_⟩
    intro k hk l hl
    have := h.between k hk
    have := h'.between l hl
    omega

theorem mono (h : InOrder first mid ks) (hle : mid ≤ past) : InOrder first past ks := by
  simpa using h.append (.nil hle)

end InOrder

/-- A tag was opened on a line of the source. -/
def Mode.In (source : Text) : Mode → Prop
  | .between _ => True
  | .inside _ openLine _ => OnLine source openLine

/-- What a step from a cursor leaves: placed tokens in their order, and a cursor in the source. -/
structure Step.Placed (source : Text) (c : Cursor) (step : Step) : Prop where
  tokens : ∀ k ∈ step.tokens, k.Placed source
  order : InOrder c.offset step.cursor.offset step.tokens
  cursor : step.cursor.In source
  mode : step.mode.In source

/-- How a step from a cursor ends. -/
def Ends (source : Text) (c : Cursor) : Except Unreadable Step → Prop
  | .ok step => step.Placed source c
  | .error (.malformed e) => OnLine source e.line
  | .error .exhausted => False

theorem placed_dataTokens (h : c.In source) (n : Nat) (stripStart stripEnd : Bool) :
    (∀ k ∈ dataTokens c n stripStart stripEnd, k.Placed source) ∧
      InOrder c.offset (c.offset + n) (dataTokens c n stripStart stripEnd) := by
  unfold dataTokens
  dsimp only
  split
  · exact ⟨by simp, .nil (Nat.le_add_right _ n)⟩
  · rename_i hvalue
    rw [List.isEmpty_iff] at hvalue
    have hn : 0 < n := by
      rcases Nat.eq_zero_or_pos n with rfl | hn
      · cases stripStart <;> cases stripEnd <;> exact absurd rfl hvalue
      · exact hn
    refine ⟨?_, .single (Nat.le_refl _) (Nat.lt_add_of_pos_right hn)⟩
    rw [List.forall_mem_singleton]
    exact placed_of_spelled h ⟨n, stripStart, stripEnd, rfl, hvalue⟩

theorem ends_comment {start : Cursor} (h : c.In source) {before : List Token}
    (hb : ∀ k ∈ before, k.Placed source) (ho : InOrder start.offset c.offset before) (dash : Bool) :
    Ends source start (comment before c dash) := by
  unfold comment
  split
  · exact h.onLine
  · rename_i n hn
    have hmark := (Text.find?_eq_some hn).1
    have hin : ((c.advance n).skip 2).In source := (h.advance n).skip_mark hmark (by decide)
    refine ⟨hb, ho.mono ?_, hin, trivial⟩
    change c.offset ≤ c.offset + n + 2
    omega

theorem ends_rawBlock {start : Cursor} (h : c.In source) {before : List Token}
    (hb : ∀ k ∈ before, k.Placed source) (ho : InOrder start.offset c.offset before) (width : Nat) (strip : Bool) :
    Ends source start (rawBlock before c width strip) := by
  unfold rawBlock
  dsimp only
  split
  · exact h.onLine
  · rename_i n length dash dashAfter _
    have hbody := h.advance width
    obtain ⟨hdata, hdataOrder⟩ := placed_dataTokens hbody n strip dash
    refine ⟨?_, ?_, (hbody.advance n).advance length, trivial⟩
    · intro k hk
      rcases List.mem_append.mp hk with hk | hk
      · exact hb k hk
      · exact hdata k hk
    · have hopen : InOrder start.offset (c.offset + width) before := ho.mono (Nat.le_add_right _ width)
      exact (hopen.append hdataOrder).mono (Nat.le_add_right _ length)

theorem ends_betweenStep (h : c.In source) {strip : Bool} {r : Except Unreadable Step} (hstep : BetweenStep c strip r) :
    Ends source c r := by
  cases hstep with
  | last hopener =>
    obtain ⟨hdata, horder⟩ := placed_dataTokens h c.rest.length strip false
    exact ⟨hdata, horder, h.advance _, trivial⟩
  | @comment n dash hopener =>
    obtain ⟨hdata, horder⟩ := placed_dataTokens h n strip dash
    exact ends_comment (in_behindMark h hopener) hdata (horder.mono (Nat.le_of_lt (lt_behindMark c n dash))) dash
  | @raw n width dash stripBody hopener hword =>
    obtain ⟨hdata, horder⟩ := placed_dataTokens h n strip dash
    exact ends_rawBlock (in_behindMark h hopener) hdata (horder.mono (Nat.le_of_lt (lt_behindMark c n dash))) width
      stripBody
  | @tag kind n dash hopener hword =>
    obtain ⟨hdata, horder⟩ := placed_dataTokens h n strip dash
    obtain ⟨u, rest, hrest, hu, -⟩ := openerAt?_eq_some hopener
    have hmark := h.advance n
    have hbegin : Token.Placed source ⟨.tagBegin kind, (c.advance n).line, (c.advance n).offset⟩ := by
      refine placed_of_spelled hmark ⟨rest, ?_⟩
      rw [ofUnit?_openMark hu]
      exact hrest.symm
    refine ⟨?_, horder.append (.single (Nat.le_refl _) (lt_behindMark c n dash)), in_behindMark h hopener,
      hmark.onLine⟩
    intro k hk
    rcases List.mem_append.mp hk with hk | hk
    · exact hdata k hk
    · rw [List.mem_singleton] at hk
      exact hk ▸ hbegin

/-- A token of this kind stands at a cursor, and another cursor behind it. -/
structure Found (source : Text) (c after : Cursor) (kind : TokenKind) : Prop where
  spelled : Spelled c.rest kind
  cursor : after.In source
  lt : c.offset < after.offset

section found

variable {u : CodeUnit} {rest : Text}

/-- A token that is spelled by a text of its own, without line feeds. -/
theorem found_mark (h : c.In source) (kind : TokenKind) (hk : Spelled c.rest kind) {mark : Text} (hm : mark <+: c.rest)
    (hf : ('\n' : CodeUnit) ∉ mark) (hne : mark ≠ []) : Found source c (c.skip mark.length) kind :=
  ⟨hk, h.skip_mark hm hf, Nat.lt_add_of_pos_right (List.length_pos_of_ne_nil hne)⟩

theorem closeMark_facts (tag : TagKind) :
    (Text.ofString tag.closeMark).length = 2 ∧ ('\n' : CodeUnit) ∉ Text.ofString tag.closeMark := by
  cases tag <;> decide

theorem found_close (h : c.In source) {tag : TagKind} (hm : Text.ofString tag.closeMark <+: c.rest) :
    Found source c (c.skip 2) (.tagEnd tag) := by
  obtain ⟨hlength, hfeed⟩ := closeMark_facts tag
  have hne : Text.ofString tag.closeMark ≠ [] := List.ne_nil_of_length_pos (by omega)
  rw [← hlength]
  exact found_mark h (.tagEnd tag) (.inl hm) hm hfeed hne

theorem found_dashClose (h : c.In source) {tag : TagKind}
    (hm : ('-' : CodeUnit) :: Text.ofString tag.closeMark <+: c.rest) : Found source c (c.skip 3) (.tagEnd tag) := by
  obtain ⟨hlength, hfeed⟩ := closeMark_facts tag
  have hdash : ('\n' : CodeUnit) ≠ '-' := by decide
  have hwidth : (('-' : CodeUnit) :: Text.ofString tag.closeMark).length = 3 := by rw [List.length_cons, hlength]
  rw [← hwidth]
  exact found_mark h (.tagEnd tag) (.inr hm) hm (by simp [hdash, hfeed]) (List.cons_ne_nil _ _)

/-- The lines that end in a string are counted. -/
theorem found_string (h : c.In source) (hr : c.rest = u :: rest) (hu : u = '\'' ∨ u = '"') {value : Text} {n : Nat}
    (hbody : stringBody? u rest = some (value, n)) : Found source c ((c.advance n).skip 1) (.string value) := by
  obtain ⟨m, more, rfl, hmore⟩ := stringBody?_quote hbody
  have hfeed : ('\n' : CodeUnit) ∉ [u] := by
    rcases hu with rfl | rfl <;> decide
  have hrest : (c.advance (m + 1)).rest = u :: more := by
    change c.rest.drop (m + 1) = u :: more
    rw [hr, List.drop_succ_cons, hmore]
  have hmark : [u] <+: (c.advance (m + 1)).rest := ⟨more, by rw [hrest]; rfl⟩
  refine ⟨⟨u, rest, m + 1, hr, hu, hbody⟩, (h.advance (m + 1)).skip_mark hmark hfeed, ?_⟩
  change c.offset < c.offset + (m + 1) + 1
  omega

theorem found_number (h : c.In source) (hr : c.rest = u :: rest) (hu : u.isDigit) {n : Nat} {float : Bool}
    (hnumber : numberLength c.rest = (n, float)) :
    Found source c (c.skip n) (if float then .float (c.rest.take n) else .integer (c.rest.take n)) := by
  obtain rfl : (numberLength c.rest).1 = n := congrArg Prod.fst hnumber
  have hpos : 0 < (numberLength c.rest).1 := hr ▸ numberLength_pos hu
  have hne : c.rest.take (numberLength c.rest).1 ≠ [] := by
    intro hnil
    rcases List.take_eq_nil_iff.mp hnil with hzero | hrest
    · omega
    · rw [hr] at hrest
      cases hrest
  refine ⟨?_, h.skip (feed_not_mem_number c.rest), Nat.lt_add_of_pos_right hpos⟩
  split <;> exact ⟨hne, List.take_prefix _ _⟩

theorem found_name (h : c.In source) (hr : c.rest = u :: rest) (hu : u.isNameStart) {word : Text}
    (hword : c.rest.takeWhile CodeUnit.isNamePart = word) : Found source c (c.skip word.length) (.name word) := by
  subst hword
  have hpart : u.isNamePart := by simp [CodeUnit.isNamePart, hu]
  have hne : c.rest.takeWhile CodeUnit.isNamePart ≠ [] := by simp [hr, hpart]
  have hall : (c.rest.takeWhile CodeUnit.isNamePart).all CodeUnit.isNamePart := by simp
  have hprefix := List.takeWhile_prefix (l := c.rest) CodeUnit.isNamePart
  have hfeed : ('\n' : CodeUnit) ∉ c.rest.takeWhile CodeUnit.isNamePart := by
    intro hm
    have hfeed := List.all_eq_true.mp hall _ hm
    rw [isNamePart_feed] at hfeed
    cases hfeed
  exact found_mark h (.name _) ⟨hne, hall, hprefix⟩ hprefix hfeed hne

theorem found_operator (h : c.In source) {op : Operator} (hop : Operator.ofStart? c.rest = some op) :
    Found source c (c.skip op.symbol.length) (.operator op) := by
  have hprefix : Text.ofString op.symbol <+: c.rest := List.isPrefixOf_iff_prefix.mp (Operator.ofStart?_isPrefix hop)
  have hfeed : ('\n' : CodeUnit) ∉ Text.ofString op.symbol := by cases op <;> decide
  have hlength : op.symbol.length = (Text.ofString op.symbol).length := by cases op <;> decide
  have hne : Text.ofString op.symbol ≠ [] := by cases op <;> decide
  rw [hlength]
  exact found_mark h (.operator op) hprefix hprefix hfeed hne

end found

theorem ends_insideStep (h : c.In source) {kind : TagKind} {openLine : Nat} (hopen : OnLine source openLine)
    {brackets : List Operator} {r : Except Unreadable Step}
    (hstep : InsideStep c.skipBlanks kind openLine brackets r) : Ends source c r := by
  have h := h.skipBlanks
  have hle : c.offset ≤ c.skipBlanks.offset := Nat.le_add_right _ _
  have one : ∀ {k : TokenKind} {after : Cursor} {mode : Mode}, Found source c.skipBlanks after k → mode.In source →
      Step.Placed source c ⟨[⟨k, c.skipBlanks.line, c.skipBlanks.offset⟩], after, mode⟩ := by
    intro k after mode hfound hmode
    exact ⟨by simpa using placed_of_spelled h hfound.spelled, .single hle hfound.lt, hfound.cursor, hmode⟩
  cases hstep with
  | unclosedTag hrest => exact hopen
  | unclosedString | strayUnit | strayBracket => exact h.onLine
  | dashedEnd hempty hmark => exact one (found_dashClose h hmark) trivial
  | bareEnd hempty hmark => exact one (found_close h hmark) trivial
  | string hrest hgoes hquote hbody => exact one (found_string h hrest (by simpa using hquote) hbody) hopen
  | number hrest hgoes hdigit hnumber => exact one (found_number h hrest hdigit hnumber) hopen
  | name hrest hgoes hstart hword => exact one (found_name h hrest hstart hword) hopen
  | operator hrest hgoes hu hop htrack => exact one (found_operator h hop) hopen

theorem ends_step (h : c.In source) {mode : Mode} (hmode : mode.In source) : Ends source c (step c mode) := by
  cases mode with
  | between strip => exact ends_betweenStep h (betweenStep c strip)
  | inside kind openLine brackets => exact ends_insideStep h hmode (insideStep c kind openLine brackets)

/-- The places and modes that the lexer comes to between its steps. -/
inductive Reaches (source : Text) : Cursor → Mode → Prop where
  | start : Reaches source (.start source) (.between false)
  | step {c : Cursor} {mode : Mode} {s : Step} (h : Reaches source c mode) (hs : step c mode = .ok s) :
    Reaches source s.cursor s.mode

theorem in_of_reaches {mode : Mode} (h : Reaches source c mode) : c.In source ∧ mode.In source := by
  induction h with
  | start => exact ⟨Cursor.in_start, trivial⟩
  | step _ hs ih =>
    have hends := ends_step ih.1 ih.2
    rw [hs] at hends
    exact ⟨hends.cursor, hends.mode⟩

/-- How reading from a cursor to the end of the source ends. -/
def Finishes (source : Text) (c : Cursor) : Except Unreadable (List Token) → Prop
  | .ok tokens => (∀ k ∈ tokens, k.Placed source) ∧ ∃ past, InOrder c.offset past tokens
  | .error (.malformed e) => OnLine source e.line
  | .error .exhausted => True

theorem Finishes.append {s : Step} (hs : s.Placed source c) {r : Except Unreadable (List Token)}
    (h : Finishes source s.cursor r) : Finishes source c ((s.tokens ++ ·) <$> r) := by
  rcases r with (e | _) | tokens
  · exact h
  · trivial
  · obtain ⟨hplaced, past, horder⟩ := h
    refine ⟨fun k hk => ?_, past, hs.order.append horder⟩
    rcases List.mem_append.mp hk with hk | hk
    · exact hs.tokens k hk
    · exact hplaced k hk

theorem finishes_run (fuel : Nat) {mode : Mode} (h : c.In source) (hmode : mode.In source) :
    Finishes source c (run fuel c mode) := by
  induction fuel generalizing c mode with
  | zero => trivial
  | succ fuel ih =>
    obtain ⟨hrest, strip, rfl⟩ | hmore := over_or_goesOn c mode
    · rw [run_over hrest]
      refine ⟨?_, c.offset + 1, .single (Nat.le_refl _) (Nat.lt_succ_self _)⟩
      rw [List.forall_mem_singleton]
      exact placed_of_spelled h hrest
    · have hstep := ends_step h hmode
      cases hs : step c mode with
      | error e =>
        rw [hs] at hstep
        rw [run_of_error hmore hs]
        cases e with
        | malformed e => exact hstep
        | exhausted => exact hstep.elim
      | ok s =>
        rw [hs] at hstep
        rw [run_of_ok hmore hs]
        exact .append hstep (ih hstep.cursor hstep.mode)

theorem finishes_tokenize (source : Text) (keep : Bool) :
    Finishes (trimmed source keep) (.start (trimmed source keep)) (tokenize source keep) :=
  finishes_run _ Cursor.in_start trivial

/-- Every token of a source stands at its place. -/
theorem placed_tokenize {tokens : List Token} (h : tokenize source true = .ok tokens) :
    ∀ k ∈ tokens, k.Placed source := by
  have hfinishes := finishes_tokenize source true
  rw [h] at hfinishes
  exact hfinishes.1

/-- Lines are not counted down. -/
theorem lines_increase {tokens : List Token} (hplaced : ∀ k ∈ tokens, k.Placed source) {first past : Nat}
    (h : InOrder first past tokens) : tokens.Pairwise fun k l => k.line ≤ l.line := by
  refine List.Pairwise.imp_of_mem ?_ h.increasing
  intro k l hk hl hlt
  rw [(hplaced k hk).line, (hplaced l hl).line]
  exact Nat.add_le_add_left (lineFeeds_take_mono source (Nat.le_of_lt hlt)) 1

/-- What is read of a source lacks at most a final line break. -/
theorem prefix_trimmed (source : Text) (keep : Bool) : trimmed source keep <+: source := by
  unfold trimmed
  split
  · exact List.prefix_refl _
  · have hreverse : ∀ {rest : Text}, rest <:+ source.reverse → rest.reverse <+: source := by
      intro rest h
      simpa using List.reverse_prefix.mpr h
    unfold trimFinalBreak
    split
    · rename_i u v rest hsource
      have hlast : (v :: rest) <:+ source.reverse := hsource ▸ List.suffix_cons u _
      split
      · split
        · exact hreverse ((List.suffix_cons v rest).trans hlast)
        · exact hreverse hlast
      · exact List.prefix_refl _
    · split
      · exact List.nil_prefix
      · exact List.prefix_refl _
    · exact List.nil_prefix

/-- Leaving out a final line break adds no line. -/
theorem lineFeeds_trimmed_le (source : Text) (keep : Bool) :
    Text.lineFeeds (trimmed source keep) ≤ Text.lineFeeds source :=
  List.Sublist.count_le _ (prefix_trimmed source keep).sublist

end Lexer
end Stencil
