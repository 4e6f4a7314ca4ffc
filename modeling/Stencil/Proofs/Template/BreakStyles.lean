import Stencil.Proofs.Template.LineBreaks

/-!
Sources with line breaks of different styles. A source is read as the one with line feeds in place of all its line
breaks, step by step: each step passes over the same piece of both.
-/
namespace Stencil.Lexer

variable {source t : Text} {c c' : Cursor} {mode mode' : Mode} {u : CodeUnit} {n m : Nat}

/-! ## Places -/

/-- The places in a source and in the one with line feeds for line breaks where the same piece is still to be read. -/
def Level (c c' : Cursor) : Prop := c'.rest = normalizeBreaks c.rest

theorem Level.skip (h : Level c c') (hnm : Abreast c.rest n m) : Level (c.skip n) (c'.skip m) := by
  unfold Level at h ⊢
  change c'.rest.drop m = normalizeBreaks (c.rest.drop n)
  rw [h, hnm]

theorem Level.advance (h : Level c c') (hnm : Abreast c.rest n m) : Level (c.advance n) (c'.advance m) := h.skip hnm

theorem Level.skipBlanks (h : Level c c') : Level c.skipBlanks c'.skipBlanks := by
  have hblanks := abreast_blanks c.rest
  rw [← h] at hblanks
  exact h.advance hblanks

/-- The lexer stands between tags, or inside a tag with the same open brackets. -/
inductive SameMode : Mode → Mode → Prop
  | between (strip : Bool) : SameMode (.between strip) (.between strip)
  | inside (kind : TagKind) (line line' : Nat) (brackets : List Operator) :
    SameMode (.inside kind line brackets) (.inside kind line' brackets)

/-- Two steps give tokens of the same kinds and lead to the same place, or they fail for the same cause. -/
inductive SameStep : Except Unreadable Step → Except Unreadable Step → Prop
  | ok {s s' : Step} (htokens : s'.tokens.map (·.kind) = s.tokens.map (·.kind)) (hlevel : Level s.cursor s'.cursor)
    (hmode : SameMode s.mode s'.mode) : SameStep (.ok s) (.ok s')
  | fail (cause : SyntaxCause) (line line' : Nat) : SameStep (fail cause line) (fail cause line')

/-! ## Steps between tags -/

theorem kinds_dataTokens {front back : Text} (hc : c.rest = front ++ back) (stripStart stripEnd : Bool) :
    (dataTokens c front.length stripStart stripEnd).map (·.kind) =
      if (dataValue front stripStart stripEnd).isEmpty then [] else [.data (dataValue front stripStart stripEnd)] := by
  unfold dataTokens
  rw [hc, List.take_left]
  dsimp only
  split <;> rfl

/-- The text up to a place is the same in both sources. -/
theorem Level.dataTokens {front back : Text} (h : Level c c') (hc : c.rest = front ++ back)
    (hback : normalizeBreaks (front ++ back) = normalizeBreaks front ++ normalizeBreaks back)
    (stripStart stripEnd : Bool) :
    (dataTokens c' (normalizeBreaks front).length stripStart stripEnd).map (·.kind) =
      (dataTokens c front.length stripStart stripEnd).map (·.kind) := by
  have hc' : c'.rest = normalizeBreaks front ++ normalizeBreaks back := by rw [h, hc, hback]
  rw [kinds_dataTokens hc, kinds_dataTokens hc', dataValue_normalizeBreaks]

theorem Level.advance_front {front back : Text} (h : Level c c') (hc : c.rest = front ++ back)
    (hback : normalizeBreaks (front ++ back) = normalizeBreaks front ++ normalizeBreaks back) :
    (c.advance front.length).rest = back ∧
      Level (c.advance front.length) (c'.advance (normalizeBreaks front).length) := by
  refine ⟨?_, h.advance ?_⟩
  · change c.rest.drop front.length = back
    rw [hc, List.drop_left]
  · unfold Abreast
    rw [hc, hback, List.drop_left, List.drop_left]

/-- What is found at a place is the same thing in both forms of a text. -/
theorem rel_of_eq {α : Type} {p : Text → Option α} (h : p (normalizeBreaks t) = p t) :
    Option.Rel (fun x y => p t = some x ∧ x = y) (p t) (p (normalizeBreaks t)) := by
  rw [h]
  cases p t with
  | none => exact .none
  | some x => exact .some ⟨rfl, rfl⟩

theorem markHere?_normalizeBreaks {mark : Text} (hmark : mark.any isBreak = false) (t : Text) :
    markHere? mark (normalizeBreaks t) = markHere? mark t := by
  unfold markHere?
  rw [isPrefixOf_normalizeBreaks hmark]

/-- Whether a dash stands in front of the mark that closes a comment, or the opening mark has the one there. -/
theorem stripped_normalizeBreaks (front back : Text) (dash : Bool) :
    (if (normalizeBreaks front).length = 0 then dash
      else decide ((normalizeBreaks front ++ normalizeBreaks back)[(normalizeBreaks front).length - 1]? =
        some ('-' : CodeUnit))) =
      if front.length = 0 then dash else decide ((front ++ back)[front.length - 1]? = some ('-' : CodeUnit)) := by
  by_cases hfront : front = []
  · subst hfront
    rfl
  · have hfront' : normalizeBreaks front ≠ [] := fun h => hfront (normalizeBreaks_eq_nil.mp h)
    rw [if_neg (by simpa using hfront'), if_neg (by simpa using hfront), getElem?_append_last hfront',
      getElem?_append_last hfront]
    exact decide_eq_decide.mpr (getLast?_normalizeBreaks rfl)

theorem sameStep_comment {before before' : List Token} (hbefore : before'.map (·.kind) = before.map (·.kind))
    (h : Level c c') (dash : Bool) : SameStep (comment before c dash) (comment before' c' dash) := by
  have hmark : (Text.ofString "#\x7d").any isBreak = false := by decide
  have hne : Text.ofString "#\x7d" ≠ [] := by decide
  unfold comment
  rw [find?_eq_search hne, find?_eq_search hne, h]
  rcases search_normalizeBreaks (fun _ => rfl) (fun _ => rfl)
      (fun t => rel_of_eq (markHere?_normalizeBreaks hmark t)) c.rest with
    ⟨hnone, hnone'⟩ | ⟨front, back, x, y, hc, hback, hfound, hfound', hx, -⟩
  · rw [hnone, hnone']
    exact .fail .unclosedComment _ _
  · rw [hfound, hfound']
    have hhere : markHere? (Text.ofString "#\x7d") back = some x := hx
    have hprefix : (Text.ofString "#\x7d").isPrefixOf back = true := by
      by_contra hnot
      rw [markHere?, if_neg hnot] at hhere
      cases hhere
    rw [hc] at hback ⊢
    obtain ⟨hrest, hlevel⟩ := h.advance_front hc hback
    have hclose : Abreast (c.advance front.length).rest 2 2 := by
      rw [hrest]
      exact abreast_mark hprefix hmark
    rw [hback]
    refine .ok hbefore (hlevel.skip hclose) ?_
    dsimp only
    rw [stripped_normalizeBreaks front back dash]
    exact .between _

theorem sameStep_rawBlock {before before' : List Token} (hbefore : before'.map (·.kind) = before.map (·.kind))
    (h : Level c c') (hwidth : Abreast c.rest n m) (strip : Bool) :
    SameStep (rawBlock before c n strip) (rawBlock before' c' m strip) := by
  have hbody : Level (c.advance n) (c'.advance m) := h.advance hwidth
  unfold rawBlock
  dsimp only
  generalize c.advance n = body at hbody ⊢
  generalize c'.advance m = body' at hbody ⊢
  rw [rawEndAt?_eq_search, rawEndAt?_eq_search, hbody]
  rcases search_normalizeBreaks (fun _ => rfl) (fun _ => rfl) rawEnd?_normalizeBreaks body.rest with
    ⟨hnone, hnone'⟩ | ⟨front, back, ⟨width, dash, dashAfter⟩, ⟨width', _⟩, hc, hback, hfound, hfound', hfar, hdashes⟩
  · rw [hnone, hnone']
    exact .fail .unclosedRaw _ _
  · obtain rfl : (dash, dashAfter) = _ := hdashes
    rw [hfound, hfound']
    rw [hc] at hback
    obtain ⟨hrest, hlevel⟩ := hbody.advance_front hc hback
    have hend : Abreast (body.advance front.length).rest width width' := by rwa [hrest]
    refine .ok ?_ (hlevel.advance hend) (.between dashAfter)
    rw [List.map_append, List.map_append, hbefore, hbody.dataTokens hc hback]

/-- An opening mark is passed over, with its dash. -/
theorem abreast_opener {opener : Opener} {dash : Bool} (h : openerHere? t = some (opener, dash)) :
    Abreast t (if dash then 3 else 2) (if dash then 3 else 2) := by
  cases t with
  | nil => cases h
  | cons v t =>
    obtain ⟨u, rest, hrest, hu, hdash⟩ := openerAt?_eq_some ((openerAt?_eq_search _).trans (search_of_some h))
    have hreturn : ('\r' : CodeUnit) ≠ u := by
      rintro rfl
      cases hu
    have hbrace : ('\r' : CodeUnit) ≠ '\x7b' := by decide
    have hminus : ('\r' : CodeUnit) ≠ '-' := by decide
    rw [List.drop_zero] at hrest
    rw [hrest]
    cases dash with
    | true =>
      obtain ⟨more, rfl⟩ := List.head?_eq_some_iff.mp (decide_eq_true_eq.mp hdash.symm)
      exact abreast_of_notMem (a := [('\x7b' : CodeUnit), u, ('-' : CodeUnit)]) (by simp [hreturn, hbrace, hminus]) more
    | false => exact abreast_of_notMem (a := [('\x7b' : CodeUnit), u]) (by simp [hreturn, hbrace]) rest

/-- The mark of a tag behind the same text. -/
theorem sameStep_tag {before before' : List Token} (hbefore : before'.map (·.kind) = before.map (·.kind))
    (h : Level c c') (kind : TagKind) (line line' offset offset' : Nat) :
    SameStep (.ok ⟨before ++ [⟨.tagBegin kind, line, offset⟩], c, .inside kind line []⟩)
      (.ok ⟨before' ++ [⟨.tagBegin kind, line', offset'⟩], c', .inside kind line' []⟩) := by
  refine .ok ?_ h (.inside kind line line' [])
  rw [List.map_append, List.map_append, hbefore]
  rfl

theorem sameStep_between (h : Level c c') (strip : Bool) : SameStep (stepBetween c strip) (stepBetween c' strip) := by
  have hopener := openerAt?_eq_search c.rest
  have hopener' := openerAt?_eq_search (normalizeBreaks c.rest)
  rcases search_normalizeBreaks (fun _ => rfl) (fun _ => rfl)
      (fun t => rel_of_eq (openerHere?_normalizeBreaks t)) c.rest with
    ⟨hnone, hnone'⟩ | ⟨front, back, ⟨opener, dash⟩, _, hc, hback, hfound, hfound', hhere, rfl⟩
  · rw [hnone] at hopener
    rw [hnone', ← h] at hopener'
    have hnil : normalizeBreaks (c.rest ++ []) = normalizeBreaks c.rest ++ normalizeBreaks [] := by
      rw [List.append_nil, normalizeBreaks, List.append_nil]
    have hc : c.rest = c.rest ++ [] := (List.append_nil _).symm
    rw [stepBetween_eq_iff.mpr (.last hopener), stepBetween_eq_iff.mpr (.last hopener'), h]
    exact .ok (h.dataTokens hc hnil strip false) (h.advance_front hc hnil).2 (.between false)
  · rw [hfound] at hopener
    rw [hfound', ← h] at hopener'
    rw [hc] at hback
    obtain ⟨hrest, hlevel⟩ := h.advance_front hc hback
    have hdata := h.dataTokens hc hback strip dash
    have hwidth : Abreast (c.advance front.length).rest (if dash then 3 else 2) (if dash then 3 else 2) := by
      rw [hrest]
      exact abreast_opener hhere
    have hinner : Level (behindMark c front.length dash) (behindMark c' (normalizeBreaks front).length dash) :=
      hlevel.skip hwidth
    cases opener with
    | comment =>
      rw [stepBetween_eq_iff.mpr (.comment hopener), stepBetween_eq_iff.mpr (.comment hopener')]
      exact sameStep_comment hdata hinner dash
    | tag kind =>
      cases kind with
      | output =>
        rw [stepBetween_eq_iff.mpr (.tag hopener (by simp)), stepBetween_eq_iff.mpr (.tag hopener' (by simp))]
        exact sameStep_tag hdata hinner .output _ _ _ _
      | statement =>
        have hraw : Option.Rel (AsFar (behindMark c front.length dash).rest)
            (wordThenClose? "raw" (behindMark c front.length dash).rest)
            (wordThenClose? "raw" (behindMark c' (normalizeBreaks front).length dash).rest) := by
          rw [hinner]
          exact wordThenClose?_normalizeBreaks (by decide) _
        generalize hword : wordThenClose? "raw" (behindMark c front.length dash).rest = found at hraw
        generalize hword' : wordThenClose? "raw" (behindMark c' (normalizeBreaks front).length dash).rest = found' at hraw
        cases hraw with
        | none =>
          rw [stepBetween_eq_iff.mpr (.tag hopener fun _ => hword),
            stepBetween_eq_iff.mpr (.tag hopener' fun _ => hword')]
          exact sameStep_tag hdata hinner .statement _ _ _ _
        | @some x y hfar =>
          obtain ⟨width, stripBody⟩ := x
          obtain ⟨width', stripBody'⟩ := y
          obtain ⟨hfar, hstrip⟩ := hfar
          obtain rfl : stripBody = stripBody' := hstrip
          rw [stepBetween_eq_iff.mpr (.raw hopener hword), stepBetween_eq_iff.mpr (.raw hopener' hword')]
          exact sameStep_rawBlock hdata hinner hfar stripBody

/-! ## Steps inside a tag -/

/-- The string at the start of a text holds no carriage return, if there is one. -/
def ReturnFree : Text → Prop
  | [] => True
  | quote :: rest =>
    quote = '\'' ∨ quote = '"' → ∀ found ∈ stringBody? quote rest, ('\r' : CodeUnit) ∉ rest.take found.2

instance : (t : Text) → Decidable (ReturnFree t)
  | [] => isTrue trivial
  | quote :: rest => inferInstanceAs (Decidable (quote = '\'' ∨ quote = '"' →
      ∀ found ∈ stringBody? quote rest, ('\r' : CodeUnit) ∉ rest.take found.2))

theorem head?_skipBlanks (c : Cursor) : ∀ u ∈ c.skipBlanks.rest.head?, u.isBlank = false := by
  obtain ⟨blanks, behind, hc, hblanks, hbehind⟩ := exists_blanks_append c.rest
  intro u hu
  change u ∈ (c.rest.drop (c.rest.takeWhile CodeUnit.isBlank).length).head? at hu
  rw [hc, takeWhile_blanks_append hblanks hbehind, List.drop_left] at hu
  exact hbehind u hu

theorem prefix_normalizeBreaks {part : Text} (h : part.any isBreak = false) :
    part <+: normalizeBreaks t ↔ part <+: t := by
  rw [← List.isPrefixOf_iff_prefix, isPrefixOf_normalizeBreaks h, List.isPrefixOf_iff_prefix]

theorem isBreak_closeMark (kind : TagKind) : (Text.ofString kind.closeMark).any isBreak = false ∧
    (('-' : CodeUnit) :: Text.ofString kind.closeMark).any isBreak = false := by
  cases kind <;> decide

theorem open_normalizeBreaks {kind : TagKind} {brackets : List Operator} (h : Open kind brackets t) :
    Open kind brackets (normalizeBreaks t) := by
  obtain ⟨hclose, hdash⟩ := isBreak_closeMark kind
  unfold Open at h ⊢
  rwa [isPrefixOf_normalizeBreaks hclose, isPrefixOf_normalizeBreaks hdash]

/-- A string without a carriage return is passed over in both sources. -/
theorem Level.string {rest value : Text} (h : Level c c') (hc : c.rest = u :: rest) (hquote : (u = '\'' || u = '"') = true)
    (hbody : stringBody? u rest = some (value, n)) (hreturn : ('\r' : CodeUnit) ∉ rest.take n) :
    stringBody? u (normalizeBreaks rest) = some (value, n) ∧ Level ((c.advance n).skip 1) ((c'.advance n).skip 1) := by
  obtain ⟨hbody', hn⟩ := stringBody?_normalizeBreaks hbody hreturn
  have hu : u ≠ '\r' := by
    rintro rfl
    revert hquote
    decide
  have hc' : c'.rest = u :: normalizeBreaks rest := by rw [h, hc, normalizeBreaks_unit hu]
  have hwhole : Abreast (u :: rest) (1 + n) (1 + n) :=
    (abreast_of_notMem (a := [u]) (by simpa using hu.symm) rest).add hn
  rw [Nat.add_comm, ← hc] at hwhole
  refine ⟨hbody', ?_⟩
  rw [advance_string hc hquote hbody, advance_string hc' hquote hbody']
  exact h.advance hwhole

/-- A token on its own, in front of the same place. -/
theorem sameStep_token {after after' : Cursor} (k : TokenKind) {line line' offset offset' : Nat}
    (hlevel : Level after after') (hmode : SameMode mode mode') :
    SameStep (.ok ⟨[⟨k, line, offset⟩], after, mode⟩) (.ok ⟨[⟨k, line', offset'⟩], after', mode'⟩) :=
  .ok rfl hlevel hmode

/-- What is seen at a place behind the blanks is seen in both sources. -/
theorem sameStep_of_insideStep (h : Level c c') (hblank : ∀ u ∈ c.rest.head?, u.isBlank = false)
    (hstring : ReturnFree c.rest) {kind : TagKind} {line : Nat} (line' : Nat) {brackets : List Operator}
    {r : Except Unreadable Step} (hstep : InsideStep c kind line brackets r) :
    ∃ r', InsideStep c' kind line' brackets r' ∧ SameStep r r' := by
  obtain ⟨hclose, hdash⟩ := isBreak_closeMark kind
  obtain ⟨htwo, -⟩ := closeMark_facts kind
  have hcons : ∀ {u rest}, c.rest = u :: rest → c'.rest = u :: normalizeBreaks rest := by
    intro u rest hrest
    have hu : u ≠ '\r' := by
      rintro rfl
      exact absurd (hblank _ (congrArg List.head? hrest)) (by decide)
    rw [h, hrest, normalizeBreaks_unit hu]
  have hgoes : Open kind brackets c.rest → Open kind brackets c'.rest := fun hopen => h ▸ open_normalizeBreaks hopen
  have hop' : Operator.ofStart? c'.rest = Operator.ofStart? c.rest := h ▸ ofStart?_normalizeBreaks c.rest
  cases hstep with
  | unclosedTag hrest => exact ⟨_, .unclosedTag (h.trans (normalizeBreaks_eq_nil.mpr hrest)), .fail _ _ _⟩
  | dashedEnd hempty hmark =>
    have hthree := abreast_mark (List.isPrefixOf_iff_prefix.mpr hmark) hdash
    rw [List.length_cons, htwo] at hthree
    exact ⟨_, .dashedEnd hempty (h ▸ (prefix_normalizeBreaks hdash).mpr hmark),
      sameStep_token _ (h.skip hthree) (.between true)⟩
  | bareEnd hempty hmark =>
    have hskip := abreast_mark (List.isPrefixOf_iff_prefix.mpr hmark) hclose
    rw [htwo] at hskip
    exact ⟨_, .bareEnd hempty (h ▸ (prefix_normalizeBreaks hclose).mpr hmark),
      sameStep_token _ (h.skip hskip) (.between false)⟩
  | @unclosedString u rest hrest hopen hquote hbody =>
    have hplain : isBreak u = false := by
      rw [Bool.or_eq_true, decide_eq_true_eq, decide_eq_true_eq] at hquote
      rcases hquote with rfl | rfl <;> rfl
    have hnone := isSome_stringBody?_normalizeBreaks hplain rest
    rw [hbody, Option.isSome_none, Option.isSome_eq_false_iff, Option.isNone_iff_eq_none] at hnone
    exact ⟨_, .unclosedString (hcons hrest) (hgoes hopen) hquote hnone, .fail _ _ _⟩
  | @string u rest value n hrest hopen hquote hbody =>
    rw [hrest] at hstring
    obtain ⟨hbody', hlevel⟩ := h.string hrest hquote hbody (hstring (by simpa using hquote) (value, n) hbody)
    exact ⟨_, .string (hcons hrest) (hgoes hopen) hquote hbody', sameStep_token _ hlevel (.inside kind line line' _)⟩
  | @number u rest n float hrest hopen hdigit hnumber =>
    have hnumber' : numberLength c'.rest = (n, float) := by rw [h, numberLength_normalizeBreaks, hnumber]
    obtain ⟨hpast, hspelled⟩ := abreast_number c.rest
    rw [hnumber, ← h] at hspelled
    rw [hnumber] at hpast
    refine ⟨_, .number (hcons hrest) (hgoes hopen) hdigit hnumber', ?_⟩
    rw [hspelled]
    exact sameStep_token _ (h.skip hpast) (.inside kind line line' _)
  | @name u rest word hrest hopen hstart hword =>
    have hbreak : ∀ u, isBreak u = true → u.isNamePart = false := by
      intro u hu
      rcases eq_of_isBreak hu with rfl | rfl <;> decide
    have hword' : c'.rest.takeWhile CodeUnit.isNamePart = word := by rw [h, takeWhile_normalizeBreaks hbreak, hword]
    have hpast := abreast_word c.rest
    rw [hword] at hpast
    exact ⟨_, .name (hcons hrest) (hgoes hopen) hstart hword',
      sameStep_token _ (h.skip hpast) (.inside kind line line' _)⟩
  | strayUnit hrest hopen hu hop =>
    exact ⟨_, .strayUnit (hcons hrest) (hgoes hopen) hu (hop'.trans hop), .fail _ _ _⟩
  | strayBracket hrest hopen hu hop htrack =>
    exact ⟨_, .strayBracket (hcons hrest) (hgoes hopen) hu (hop'.trans hop) htrack, .fail _ _ _⟩
  | @operator u rest op opened hrest hopen hu hop htrack =>
    have hpast := abreast_mark (Operator.ofStart?_isPrefix hop) (isBreak_symbol op)
    rw [← (mark_symbol op).2] at hpast
    exact ⟨_, .operator (hcons hrest) (hgoes hopen) hu (hop'.trans hop) htrack,
      sameStep_token _ (h.skip hpast) (.inside kind line line' opened)⟩

theorem sameStep_inside (h : Level c c') (hstring : ReturnFree c.skipBlanks.rest) (kind : TagKind) (line line' : Nat)
    (brackets : List Operator) : SameStep (stepInside c kind line brackets) (stepInside c' kind line' brackets) := by
  obtain ⟨r', hstep', hsame⟩ := sameStep_of_insideStep h.skipBlanks (head?_skipBlanks c) hstring line'
    (insideStep c kind line brackets)
  rwa [stepInside_eq_iff.mpr hstep']

/-! ## Runs -/

/-- Two sources are read alike: their tokens are of the same kinds, with the same values, or neither can be read, for
the same cause. -/
inductive ReadAlike : Except Unreadable (List Token) → Except Unreadable (List Token) → Prop
  | ok {tokens tokens' : List Token} (h : tokens.map (·.kind) = tokens'.map (·.kind)) :
    ReadAlike (.ok tokens) (.ok tokens')
  | malformed (cause : SyntaxCause) (line line' : Nat) :
    ReadAlike (.error (.malformed ⟨cause, line⟩)) (.error (.malformed ⟨cause, line'⟩))

/-- No string inside a tag holds a carriage return. -/
def StringsReturnFree (source : Text) : Prop :=
  ∀ c kind line brackets, Reaches source c (.inside kind line brackets) → ReturnFree c.skipBlanks.rest

theorem stringsReturnFree_of_drop (h : ∀ i ≤ source.length, ReturnFree (source.drop i)) : StringsReturnFree source := by
  intro c kind line brackets hreaches
  rw [(in_of_reaches hreaches).1.skipBlanks.rest]
  by_cases hle : c.skipBlanks.offset ≤ source.length
  · exact h _ hle
  · rw [List.drop_eq_nil_of_le (Nat.le_of_not_le hle)]
    trivial

theorem ReadAlike.append {tokens tokens' : List Token} (h : tokens'.map (·.kind) = tokens.map (·.kind))
    {r r' : Except Unreadable (List Token)} (hr : ReadAlike r r') :
    ReadAlike ((tokens ++ ·) <$> r) ((tokens' ++ ·) <$> r') := by
  cases hr with
  | ok hkinds =>
    refine .ok ?_
    rw [List.map_append, List.map_append, h, hkinds]
  | malformed cause line line' => exact .malformed cause line line'

theorem Level.goesOn (h : Level c c') (hmode : SameMode mode mode') (hmore : GoesOn c mode) : GoesOn c' mode' := by
  rcases hmore with hc | ⟨kind, line, brackets, rfl⟩
  · refine .inl fun hc' => hc (normalizeBreaks_eq_nil.mp ?_)
    rw [← h, hc']
  · cases hmode with
    | inside _ _ line' _ => exact .inr ⟨kind, line', brackets, rfl⟩

theorem run_alike (hstrings : StringsReturnFree source) (hreaches : Reaches source c mode) (h : Level c c')
    (hmode : SameMode mode mode') {fuel fuel' : Nat} (hfuel : c.left < fuel) (hfuel' : c'.left < fuel') :
    ReadAlike (run fuel c mode) (run fuel' c' mode') := by
  induction fuel generalizing c c' mode mode' fuel' with
  | zero => omega
  | succ fuel ih =>
    obtain ⟨fuel', rfl⟩ : ∃ n, fuel' = n + 1 := ⟨fuel' - 1, by omega⟩
    obtain ⟨hrest, strip, rfl⟩ | hmore := over_or_goesOn c mode
    · have hrest' : c'.rest = [] := by rw [h, hrest, normalizeBreaks]
      cases hmode with
      | between strip =>
        rw [run_over hrest, run_over hrest']
        exact .ok rfl
    · have hmore' := h.goesOn hmode hmore
      have hstep : SameStep (step c mode) (step c' mode') := by
        cases hmode with
        | between strip => exact sameStep_between h strip
        | inside kind line line' brackets =>
          exact sameStep_inside h (hstrings c kind line brackets hreaches) kind line line' brackets
      have hpaid := paid_step hmore
      have hpaid' := paid_step hmore'
      generalize hs : step c mode = r at hstep hpaid
      generalize hs' : step c' mode' = r' at hstep hpaid'
      cases hstep with
      | fail cause line line' =>
        rw [run_of_error hmore hs, run_of_error hmore' hs']
        exact .malformed cause line line'
      | @ok s s' htokens hlevel hmode =>
        have hless : s.cursor.left < fuel := Nat.lt_of_lt_of_le hpaid.2.1 (Nat.le_of_lt_succ hfuel)
        have hless' : s'.cursor.left < fuel' := Nat.lt_of_lt_of_le hpaid'.2.1 (Nat.le_of_lt_succ hfuel')
        rw [run_of_ok hmore hs, run_of_ok hmore' hs']
        exact .append htokens (ih (.step hreaches hs) hlevel hmode hless hless')

/-! ## The last line break -/

theorem trimFinalBreak_feed (ht : t.getLast? ≠ some ('\r' : CodeUnit)) :
    trimFinalBreak (t ++ [('\n' : CodeUnit)]) = t := by
  rcases t.eq_nil_or_concat with rfl | ⟨t, v, rfl⟩
  · rfl
  · have hv : v ≠ '\r' := by
      rintro rfl
      exact ht (by simp)
    unfold trimFinalBreak
    simp [hv]

theorem trimFinalBreak_pair (t : Text) : trimFinalBreak (t ++ [('\r' : CodeUnit), ('\n' : CodeUnit)]) = t := by
  unfold trimFinalBreak
  simp

/-- Leaving out the last line break and making line feeds of the others can be done in either order, if it is not a
carriage return on its own, which is not left out. -/
theorem trimmed_normalizeBreaks (source : Text) (keep : Bool) :
    trimmed (normalizeBreaks source) (keep || decide (source.getLast? = some ('\r' : CodeUnit))) =
      normalizeBreaks (trimmed source keep) := by
  cases keep with
  | true => rfl
  | false =>
    have hlast : ∀ t, (normalizeBreaks t).getLast? ≠ some ('\r' : CodeUnit) := fun t h =>
      return_notMem t (List.mem_of_getLast? h)
    rcases source.eq_nil_or_concat with rfl | ⟨t, v, hsource⟩
    · rfl
    · rw [List.concat_eq_append] at hsource
      subst hsource
      rw [List.getLast?_concat, Bool.false_or]
      by_cases hreturn : v = '\r'
      · subst hreturn
        rw [trimmed_append (by decide)]
        rfl
      have hkeep : decide (some v = some ('\r' : CodeUnit)) = false := by simpa using hreturn
      rw [hkeep]
      by_cases hfeed : v = '\n'
      · subst hfeed
        change trimFinalBreak _ = normalizeBreaks (trimFinalBreak _)
        by_cases ht : t.getLast? = some ('\r' : CodeUnit)
        · obtain ⟨t, rfl⟩ := List.getLast?_eq_some_iff.mp ht
          rw [List.append_assoc, List.singleton_append, trimFinalBreak_pair,
            normalizeBreaks_append_of_head (by decide)]
          exact trimFinalBreak_feed (hlast t)
        · rw [trimFinalBreak_feed ht, normalizeBreaks_append fun h => absurd h ht]
          exact trimFinalBreak_feed (hlast t)
      · have hhead : [v].head? ≠ some ('\n' : CodeUnit) := fun h => hfeed (Option.some.inj h)
        have hsingle : normalizeBreaks [v] = [v] := normalizeBreaks_unit hreturn []
        rw [trimmed_append hfeed, normalizeBreaks_append_of_head hhead, hsingle, trimmed_append hfeed]

/-- The style of line breaks does not matter: a source is read as the one that has a line feed for each of its line
breaks, if no string inside its tags holds a carriage return. A carriage return that ends a source on its own is not
left out, even where the last line break is. -/
theorem tokenize_normalizeBreaks (keep : Bool) (h : StringsReturnFree (trimmed source keep)) :
    ReadAlike (tokenize source keep)
      (tokenize (normalizeBreaks source) (keep || decide (source.getLast? = some ('\r' : CodeUnit)))) := by
  unfold tokenize
  rw [trimmed_normalizeBreaks]
  have hlevel : Level (.start (trimmed source keep)) (.start (normalizeBreaks (trimmed source keep))) := rfl
  exact run_alike h .start hlevel (.between false) (Nat.lt_succ_self _) (Nat.lt_succ_self _)

/-- Line breaks of all styles: in text, at its borders, in a raw block, in a comment, between the tokens of a tag and at
the end. -/
theorem tokenize_normalizeBreaks_of_mixed :
    let mixed : Text :=
      "a\r\nb\r\x7b%- raw %\x7d\r\r\n\x7b\x7b\x7b% endraw %\x7d\x7b# \r #\x7d\r\n\x7b\x7b\r'x'\r\n\x7d\x7d\rc\r\n"
    let feeds : Text :=
      "a\nb\n\x7b%- raw %\x7d\n\n\x7b\x7b\x7b% endraw %\x7d\x7b# \n #\x7d\n\x7b\x7b\n'x'\n\x7d\x7d\nc\n"
    StringsReturnFree (trimmed mixed false) ∧ ReadAlike (tokenize mixed false) (tokenize feeds false) := by
  intro mixed feeds
  have hstrings : StringsReturnFree (trimmed mixed false) := stringsReturnFree_of_drop (by decide +kernel)
  have hfeeds : normalizeBreaks mixed = feeds := by decide +kernel
  have hkeep : (false || decide (mixed.getLast? = some ('\r' : CodeUnit))) = false := by decide +kernel
  have halike := tokenize_normalizeBreaks false hstrings
  rw [hfeeds, hkeep] at halike
  exact ⟨hstrings, halike⟩

/-- The last line break is not left out if it is a carriage return. -/
theorem tokenize_last_return :
    tokenize "a\r" false = .ok [⟨.data "a\n", 1, 0⟩, ⟨.eof, 1, 2⟩] ∧
      tokenize (normalizeBreaks "a\r") false = .ok [⟨.data "a", 1, 0⟩, ⟨.eof, 1, 1⟩] ∧
      ¬ ReadAlike (tokenize "a\r" false) (tokenize (normalizeBreaks "a\r") false) := by
  have hkept : tokenize "a\r" false = .ok [⟨.data "a\n", 1, 0⟩, ⟨.eof, 1, 2⟩] := by decide +kernel
  have hleft : tokenize (normalizeBreaks "a\r") false = .ok [⟨.data "a", 1, 0⟩, ⟨.eof, 1, 1⟩] := by decide +kernel
  refine ⟨hkept, hleft, ?_⟩
  rw [hkept, hleft]
  intro h
  cases h with
  | ok hkinds =>
    revert hkinds
    decide

end Stencil.Lexer
