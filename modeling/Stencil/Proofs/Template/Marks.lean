import Stencil.Proofs.Template.LexingTags
import Stencil.Proofs.Template.LexingWork

/-!
What stands between tags. Text without an opening mark is read as it is, up to the next mark; a comment goes up to the
first mark that closes it, and a raw block up to the first tag that ends it, whatever else stands in them.
-/
namespace Stencil

/-- What a token is, and the line it stands on. -/
def Token.reading (k : Token) : TokenKind × Nat := (k.kind, k.line)

theorem Text.lineFeeds_append (t t' : Text) : lineFeeds (t ++ t') = lineFeeds t + lineFeeds t' := List.count_append

namespace Cursor

variable {c : Cursor} {line : Nat} {t more : Text}

/-- A cursor stands on a line, in front of a text. -/
structure At (c : Cursor) (line : Nat) (t : Text) : Prop where
  rest : c.rest = t
  line : c.line = line

theorem At.skip (h : c.At line (t ++ more)) : (c.skip t.length).At line more := by
  refine ⟨?_, h.line⟩
  change c.rest.drop t.length = more
  rw [h.rest, List.drop_left]

theorem At.advance (h : c.At line (t ++ more)) : (c.advance t.length).At (line + Text.lineFeeds t) more := by
  refine ⟨h.skip.rest, ?_⟩
  change c.line + Text.lineFeeds (c.rest.take t.length) = _
  rw [h.rest, h.line, List.take_left]

/-- Passing over the first units of a text. -/
theorem At.advance_take (h : c.At line (t ++ more)) {n : Nat} (hn : n ≤ t.length) :
    (c.advance n).At (line + Text.lineFeeds (t.take n)) (t.drop n ++ more) := by
  rw [← List.take_append_drop n t, List.append_assoc] at h
  have hafter := h.advance
  rwa [List.length_take_of_le hn] at hafter

end Cursor

namespace Lexer

open Stencil.Literal (Blanks)

variable {c c' c'' : Cursor} {mode mode' mode'' : Mode} {readings readings' : List (TokenKind × Nat)}
  {line : Nat} {a t t' more : Text} {u : CodeUnit} {strip l r : Bool}

/-! ## Steps -/

/-- Steps from one place to another, and what the tokens of all of them are. -/
inductive Steps : Cursor → Mode → List (TokenKind × Nat) → Cursor → Mode → Prop where
  | refl (c : Cursor) (mode : Mode) : Steps c mode [] c mode
  | next {c c' : Cursor} {mode mode' : Mode} {s : Step} {readings : List (TokenKind × Nat)} (hc : c.rest ≠ [])
    (hs : step c mode = .ok s) (h : Steps s.cursor s.mode readings c' mode') :
    Steps c mode (s.tokens.map Token.reading ++ readings) c' mode'

theorem Steps.trans (h : Steps c mode readings c' mode') (h' : Steps c' mode' readings' c'' mode'') :
    Steps c mode (readings ++ readings') c'' mode'' := by
  induction h with
  | refl _ _ => exact h'
  | next hc hs _ ih =>
    rw [List.append_assoc]
    exact .next hc hs (ih h')

/-- A single step. -/
theorem Steps.one {tokens : List Token} (hc : c.rest ≠ []) (hs : step c mode = .ok ⟨tokens, c', mode'⟩) :
    Steps c mode (tokens.map Token.reading) c' mode' := by
  have hstep := Steps.next hc hs (.refl c' mode')
  rwa [List.append_nil] at hstep

/-- Each step takes one unit of fuel, and passes over a unit of the source at least. -/
theorem run_of_steps (h : Steps c mode readings c' mode') {fuel : Nat} (hfuel : c.left < fuel) :
    ∃ fuel', c'.left < fuel' ∧ ∀ tokens', run fuel' c' mode' = .ok tokens' →
      ∃ tokens, run fuel c mode = .ok tokens ∧
        tokens.map Token.reading = readings ++ tokens'.map Token.reading := by
  induction h generalizing fuel with
  | refl c mode => exact ⟨fuel, hfuel, fun tokens' h => ⟨tokens', h, rfl⟩⟩
  | @next c c' mode mode' s readings hc hs _ ih =>
    obtain ⟨fuel, rfl⟩ : ∃ n, fuel = n + 1 := ⟨fuel - 1, by omega⟩
    have hleft : s.cursor.left < c.left := by
      have hpaid : Paid c _ (step c mode) := paid_step (.inl hc)
      rw [hs] at hpaid
      exact hpaid.2.1
    have hless : s.cursor.left < fuel := by omega
    obtain ⟨fuel', hfuel', hrun⟩ := ih hless
    refine ⟨fuel', hfuel', fun tokens' htokens' => ?_⟩
    obtain ⟨tokens, htokens, hreadings⟩ := hrun tokens' htokens'
    refine ⟨s.tokens ++ tokens, ?_, ?_⟩
    · rw [run_of_ok (.inl hc) hs, htokens]
      rfl
    · rw [List.map_append, hreadings, List.append_assoc]

/-- A source that is read to its end has the tokens of the steps, and then the end. -/
theorem tokenize_of_steps {source : Text} {keep : Bool}
    (h : Steps (.start (trimmed source keep)) (.between false) readings c (.between strip)) (hc : c.rest = []) :
    (tokenize source keep).map (·.map Token.reading) = .ok (readings ++ [(.eof, c.line)]) := by
  obtain ⟨fuel, hfuel, hrun⟩ := run_of_steps h (Nat.lt_succ_self _)
  obtain ⟨fuel, rfl⟩ : ∃ n, fuel = n + 1 := ⟨fuel - 1, by omega⟩
  obtain ⟨tokens, htokens, hreadings⟩ := hrun _ (run_over hc strip fuel)
  unfold tokenize
  change Except.map _ (run ((Cursor.start (trimmed source keep)).left + 1) _ _) = _
  rw [htokens]
  exact congrArg Except.ok hreadings

/-! ## Text -/

/-- What is read of a text between tags. -/
def dataReadings (line : Nat) (t : Text) (stripStart stripEnd : Bool) : List (TokenKind × Nat) :=
  if (dataValue t stripStart stripEnd).isEmpty then [] else [(.data (dataValue t stripStart stripEnd), line)]

theorem readings_dataTokens (h : c.At line (t ++ more)) (stripStart stripEnd : Bool) :
    (dataTokens c t.length stripStart stripEnd).map Token.reading = dataReadings line t stripStart stripEnd := by
  unfold dataTokens dataReadings
  rw [h.rest, List.take_left, h.line]
  dsimp only
  split <;> rfl

/-- The units that stand after a brace in an opening mark. -/
def openers : List CodeUnit := [('\x7b' : CodeUnit), ('%' : CodeUnit), ('#' : CodeUnit)]

/-- No opening mark stands in a text. -/
def Unopened (t : Text) : Prop := ∀ u ∈ openers, ¬ [('\x7b' : CodeUnit), u] <:+: t

/-- A text without an opening mark, that does not start one either. -/
structure Plain (t : Text) : Prop where
  unopened : Unopened t
  last : t.getLast? ≠ some ('\x7b' : CodeUnit)

theorem ofUnit?_eq_none : Opener.ofUnit? u = none ↔ u ∉ openers := by
  unfold openers Opener.ofUnit?
  simp only [List.mem_cons, List.not_mem_nil, or_false, not_or]
  split
  · simp [*]
  · split
    · simp [*]
    · split <;> simp [*]

theorem Unopened.tail (h : Unopened (u :: t)) : Unopened t :=
  fun v hv hmark => h v hv (hmark.trans (List.suffix_cons u t).isInfix)

theorem unopened_nil : Unopened [] := fun _ _ h => absurd (List.infix_nil.mp h) (List.cons_ne_nil _ _)

/-- Two units in a row open nothing. -/
theorem Unopened.head {v : CodeUnit} (h : Unopened (u :: v :: t)) :
    (if u = '\x7b' then Opener.ofUnit? v else none) = none := by
  split
  · rename_i hu
    refine ofUnit?_eq_none.mpr fun hv => h v hv ?_
    rw [hu]
    exact (List.prefix_append [('\x7b' : CodeUnit), v] t).isInfix
  · rfl

/-- No mark is found exactly where none stands. -/
theorem openerAt?_eq_none : openerAt? t = none ↔ Unopened t := by
  induction t with
  | nil => exact ⟨fun _ => unopened_nil, fun _ => rfl⟩
  | cons u t ih =>
    rw [openerAt?]
    constructor
    · intro h v hv hmark
      cases hhead : if u = '\x7b' then t.head?.bind Opener.ofUnit? else none with
      | some o =>
        rw [hhead] at h
        cases h
      | none =>
        rw [hhead] at h
        rcases List.infix_cons_iff.mp hmark with hstart | hmark
        · obtain ⟨hu, hnext⟩ := List.cons_prefix_cons.mp hstart
          obtain ⟨rest, rfl⟩ := hnext
          rw [if_pos hu.symm] at hhead
          exact ofUnit?_eq_none.mp hhead hv
        · exact ih.mp (Option.map_eq_none_iff.mp h) v hv hmark
    · intro h
      have hhead : (if u = '\x7b' then t.head?.bind Opener.ofUnit? else none) = none := by
        cases t with
        | nil => exact ite_self none
        | cons v t => exact h.head
      rw [hhead, ih.mpr h.tail]
      rfl

instance (t : Text) : Decidable (Unopened t) :=
  decidable_of_iff ((openerAt? t).isNone = true) (Option.isNone_iff_eq_none.trans openerAt?_eq_none)

instance (t : Text) : Decidable (Plain t) :=
  decidable_of_iff (Unopened t ∧ t.getLast? ≠ some ('\x7b' : CodeUnit))
    ⟨fun h => ⟨h.1, h.2⟩, fun h => ⟨h.unopened, h.last⟩⟩

theorem plain_nil : Plain [] := ⟨unopened_nil, nofun⟩

theorem Plain.tail {v : CodeUnit} (h : Plain (u :: v :: t)) : Plain (v :: t) := ⟨h.unopened.tail, h.last⟩

/-- No mark stands across the border of two texts, if the first does not end in a brace. -/
theorem Plain.unopened_append (h : Plain t) (h' : Unopened t') : Unopened (t ++ t') := by
  induction t with
  | nil => exact h'
  | cons u t ih =>
    intro v hv hmark
    rcases List.infix_cons_iff.mp hmark with hstart | hmark
    · obtain ⟨hu, hnext⟩ := List.cons_prefix_cons.mp hstart
      cases t with
      | nil => exact h.last (congrArg some hu.symm)
      | cons w t =>
        obtain ⟨hw, -⟩ := List.cons_prefix_cons.mp hnext
        refine h.unopened v hv ?_
        rw [hu, hw]
        exact (List.prefix_append [u, w] t).isInfix
    · cases t with
      | nil => exact h' v hv hmark
      | cons w t => exact ih h.tail v hv hmark

/-- Plain texts next to each other are one plain text. -/
theorem Plain.append (h : Plain t) (h' : Plain t') : Plain (t ++ t') where
  unopened := h.unopened_append h'.unopened
  last := by
    rw [List.getLast?_append]
    cases hlast : t'.getLast? with
    | none => exact h.last
    | some u =>
      rw [Option.some_or, ← hlast]
      exact h'.last

/-- The first mark after a plain text is found behind it. -/
theorem openerAt?_plain {o : Opener} (h : Plain a) (ho : Opener.ofUnit? u = some o) (more : Text) :
    openerAt? (a ++ ('\x7b' : CodeUnit) :: u :: more) =
      some (a.length, o, decide (more.head? = some ('-' : CodeUnit))) := by
  induction a with
  | nil =>
    rw [List.nil_append, openerAt?, if_pos rfl, List.head?_cons, Option.bind_some, ho]
    simp
  | cons v a ih =>
    have hhead : (if v = '\x7b' then (a ++ ('\x7b' : CodeUnit) :: u :: more).head?.bind Opener.ofUnit? else none) =
        none := by
      cases a with
      | nil => exact if_neg fun hv => h.last (congrArg some hv)
      | cons w a => exact h.unopened.head
    have hplain : Plain a := by
      cases a with
      | nil => exact plain_nil
      | cons w a => exact h.tail
    rw [List.cons_append, openerAt?, hhead, ih hplain]
    rfl

/-! ## Marks and their dashes -/

/-- A dash next to a mark, if there is one. -/
def dash (b : Bool) : Text := if b then [('-' : CodeUnit)] else []

/-- An opening mark, with the dash that it may have. -/
def opening (u : CodeUnit) (l : Bool) : Text := ('\x7b' : CodeUnit) :: u :: dash l

theorem lineFeeds_dash (b : Bool) : Text.lineFeeds (dash b) = 0 := by cases b <;> rfl

theorem rest_ne_nil (hc : c.At line (a ++ (opening u l ++ more))) : c.rest ≠ [] := by
  rw [hc.rest]
  simp [opening]

/-- A mark is found with its own dash, unless it has none and what follows starts with one. -/
theorem openerAt?_opening {o : Opener} (hc : c.At line (a ++ (opening u l ++ more))) (ha : Plain a)
    (ho : Opener.ofUnit? u = some o) (hmore : l = false → more.head? ≠ some ('-' : CodeUnit)) :
    openerAt? c.rest = some (a.length, o, l) ∧
      (behindMark c a.length l).At (line + Text.lineFeeds a) more := by
  have hdash : decide ((dash l ++ more).head? = some ('-' : CodeUnit)) = l := by
    cases l with
    | true => rfl
    | false => exact decide_eq_false (hmore rfl)
  have hwidth : (if l then 3 else 2) = (opening u l).length := by cases l <;> rfl
  refine ⟨?_, ?_⟩
  · rw [hc.rest]
    exact (openerAt?_plain ha ho (dash l ++ more)).trans (by rw [hdash])
  · unfold behindMark
    rw [hwidth]
    exact hc.advance.skip

/-! ## Comments -/

/-- The mark that closes a comment. -/
def commentEnd : Text := [('#' : CodeUnit), ('\x7d' : CodeUnit)]

theorem commentEnd_eq : Text.ofString "#\x7d" = commentEnd := by decide

theorem find?_commentEnd (ht : ¬ commentEnd <:+: t) (more : Text) :
    Text.find? commentEnd (t ++ (commentEnd ++ more)) = some t.length := by
  induction t with
  | nil => rfl
  | cons u t ih =>
    have hhead : ¬ commentEnd.isPrefixOf (u :: (t ++ (commentEnd ++ more))) := by
      intro hprefix
      obtain ⟨rfl, hfront⟩ := List.cons_prefix_cons.mp (List.isPrefixOf_iff_prefix.mp hprefix)
      clear hprefix
      cases t with
      | nil =>
        obtain ⟨heq, -⟩ := List.cons_prefix_cons.mp hfront
        revert heq
        decide
      | cons v t =>
        obtain ⟨rfl, -⟩ := List.cons_prefix_cons.mp hfront
        exact ht (List.prefix_append commentEnd t).isInfix
    have hrest := ih fun hmark => ht (hmark.trans (List.suffix_cons u t).isInfix)
    unfold Text.find? at hrest ⊢
    obtain ⟨parts, hparts, hlength⟩ := Option.map_eq_some_iff.mp hrest
    rw [List.cons_append, Text.splitAtFirst?, if_neg hhead, hparts]
    simp [hlength]

theorem not_commentEnd_dash (ht : ¬ commentEnd <:+: t) (r : Bool) : ¬ commentEnd <:+: t ++ dash r := by
  cases r with
  | false => rwa [dash, if_neg Bool.false_ne_true, List.append_nil]
  | true =>
    intro hmark
    rcases List.infix_concat_iff.mp hmark with hend | hmark
    · obtain ⟨before, heq⟩ := hend
      have hlast := congrArg List.getLast? heq
      simp [commentEnd] at hlast
      revert hlast
      decide
    · exact ht hmark

theorem getElem?_append_last (ht : t ≠ []) (more : Text) : (t ++ more)[t.length - 1]? = t.getLast? := by
  have hlt : t.length - 1 < t.length := Nat.sub_lt (List.length_pos_iff.mpr ht) Nat.one_pos
  rw [List.getElem?_append_left hlt, List.getLast?_eq_getElem?]

/-- The last unit before the rest is a dash, if any: one of the closing mark, or else that of the opening mark. -/
theorem stripped_comment {body : Text} (hend : body.getLast? ≠ some ('-' : CodeUnit)) (l r : Bool) (more : Text) :
    (if (body ++ dash r).length = 0 then l
      else decide ((body ++ dash r ++ more)[(body ++ dash r).length - 1]? = some ('-' : CodeUnit))) =
      (r || (body.isEmpty && l)) := by
  cases r with
  | true =>
    have hne : body ++ dash true ≠ [] := List.append_ne_nil_of_right_ne_nil _ (List.cons_ne_nil _ _)
    rw [if_neg (by simpa using hne), getElem?_append_last hne]
    simp [dash]
  | false =>
    have hnone : body ++ dash false = body := List.append_nil body
    rw [hnone]
    cases body with
    | nil => rfl
    | cons u body =>
      rw [if_neg (by simp), getElem?_append_last (List.cons_ne_nil _ _), decide_eq_false hend]
      rfl

/-- A comment is passed over up to the mark that closes it. What follows is stripped if a dash stands before that mark,
be it the one of the opening mark. -/
theorem steps_comment (strip : Bool) {body : Text} (ha : Plain a) (hbody : ¬ commentEnd <:+: body)
    (hstart : body.head? ≠ some ('-' : CodeUnit)) (hend : body.getLast? ≠ some ('-' : CodeUnit))
    (hempty : body = [] → r → l)
    (hc : c.At line (a ++ (opening '#' l ++ (body ++ dash r ++ (commentEnd ++ more))))) :
    ∃ c', Steps c (.between strip) (dataReadings line a strip l) c' (.between (r || (body.isEmpty && l))) ∧
      c'.At (line + Text.lineFeeds a + Text.lineFeeds body) more := by
  have hmore : l = false → (body ++ dash r ++ (commentEnd ++ more)).head? ≠ some ('-' : CodeUnit) := by
    intro hl
    cases body with
    | nil =>
      have hr : r = false := Bool.eq_false_iff.mpr fun hr => Bool.false_ne_true (hl.symm.trans (hempty rfl hr))
      rw [hr]
      exact fun hhead => absurd (Option.some.inj hhead) (by decide)
    | cons u body => exact hstart
  obtain ⟨hopener, hinner⟩ := openerAt?_opening hc ha (o := .comment) rfl hmore
  let inner := behindMark c a.length l
  have hafter := hinner.advance
  have hfind : Text.find? commentEnd inner.rest = some (body ++ dash r).length := by
    rw [hinner.rest]
    exact find?_commentEnd (not_commentEnd_dash hbody r) more
  have hstep : step c (.between strip) = .ok ⟨dataTokens c a.length strip l,
      (inner.advance (body ++ dash r).length).skip 2, .between (r || (body.isEmpty && l))⟩ := by
    refine (stepBetween_eq_iff.mpr (.comment hopener)).trans ?_
    unfold comment
    rw [commentEnd_eq, hfind]
    dsimp only
    rw [hinner.rest, stripped_comment hend]
  refine ⟨(inner.advance (body ++ dash r).length).skip 2, ?_, ?_⟩
  · rw [← readings_dataTokens hc]
    exact .one (rest_ne_nil hc) hstep
  · rw [Text.lineFeeds_append, lineFeeds_dash] at hafter
    exact hafter.skip

/-! ## Raw blocks -/

/-- The mark that closes the tag of a statement. -/
def statementEnd : Text := [('%' : CodeUnit), ('\x7d' : CodeUnit)]

/-- A word between blanks, in front of the mark that closes its tag. -/
def framed (first : Text) (word : String) (second : Text) (r : Bool) : Text :=
  first ++ (Text.ofString word ++ (second ++ (dash r ++ statementEnd)))

variable {first second : Text} {word : String}

theorem takeWhile_blanks (hblanks : Blanks first) (hu : u.isBlank = false) :
    (first ++ u :: more).takeWhile CodeUnit.isBlank = first := by
  rw [List.takeWhile_append_of_pos hblanks, List.takeWhile_cons, hu, if_neg Bool.false_ne_true, List.append_nil]

/-- A framed word is found with its dash. -/
theorem wordThenClose?_framed {w : Text} (hword : Text.ofString word = u :: w) (hu : u.isBlank = false)
    (hfirst : Blanks first) (hsecond : Blanks second) (r : Bool) (more : Text) :
    wordThenClose? word (framed first word second r ++ more) = some ((framed first word second r).length, r) := by
  have hstart : (framed first word second r ++ more).takeWhile CodeUnit.isBlank = first := by
    unfold framed
    rw [hword, List.append_assoc]
    exact takeWhile_blanks hfirst hu
  have hrest : (framed first word second r ++ more).drop first.length =
      Text.ofString word ++ (second ++ (dash r ++ (statementEnd ++ more))) := by
    unfold framed
    rw [List.append_assoc, List.drop_left]
    simp only [List.append_assoc]
  have hmiddle : (second ++ (dash r ++ (statementEnd ++ more))).takeWhile CodeUnit.isBlank = second := by
    cases r <;> exact takeWhile_blanks hsecond (by decide)
  have hwordPrefix : (Text.ofString word).isPrefixOf
      (Text.ofString word ++ (second ++ (dash r ++ (statementEnd ++ more)))) = true :=
    List.isPrefixOf_iff_prefix.mpr (List.prefix_append _ _)
  unfold wordThenClose?
  dsimp only
  rw [hstart, hrest, if_pos hwordPrefix, List.drop_left, hmiddle, List.drop_left]
  have hlength : (framed first word second r).length =
      first.length + (Text.ofString word).length + second.length + ((dash r).length + 2) := by
    unfold framed
    simp [statementEnd]
    omega
  rw [hlength]
  cases r <;> rfl

theorem blanks_takeWhile (t : Text) : Blanks (t.takeWhile CodeUnit.isBlank) :=
  fun _ hu => List.all_eq_true.mp List.all_takeWhile _ hu

/-- What a text starts with, and the rest. -/
theorem append_drop_of_prefix {part : Text} (h : part <+: t) : part ++ t.drop part.length = t :=
  List.prefix_iff_eq_append.mp h

/-- What is found is a framed word. -/
theorem framed_of_wordThenClose? {n : Nat} (h : wordThenClose? word t = some (n, r)) :
    ∃ first second more, Blanks first ∧ Blanks second ∧ t = framed first word second r ++ more ∧
      n = (framed first word second r).length := by
  unfold wordThenClose? at h
  dsimp only at h
  have hfirst := append_drop_of_prefix (List.takeWhile_prefix (l := t) CodeUnit.isBlank)
  have hblanks := blanks_takeWhile t
  generalize t.takeWhile CodeUnit.isBlank = first at h hfirst hblanks
  generalize t.drop first.length = t' at h hfirst
  split at h
  · rename_i hword
    have hmiddle := append_drop_of_prefix (List.isPrefixOf_iff_prefix.mp hword)
    generalize t'.drop (Text.ofString word).length = t'' at h hmiddle
    have hsecond := append_drop_of_prefix (List.takeWhile_prefix (l := t'') CodeUnit.isBlank)
    have hblanks' := blanks_takeWhile t''
    generalize t''.takeWhile CodeUnit.isBlank = second at h hsecond hblanks'
    generalize t''.drop second.length = last at h hsecond
    -- either mark stands last
    have hmark : ∃ more, last = dash r ++ (statementEnd ++ more) ∧
        n = first.length + (Text.ofString word).length + second.length + ((dash r).length + 2) := by
      split at h
      · rename_i hlast
        cases h
        obtain ⟨more, hmore⟩ := List.isPrefixOf_iff_prefix.mp hlast
        exact ⟨more, hmore.symm, rfl⟩
      · split at h
        · rename_i hlast
          cases h
          obtain ⟨more, hmore⟩ := List.isPrefixOf_iff_prefix.mp hlast
          exact ⟨more, hmore.symm, rfl⟩
        · cases h
    obtain ⟨more, rfl, hlength⟩ := hmark
    refine ⟨first, second, more, hblanks, hblanks', ?_, hlength.trans ?_⟩
    · rw [← hfirst, ← hmiddle, ← hsecond]
      simp only [framed, List.append_assoc]
    · simp [framed, statementEnd]
      omega
  · cases h

/-- The tag that ends a raw block. -/
def rawEnding (l : Bool) (first second : Text) (r : Bool) : Text :=
  opening '%' l ++ framed first "endraw" second r

/-- No tag that ends a raw block stands in a text. -/
def Endless (t : Text) : Prop :=
  ∀ l first second r, Blanks first → Blanks second → ¬ rawEnding l first second r <:+: t

/-- A framed word does not start with a dash. -/
theorem head?_framed {w : Text} (hword : Text.ofString word = u :: w) (hu : u ≠ '-') (hfirst : Blanks first)
    (more : Text) : (framed first word second r ++ more).head? ≠ some ('-' : CodeUnit) := by
  intro hhead
  cases first with
  | nil =>
    rw [framed, hword] at hhead
    exact hu (Option.some.inj hhead)
  | cons v first =>
    have hblank := hfirst v List.mem_cons_self
    rw [Option.some.inj hhead] at hblank
    revert hblank
    decide

theorem length_rawEnding (l : Bool) (first second : Text) (r : Bool) :
    (rawEnding l first second r).length = (if l then 3 else 2) + (framed first "endraw" second r).length := by
  cases l <;> exact List.length_append

theorem rawEnd?_rawEnding (hfirst : Blanks first) (hsecond : Blanks second) (l r : Bool) (more : Text) :
    rawEnd? (rawEnding l first second r ++ more) = some ((rawEnding l first second r).length, l, r) := by
  have hframed : wordThenClose? "endraw" (framed first "endraw" second r ++ more) =
      some ((framed first "endraw" second r).length, r) :=
    wordThenClose?_framed rfl (by decide) hfirst hsecond r more
  have hprefix : (Text.ofString "\x7b%").isPrefixOf (rawEnding l first second r ++ more) = true := rfl
  rw [length_rawEnding]
  unfold rawEnd?
  rw [if_pos hprefix]
  cases l with
  | true =>
    change (wordThenClose? "endraw" (framed first "endraw" second r ++ more)).map _ = _
    rw [hframed]
    rfl
  | false =>
    have hhead : (framed first "endraw" second r ++ more).head? ≠ some ('-' : CodeUnit) :=
      head?_framed rfl (by decide) hfirst more
    have hdrop : (rawEnding false first second r ++ more).drop 2 = framed first "endraw" second r ++ more := rfl
    dsimp only
    rw [hdrop, if_neg hhead, if_neg hhead, hframed, decide_eq_false hhead]
    rfl

theorem rawEnding_of_rawEnd? {n : Nat} (h : rawEnd? t = some (n, l, r)) : ∃ first second more,
    Blanks first ∧ Blanks second ∧ t = rawEnding l first second r ++ more := by
  unfold rawEnd? at h
  split at h
  · rename_i hprefix
    obtain ⟨t', rfl⟩ := List.isPrefixOf_iff_prefix.mp hprefix
    obtain ⟨⟨m, r'⟩, hword, he⟩ := Option.map_eq_some_iff.mp h
    change wordThenClose? "endraw" (if t'.head? = some ('-' : CodeUnit) then t'.drop 1 else t') = _ at hword
    have hl : decide (t'.head? = some ('-' : CodeUnit)) = l := congrArg (·.2.1) he
    have hr : r' = r := congrArg (·.2.2) he
    obtain ⟨first, second, more, hfirst, hsecond, hframed, -⟩ := framed_of_wordThenClose? hword
    refine ⟨first, second, more, hfirst, hsecond, ?_⟩
    have ht' : t' = dash l ++ (if t'.head? = some ('-' : CodeUnit) then t'.drop 1 else t') := by
      rw [← hl]
      split
      · rename_i hhead
        obtain ⟨rest, rfl⟩ := List.head?_eq_some_iff.mp hhead
        rfl
      · rename_i hhead
        rw [decide_eq_false hhead]
        rfl
    rw [hframed, hr] at ht'
    rw [ht', rawEnding, List.append_assoc]
    rfl
  · cases h

/-- The one brace of a tag that ends a raw block is its first unit. -/
theorem brace_notMem_rawEnding (hfirst : Blanks first) (hsecond : Blanks second) (l r : Bool) :
    ∃ rest, rawEnding l first second r = ('\x7b' : CodeUnit) :: rest ∧ ('\x7b' : CodeUnit) ∉ rest := by
  have hblank : ∀ {blanks : Text}, Blanks blanks → ('\x7b' : CodeUnit) ∉ blanks := fun h hmem =>
    absurd (h _ hmem) (by decide)
  have hdash : ∀ b, ('\x7b' : CodeUnit) ∉ dash b := by decide
  refine ⟨_, rfl, ?_⟩
  change _ ∉ ('%' : CodeUnit) ::
    (dash l ++ (first ++ (Text.ofString "endraw" ++ (second ++ (dash r ++ statementEnd)))))
  simp only [List.mem_cons, List.mem_append, not_or]
  exact ⟨by decide, hdash l, hblank hfirst, by decide, hblank hsecond, hdash r, by decide⟩

theorem Endless.tail (h : Endless (u :: t)) : Endless t :=
  fun l first second r hfirst hsecond hmark =>
    h l first second r hfirst hsecond (hmark.trans (List.suffix_cons u t).isInfix)

/-- The end of a raw block is found behind its text. -/
theorem rawEndAt?_rawEnding (ht : Endless t) (hfirst : Blanks first) (hsecond : Blanks second) (l r : Bool)
    (more : Text) : rawEndAt? (t ++ (rawEnding l first second r ++ more)) =
      some (t.length, (rawEnding l first second r).length, l, r) := by
  obtain ⟨rest, hrest, -⟩ := brace_notMem_rawEnding hfirst hsecond l r
  induction t with
  | nil =>
    have hend := rawEnd?_rawEnding hfirst hsecond l r more
    rw [List.nil_append]
    rw [hrest] at hend ⊢
    rw [List.cons_append] at hend ⊢
    rw [rawEndAt?, hend]
    rfl
  | cons u t ih =>
    have hnone : rawEnd? (u :: (t ++ (rawEnding l first second r ++ more))) = none := by
      refine Option.eq_none_iff_forall_ne_some.mpr fun found hsome => ?_
      obtain ⟨n, l', r'⟩ := found
      obtain ⟨first', second', more', hfirst', hsecond', heq⟩ := rawEnding_of_rawEnd? hsome
      have hinside : ∀ beyond, u :: t = rawEnding l' first' second' r' ++ beyond → False := fun beyond hbeyond =>
        ht l' first' second' r' hfirst' hsecond' (hbeyond ▸ (List.prefix_append _ beyond).isInfix)
      rw [← List.cons_append] at heq
      rcases List.append_eq_append_iff.mp heq with ⟨beyond, hbeyond, hmore⟩ | ⟨beyond, hbeyond, -⟩
      · cases beyond with
        | nil => exact hinside [] (by rw [List.append_nil, hbeyond, List.append_nil])
        | cons v beyond =>
          -- a tag that ends behind the text holds the brace that stands there
          obtain ⟨rest', hrest', hbrace⟩ := brace_notMem_rawEnding hfirst' hsecond' l' r'
          rw [hrest, List.cons_append, List.cons_append, List.cons.injEq] at hmore
          rw [hrest', List.cons_append, List.cons.injEq] at hbeyond
          refine hbrace ?_
          rw [hbeyond.2, hmore.1]
          exact List.mem_append_right _ List.mem_cons_self
      · exact hinside beyond hbeyond
    rw [List.cons_append, rawEndAt?, hnone, ih ht.tail]
    rfl

theorem lineFeeds_framed (hword : Text.lineFeeds (Text.ofString word) = 0) (first second : Text) (r : Bool) :
    Text.lineFeeds (framed first word second r) = Text.lineFeeds first + Text.lineFeeds second := by
  have hend : Text.lineFeeds statementEnd = 0 := rfl
  simp only [framed, Text.lineFeeds_append, hword, lineFeeds_dash, hend, Nat.zero_add, Nat.add_zero]

theorem lineFeeds_rawEnding (l : Bool) (first second : Text) (r : Bool) :
    Text.lineFeeds (rawEnding l first second r) = Text.lineFeeds first + Text.lineFeeds second := by
  have hopening : Text.lineFeeds (opening '%' l) = 0 := by cases l <;> rfl
  rw [rawEnding, Text.lineFeeds_append, hopening, Nat.zero_add, lineFeeds_framed rfl]

/-- A raw block gives its text, stripped as the dashes of its two tags next to it say. -/
theorem steps_raw (strip : Bool) {first' second' : Text} {stripStart stripEnd : Bool} (ha : Plain a) (ht : Endless t)
    (hfirst : Blanks first) (hsecond : Blanks second) (hfirst' : Blanks first') (hsecond' : Blanks second')
    (hc : c.At line (a ++ (opening '%' l ++ (framed first "raw" second stripStart ++
      (t ++ (rawEnding stripEnd first' second' r ++ more)))))) :
    ∃ c', Steps c (.between strip)
        (dataReadings line a strip l ++
          dataReadings (line + Text.lineFeeds a + (Text.lineFeeds first + Text.lineFeeds second)) t stripStart stripEnd)
        c' (.between r) ∧
      c'.At (line + Text.lineFeeds a + (Text.lineFeeds first + Text.lineFeeds second) + Text.lineFeeds t +
        (Text.lineFeeds first' + Text.lineFeeds second')) more := by
  obtain ⟨hopener, hinner⟩ := openerAt?_opening hc ha (o := .tag .statement) rfl fun _ =>
    head?_framed rfl (by decide) hfirst _
  let inner := behindMark c a.length l
  let body := inner.advance (framed first "raw" second stripStart).length
  have hbody : body.At (line + Text.lineFeeds a + (Text.lineFeeds first + Text.lineFeeds second))
      (t ++ (rawEnding stripEnd first' second' r ++ more)) := by
    have hadvance := hinner.advance
    rwa [lineFeeds_framed rfl] at hadvance
  have hword : wordThenClose? "raw" inner.rest = some ((framed first "raw" second stripStart).length, stripStart) := by
    rw [hinner.rest]
    exact wordThenClose?_framed rfl (by decide) hfirst hsecond stripStart _
  have hend : rawEndAt? body.rest = some (t.length, (rawEnding stripEnd first' second' r).length, stripEnd, r) := by
    rw [hbody.rest]
    exact rawEndAt?_rawEnding ht hfirst' hsecond' stripEnd r more
  have hstep : step c (.between strip) = .ok ⟨dataTokens c a.length strip l ++
      dataTokens body t.length stripStart stripEnd,
      (body.advance t.length).advance (rawEnding stripEnd first' second' r).length, .between r⟩ := by
    refine (stepBetween_eq_iff.mpr (.raw hopener hword)).trans ?_
    unfold rawBlock
    dsimp only
    rw [hend]
  refine ⟨(body.advance t.length).advance (rawEnding stripEnd first' second' r).length, ?_, ?_⟩
  · rw [← readings_dataTokens hc, ← readings_dataTokens hbody, ← List.map_append]
    exact .one (rest_ne_nil hc) hstep
  · have hafter := hbody.advance.advance
    rwa [lineFeeds_rawEnding] at hafter

/-- The text behind the last mark. -/
theorem steps_last (ht : Unopened t) (hc : c.At line t) (strip : Bool) :
    ∃ c' strip', Steps c (.between strip) (dataReadings line t strip false) c' (.between strip') ∧
      c'.At (line + Text.lineFeeds t) [] := by
  cases t with
  | nil =>
    have hnone : dataReadings line [] strip false = [] := by cases strip <;> rfl
    rw [hnone]
    exact ⟨c, strip, .refl _ _, hc⟩
  | cons u t =>
    have hc' : c.At line (u :: t ++ []) := by rwa [List.append_nil]
    have hstep : step c (.between strip) = .ok ⟨dataTokens c (u :: t).length strip false,
        c.advance (u :: t).length, .between false⟩ := by
      rw [← hc.rest] at ht ⊢
      exact stepBetween_eq_iff.mpr (.last (openerAt?_eq_none.mpr ht))
    refine ⟨c.advance (u :: t).length, false, ?_, hc'.advance⟩
    rw [← readings_dataTokens hc']
    refine .one ?_ hstep
    rw [hc.rest]
    exact List.cons_ne_nil u t

end Lexer
end Stencil
