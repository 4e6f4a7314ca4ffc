import Stencil.Proofs.Template.TagBodies

/-!
Sources made of texts and tags. A dash next to an outer mark of a tag strips the text on its own side, and no other: it
is forgotten behind the next piece of text, and the tokens inside the tag do not depend on it. The one exception is a
comment without a body, between whose marks a single dash stands for both sides.
-/
namespace Stencil.Lexer

open Stencil.Literal (Blanks)

variable {line : Nat} {strip l r keep : Bool} {a t last more : Text} {c : Cursor}

/-! ## Tags -/

/-- A tag, without the dashes of its outer marks. Of the tokens of a body each is on a line that many lines after that
of its tag. A raw block has two tags, with blanks around their words and dashes next to its text. -/
inductive Tag where
  | code (kind : TagKind) (body : Text) (inner : List (TokenKind × Nat))
  | comment (body : Text)
  | raw (first second : Text) (stripStart : Bool) (text : Text) (stripEnd : Bool) (first' second' : Text)

namespace Tag

/-- A tag as it is written, with a dash at either outer mark or none. -/
def write (l r : Bool) : Tag → Text
  | .code kind body _ => opening (openUnit kind) l ++ (body ++ (dash r ++ Text.ofString kind.closeMark))
  | .comment body => opening '#' l ++ (body ++ dash r ++ commentEnd)
  | .raw first second stripStart text stripEnd first' second' =>
    opening '%' l ++ (framed first "raw" second stripStart ++ (text ++ rawEnding stripEnd first' second' r))

/-- The tokens of a tag on a line. -/
def readings (line : Nat) : Tag → List (TokenKind × Nat)
  | .code kind body inner =>
    (.tagBegin kind, line) :: inner.map (fun p => (p.1, line + p.2)) ++ [(.tagEnd kind, line + Text.lineFeeds body)]
  | .comment _ => []
  | .raw first second stripStart text stripEnd _ _ =>
    dataReadings (line + (Text.lineFeeds first + Text.lineFeeds second)) text stripStart stripEnd

/-- The lines that end within a tag. -/
def lines : Tag → Nat
  | .code _ body _ => Text.lineFeeds body
  | .comment body => Text.lineFeeds body
  | .raw first second _ text _ first' second' =>
    (Text.lineFeeds first + Text.lineFeeds second) + Text.lineFeeds text +
      (Text.lineFeeds first' + Text.lineFeeds second')

/-- The bodies that a tag may have: dashes belong to its marks, and nothing in the body ends the tag. Where a comment
has no body and one dash, it is that of the opening mark. -/
def Sound (l r : Bool) : Tag → Prop
  | .code kind body inner => LexesAlone kind body inner ∧ body ≠ [] ∧
      body.head? ≠ some ('-' : CodeUnit) ∧ body.getLast? ≠ some ('-' : CodeUnit)
  | .comment body => ¬ commentEnd <:+: body ∧ body.head? ≠ some ('-' : CodeUnit) ∧
      body.getLast? ≠ some ('-' : CodeUnit) ∧ (body = [] → r → l)
  | .raw first second _ text _ first' second' => Endless text ∧ Blanks first ∧ Blanks second ∧
      Blanks first' ∧ Blanks second'

/-- Whether the text behind a tag is stripped: a dash stands in front of its last mark. -/
def strips (l r : Bool) : Tag → Bool
  | .comment body => r || (body.isEmpty && l)
  | _ => r

/-- A text and the tag behind it are read on their own, and only the dash at the last mark is left behind them. -/
theorem steps (tag : Tag) (ha : Plain a) (h : tag.Sound l r) (hc : c.At line (a ++ (tag.write l r ++ more))) :
    ∃ c', Steps c (.between strip) (dataReadings line a strip l ++ tag.readings (line + Text.lineFeeds a)) c'
        (.between (tag.strips l r)) ∧
      c'.At (line + Text.lineFeeds a + tag.lines) more := by
  cases tag with
  | code kind body inner =>
    obtain ⟨hbody, hne, hstart, hend⟩ := h
    simp only [write, List.append_assoc] at hc
    exact steps_code strip ha hbody hstart hend hne hc
  | comment body =>
    obtain ⟨hbody, hstart, hend, hempty⟩ := h
    simp only [write, List.append_assoc] at hc
    rw [← List.append_assoc body] at hc
    have hsteps := steps_comment strip ha hbody hstart hend hempty hc
    rwa [← List.append_nil (dataReadings line a strip l)] at hsteps
  | raw first second stripStart text stripEnd first' second' =>
    obtain ⟨htext, hfirst, hsecond, hfirst', hsecond'⟩ := h
    simp only [write, List.append_assoc] at hc
    obtain ⟨c', hsteps, hafter⟩ := steps_raw strip ha htext hfirst hsecond hfirst' hsecond' hc
    exact ⟨c', hsteps, by simpa only [lines, Nat.add_assoc] using hafter⟩

/-- A tag ends in a brace. -/
theorem exists_write (tag : Tag) (l r : Bool) : ∃ t, tag.write l r = t ++ [('\x7d' : CodeUnit)] := by
  have hlast : (tag.write l r).getLast? = some ('\x7d' : CodeUnit) := by
    cases tag <;> simp only [write, closeMark_eq, rawEnding, framed, List.getLast?_append] <;> rfl
  exact List.getLast?_eq_some_iff.mp hlast

end Tag

/-! ## Sources -/

/-- A text, the tag behind it, and the dashes at the outer marks of the tag. -/
structure Stretch where
  text : Text
  tag : Tag
  dashBefore : Bool
  dashAfter : Bool

namespace Stretch

def write (s : Stretch) : Text := s.text ++ s.tag.write s.dashBefore s.dashAfter

structure Sound (s : Stretch) : Prop where
  text : Plain s.text
  tag : s.tag.Sound s.dashBefore s.dashAfter

end Stretch

/-- Stretches with a last text behind them. -/
def source (stretches : List Stretch) (last : Text) : Text := stretches.flatMap Stretch.write ++ last

/-- What is read of stretches from a line on, where the first text is stripped or not. -/
def sourceReadings (line : Nat) (strip : Bool) : List Stretch → Text → List (TokenKind × Nat)
  | [], last => dataReadings line last strip false ++ [(.eof, line + Text.lineFeeds last)]
  | s :: stretches, last =>
    dataReadings line s.text strip s.dashBefore ++ s.tag.readings (line + Text.lineFeeds s.text) ++
      sourceReadings (line + Text.lineFeeds s.text + s.tag.lines) (s.tag.strips s.dashBefore s.dashAfter) stretches last

variable {stretches : List Stretch}

/-- A source is read to its end, one stretch after the other. -/
theorem steps_source (hstretches : ∀ s ∈ stretches, s.Sound) (hlast : Unopened last)
    (hc : c.At line (source stretches last)) :
    ∃ readings c' strip', Steps c (.between strip) readings c' (.between strip') ∧ c'.rest = [] ∧
      readings ++ [(.eof, c'.line)] = sourceReadings line strip stretches last := by
  induction stretches generalizing c line strip with
  | nil =>
    obtain ⟨c', strip', hsteps, hend⟩ := steps_last hlast hc strip
    exact ⟨_, c', strip', hsteps, hend.rest, by rw [hend.line]; rfl⟩
  | cons s stretches ih =>
    obtain ⟨hs, hstretches⟩ := List.forall_mem_cons.mp hstretches
    have hwhole : c.At line (s.text ++ (s.tag.write s.dashBefore s.dashAfter ++ source stretches last)) := by
      simpa only [source, Stretch.write, List.flatMap_cons, List.append_assoc] using hc
    obtain ⟨c', hsteps, hafter⟩ := s.tag.steps hs.text hs.tag hwhole
    obtain ⟨readings, c'', strip', hmore, hend, hreadings⟩ := ih hstretches hafter
    refine ⟨_, c'', strip', hsteps.trans hmore, hend, ?_⟩
    rw [List.append_assoc, hreadings]
    rfl

/-! ## The last line break -/

/-- A text behind a unit that ends no line loses its own last line break only. -/
theorem trimmed_append_cons {u : CodeUnit} (hfeed : u ≠ '\n') (hreturn : u ≠ '\r') (t more : Text) (keep : Bool) :
    trimmed (t ++ u :: more) keep = t ++ u :: trimmed more keep := by
  cases keep with
  | true => rfl
  | false =>
    change trimFinalBreak (t ++ u :: more) = t ++ u :: trimFinalBreak more
    obtain ⟨back, rfl⟩ : ∃ back : Text, more = back.reverse := ⟨more.reverse, more.reverse_reverse.symm⟩
    have hwhole : (t ++ u :: back.reverse).reverse = back ++ u :: t.reverse := by simp
    unfold trimFinalBreak
    rw [hwhole, List.reverse_reverse]
    cases back with
    | nil =>
      cases t.reverse with
      | nil => exact if_neg hfeed
      | cons v rest => exact if_neg hfeed
    | cons v back =>
      cases back with
      | nil =>
        change (if v = '\n' then (if u = '\r' then t.reverse.reverse else (u :: t.reverse).reverse) else
          t ++ u :: [v]) = t ++ u :: (if v = '\n' then [] else [v])
        rw [if_neg hreturn]
        split
        · simp
        · rfl
      | cons w back =>
        dsimp only [List.cons_append]
        split
        · split <;> simp
        · rfl

/-- Only the last text can lose a line break. -/
theorem trimmed_source (stretches : List Stretch) (last : Text) (keep : Bool) :
    trimmed (source stretches last) keep = source stretches (trimmed last keep) := by
  induction stretches with
  | nil => rfl
  | cons s stretches ih =>
    obtain ⟨t, ht⟩ := s.tag.exists_write s.dashBefore s.dashAfter
    have hsource : ∀ last, source (s :: stretches) last =
        (s.text ++ t) ++ ('\x7d' : CodeUnit) :: source stretches last := by
      intro last
      simp only [source, Stretch.write, List.flatMap_cons, ht, List.append_assoc]
      rfl
    rw [hsource, hsource, trimmed_append_cons (by decide) (by decide), ih]

/-- The tokens of a source with tags in it. A text loses the blanks at its end exactly if a dash stands at the mark
behind it, and those at its start exactly if one stands at the mark before it; the tokens inside a tag are those that
its body has on its own. -/
theorem tokenize_source (hstretches : ∀ s ∈ stretches, s.Sound) (hlast : Unopened last) (keep : Bool) :
    (tokenize (source stretches last) keep).map (·.map Token.reading) =
      .ok (sourceReadings 1 false stretches (trimmed last keep)) := by
  have hunopened : Unopened (trimmed last keep) := fun u hu hmark =>
    hlast u hu (hmark.trans (prefix_trimmed last keep).isInfix)
  have hstart : (Cursor.start (trimmed (source stretches last) keep)).At 1 (source stretches (trimmed last keep)) :=
    ⟨trimmed_source stretches last keep, rfl⟩
  obtain ⟨readings, c, strip, hsteps, hend, hreadings⟩ := steps_source hstretches hunopened hstart
  rw [tokenize_of_steps hsteps hend, hreadings]

theorem endless_of_notMem (h : ('%' : CodeUnit) ∉ t) : Endless t := fun _ _ _ _ _ _ hmark =>
  h (hmark.subset (List.mem_cons_of_mem _ List.mem_cons_self))

/-- Dashes on either side of an output tag, of a statement, of a comment, and of both tags of a raw block. -/
theorem tokenize_source_of_dashes :
    let output : Stretch := ⟨"a  ", .code .output " x " [(.name "x", 0)], true, true⟩
    let statement : Stretch := ⟨"  b ", .code .statement " do\n y " [(.name "do", 0), (.name "y", 1)], true, false⟩
    let comment : Stretch := ⟨" c ", .comment " note ", false, true⟩
    let raw : Stretch := ⟨"\n d ", .raw " " " " true "  \x7b\x7b z \x7d\x7d " true " " " ", false, true⟩
    (∀ s ∈ [output, statement, comment, raw], s.Sound) ∧ Unopened "  e\n" ∧
      (tokenize (source [output, statement, comment, raw] "  e\n") false).map (·.map Token.reading) =
        .ok [(.data "a", 1), (.tagBegin .output, 1), (.name "x", 1), (.tagEnd .output, 1), (.data "b", 1),
          (.tagBegin .statement, 1), (.name "do", 1), (.name "y", 2), (.tagEnd .statement, 2), (.data " c ", 2),
          (.data "d ", 2), (.data "\x7b\x7b z \x7d\x7d", 3), (.data "e", 3), (.eof, 3)] := by
  intro output statement comment raw
  have houtput : output.Sound := ⟨by decide,
    ⟨[⟨.name "x", 1, 3⟩], 1, by decide +kernel, by decide, by decide⟩, by decide, by decide, by decide⟩
  have hstatement : statement.Sound := ⟨by decide,
    ⟨[⟨.name "do", 1, 3⟩, ⟨.name "y", 2, 7⟩], 2, by decide +kernel, by decide, by decide⟩,
    by decide, by decide, by decide⟩
  have hcomment : comment.Sound := ⟨by decide, by decide, by decide, by decide, nofun⟩
  have hblank : Blanks " " := List.forall_mem_singleton.mpr rfl
  have hraw : raw.Sound :=
    ⟨by decide, endless_of_notMem (by decide), hblank, hblank, hblank, hblank⟩
  have hall : ∀ s ∈ [output, statement, comment, raw], s.Sound := by
    simp only [List.forall_mem_cons]
    exact ⟨houtput, hstatement, hcomment, hraw, nofun⟩
  have hlast : Unopened "  e\n" := by decide
  exact ⟨hall, hlast, (tokenize_source hall hlast false).trans (by decide +kernel)⟩

/-- The dash of a comment without a body strips the text on its other side too. -/
theorem tokenize_comment_dash : (tokenize "a \x7b#-#\x7d b" true).map (·.map Token.reading) ≠
    .ok (dataReadings 1 "a " false true ++ dataReadings 1 " b" false false ++ [(.eof, 1)]) := by decide +kernel

end Stencil.Lexer
