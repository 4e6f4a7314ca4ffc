import Stencil.Proofs.Render.Reprinting
import Stencil.Proofs.Template.DashedTags

/-!
Literal text. Text without marks, raw blocks and comments, in whatever order, are rendered as they stand: nothing of a
comment is left, and of all other text only the line breaks are changed. Texts that stand next to each other are read as
one, so that a line break may begin in one of them and end in the next.
-/
namespace Stencil

open Stencil.Literal (Blanks)

namespace Lexer

variable {pending : Text}

/-! ## Passages -/

/-- A piece of a source that is rendered as it stands: text without marks, a raw block with blanks around the words of
its two tags, or a comment. -/
inductive Passage where
  | plain (t : Text)
  | raw (first second text first' second' : Text)
  | comment (body : Text)

namespace Passage

def write : Passage → Text
  | .plain t => t
  | .raw first second text first' second' => (Tag.raw first second false text false first' second').write false false
  | .comment body => (Tag.comment body).write false false

/-- No mark stands in plain text, and it starts none; nothing in a raw block or in a comment ends it before its end, and
no dash stands next to a mark. -/
def Sound : Passage → Prop
  | .plain t => Plain t
  | .raw first second text first' second' =>
    Endless text ∧ Blanks first ∧ Blanks second ∧ Blanks first' ∧ Blanks second'
  | .comment body =>
    ¬ commentEnd <:+: body ∧ body.head? ≠ some ('-' : CodeUnit) ∧ body.getLast? ≠ some ('-' : CodeUnit)

end Passage

variable {passages : List Passage}

/-- The texts of passages, where plain text next to plain text is one with it, and with what is pending. -/
def texts (pending : Text) : List Passage → List Text
  | [] => [pending]
  | .plain t :: passages => texts (pending ++ t) passages
  | .raw _ _ text _ _ :: passages => pending :: text :: texts [] passages
  | .comment _ :: passages => pending :: texts [] passages

/-- Passages as stretches with a last text. -/
def stretches (pending : Text) : List Passage → List Stretch × Text
  | [] => ([], pending)
  | .plain t :: passages => stretches (pending ++ t) passages
  | .raw first second text first' second' :: passages =>
    let (more, last) := stretches [] passages
    (⟨pending, .raw first second false text false first' second', false, false⟩ :: more, last)
  | .comment body :: passages =>
    let (more, last) := stretches [] passages
    (⟨pending, .comment body, false, false⟩ :: more, last)

theorem source_stretches (pending : Text) (passages : List Passage) :
    source (stretches pending passages).1 (stretches pending passages).2 =
      pending ++ passages.flatMap Passage.write := by
  induction passages generalizing pending with
  | nil => exact (List.append_nil pending).symm
  | cons p passages ih =>
    have hcons : ∀ s : Stretch, source (s :: (stretches [] passages).1) (stretches [] passages).2 =
        s.write ++ passages.flatMap Passage.write := by
      intro s
      rw [source, List.flatMap_cons, List.append_assoc]
      exact congrArg (s.write ++ ·) (ih [])
    cases p with
    | plain t =>
      rw [List.flatMap_cons, ← List.append_assoc]
      exact ih (pending ++ t)
    | _ =>
      rw [List.flatMap_cons, ← List.append_assoc]
      exact hcons _

theorem sound_stretches (hpending : Plain pending) (hpassages : ∀ p ∈ passages, p.Sound) :
    (∀ s ∈ (stretches pending passages).1, s.Sound) ∧ Unopened (stretches pending passages).2 := by
  induction passages generalizing pending with
  | nil => exact ⟨List.forall_mem_nil _, hpending.unopened⟩
  | cons p passages ih =>
    obtain ⟨hp, hrest⟩ := List.forall_mem_cons.mp hpassages
    cases p with
    | plain t => exact ih (hpending.append hp) hrest
    | raw first second text first' second' =>
      obtain ⟨hmore, hlast⟩ := ih plain_nil hrest
      exact ⟨List.forall_mem_cons.mpr ⟨⟨hpending, hp⟩, hmore⟩, hlast⟩
    | comment body =>
      obtain ⟨hmore, hlast⟩ := ih plain_nil hrest
      obtain ⟨hend, hfirst, hlast'⟩ := hp
      exact ⟨List.forall_mem_cons.mpr ⟨⟨hpending, hend, hfirst, hlast', fun _ hr => hr⟩, hmore⟩, hlast⟩

/-- Texts as they are rendered; those without a unit give no token. -/
def values (ts : List Text) : List Text := (ts.map normalizeBreaks).filter fun t => !t.isEmpty

theorem values_append (ts ts' : List Text) : values (ts ++ ts') = values ts ++ values ts' := by
  rw [values, List.map_append, List.filter_append]
  rfl

theorem kinds_dataReadings (line : Nat) (t : Text) :
    (dataReadings line t false false).map Prod.fst = (values [t]).map .data := by
  change (if (normalizeBreaks t).isEmpty then [] else [(TokenKind.data (normalizeBreaks t), line)]).map Prod.fst = _
  cases hempty : (normalizeBreaks t).isEmpty <;> simp [values, hempty]

/-- The tokens of passages are their texts. -/
theorem kinds_sourceReadings (line : Nat) (pending : Text) (passages : List Passage) :
    (sourceReadings line false (stretches pending passages).1 (stretches pending passages).2).map Prod.fst =
      (values (texts pending passages)).map .data ++ [.eof] := by
  induction passages generalizing line pending with
  | nil =>
    change (dataReadings line pending false false ++ [_]).map Prod.fst = _
    rw [List.map_append, kinds_dataReadings]
    rfl
  | cons p passages ih =>
    cases p with
    | plain t => exact ih line (pending ++ t)
    | raw first second text first' second' =>
      have htexts : texts pending (.raw first second text first' second' :: passages) =
          [pending] ++ [text] ++ texts [] passages := rfl
      change (dataReadings line pending false false ++ dataReadings _ text false false ++
        sourceReadings _ false (stretches [] passages).1 (stretches [] passages).2).map Prod.fst = _
      rw [htexts]
      simp only [values_append, List.map_append, kinds_dataReadings, ih, List.append_assoc]
    | comment body =>
      have htexts : texts pending (.comment body :: passages) = [pending] ++ texts [] passages := rfl
      have hstrips : (Tag.comment body).strips false false = false := Bool.and_false _
      change (dataReadings line pending false false ++ [] ++ sourceReadings _ ((Tag.comment body).strips false false)
        (stretches [] passages).1 (stretches [] passages).2).map Prod.fst = _
      rw [htexts, hstrips, List.append_nil]
      simp only [values_append, List.map_append, kinds_dataReadings, ih, List.append_assoc]

/-- Passages are split into their texts. -/
theorem tokenize_passages (h : ∀ p ∈ passages, p.Sound) : ∃ tokens,
    tokenize (passages.flatMap Passage.write) true = .ok tokens ∧
      tokens.map (·.kind) = (values (texts [] passages)).map .data ++ [.eof] := by
  obtain ⟨hstretches, hlast⟩ := sound_stretches plain_nil h
  have hstart : (Cursor.start (trimmed (passages.flatMap Passage.write) true)).At 1
      (source (stretches [] passages).1 (stretches [] passages).2) := ⟨(source_stretches [] passages).symm, rfl⟩
  obtain ⟨readings, c, strip, hsteps, hend, hreadings⟩ := steps_source hstretches hlast hstart
  have htokens := tokenize_of_steps hsteps hend
  rw [hreadings] at htokens
  cases hok : tokenize (passages.flatMap Passage.write) true with
  | error e =>
    rw [hok] at htokens
    cases htokens
  | ok tokens =>
    rw [hok] at htokens
    refine ⟨tokens, rfl, ?_⟩
    rw [← kinds_sourceReadings 1, ← Except.ok.inj htokens, List.map_map]
    rfl

end Lexer

namespace Parser

variable {dialect : Dialect} {total : Nat}

/-- Statements that are texts. -/
def Texts (values : List Text) (body : List Stmt) : Prop :=
  List.Forall₂ (fun value stmt => ∃ line, stmt = .text line value) values body

/-- Each text is a statement. -/
theorem takes_texts (values : List Text) {body : List Text → Parser (List Stmt)} :
    Takes total (statements dialect body []) (values.map .data) [.eof] (Texts values) := by
  have hpieces : ∀ done values : List Text,
      Arrives.piecesFrom (fun _ value => [.data value]) done values = values.map .data := by
    intro done values
    induction values generalizing done with
    | nil => rfl
    | cons value values ih => exact congrArg (.data value :: ·) (ih _)
  have hstart : Arrives total (statements dialect body []) _ []
      (Arrives.piecesFrom (fun _ value => [.data value]) [] values ++ [.eof])
      (fun done : List Stmt => Texts [] done.reverse) := .loop .nil
  have hrounds := hstart.each (I := fun before (done : List Stmt) => Texts before done.reverse) [] (by simp) ?_
  · rw [hpieces] at hrounds
    refine hrounds.done fun _ done hdone => .current fun k hk => ?_
    replace hk : k.kind = .eof := hk
    rw [hk]
    exact .pure hdone
  · intro before value after _ _ done hdone
    refine .current fun k hk => ?_
    replace hk : k.kind = .data value := hk
    rw [hk]
    exact .next nofun fun _ _ => .pure (forall₂_concat hdone ⟨k.line, rfl⟩)

end Parser

/-- A body of texts gives the texts one after the other, and changes nothing. -/
theorem Eval.render_texts {values : List Text} {body : List Stmt} (h : Parser.Texts values body) (features : Features)
    (depth : Nat) (scope : ScopeId) (s : Store) :
    Eval.render features (depth + 2) scope body s = .ok values.flatten s := by
  have hall : body.mapM (Eval.execute features (depth + 1) scope) s = .ok values s := by
    induction h with
    | nil => rfl
    | @cons value stmt values body hstmt _ ih =>
      obtain ⟨line, rfl⟩ := hstmt
      have htext : Eval.execute features (depth + 1) scope (.text line value) s = .ok value s := by
        rw [Eval.execute]
        rfl
      rw [List.mapM_cons, bind_ok htext, bind_ok ih]
      rfl
  rw [Eval.render, bind_ok hall]
  rfl

/-- Text survives: passages are rendered to their texts, in which only the line breaks are changed. -/
theorem render_passages {env : Environment} (hkeep : env.keepFinalBreak = true) {passages : List Lexer.Passage}
    (hpassages : ∀ p ∈ passages, p.Sound) (context : Value) (s : Store) : ∃ body,
    env.parse (passages.flatMap Lexer.Passage.write) = .ok body ∧
      outcome (Eval.renderTemplate env body context) s =
        .ok ((Lexer.texts [] passages).map Lexer.normalizeBreaks).flatten := by
  obtain ⟨tokens, htokens, hkinds⟩ := Lexer.tokenize_passages hpassages
  obtain ⟨body, hparse, htexts⟩ := Parser.parse_of_takes hkinds (Parser.takes_texts _)
  refine ⟨body, ?_, ?_⟩
  · unfold Environment.parse
    rw [hkeep, htokens]
    exact hparse
  · have hflatten : (Lexer.values (Lexer.texts [] passages)).flatten =
        ((Lexer.texts [] passages).map Lexer.normalizeBreaks).flatten := List.flatten_filter_not_isEmpty
    have hrender : ∀ scope t, Eval.render env.features depthLimit scope body t =
        .ok ((Lexer.texts [] passages).map Lexer.normalizeBreaks).flatten t := by
      intro scope t
      rw [← hflatten]
      exact Eval.render_texts htexts env.features 9998 scope t
    have hrun : ∀ vars, ∃ scope t, Eval.run env body vars s =
        .ok (((Lexer.texts [] passages).map Lexer.normalizeBreaks).flatten, scope) t := fun vars =>
      ⟨_, _, (bind_ok rfl).trans ((bind_ok rfl).trans (bind_ok (hrender _ _)))⟩
    obtain ⟨scope, t, hrun⟩ := hrun (s.contextVars context)
    exact outcome_eq_ok ((bind_ok rfl).trans (bind_ok hrun))

/-- Text with a brace in it, a raw block with marks in it, and a comment with a mark in it, between texts whose line
breaks are of all three kinds. -/
theorem render_passages_of_marks :
    let passages : List Lexer.Passage := [.plain "a \x7b b\r", .plain "\nc",
      .raw " " " " "\r\n\x7b\x7b x \x7d\x7d" "" "", .comment " \x7b\x7b ", .plain "d\r"]
    let env := (Environment.create true true false .empty).1
    (∀ p ∈ passages, p.Sound) ∧ ∃ body, env.parse (passages.flatMap Lexer.Passage.write) = .ok body ∧
      outcome (Eval.renderTemplate env body (.number 1)) .empty = .ok "a \x7b b\nc\n\x7b\x7b x \x7d\x7dd\n" := by
  intro passages env
  have hblank : Blanks " " := List.forall_mem_singleton.mpr rfl
  have hnone : Blanks [] := List.forall_mem_nil _
  have hfirst : Lexer.Plain "a \x7b b\r" := by decide
  have hsecond : Lexer.Plain "\nc" := by decide
  have hlast : Lexer.Plain "d\r" := by decide
  have hraw : (Lexer.Passage.raw " " " " "\r\n\x7b\x7b x \x7d\x7d" "" "").Sound :=
    ⟨Lexer.endless_of_notMem (by decide), hblank, hblank, hnone, hnone⟩
  have hcomment : (Lexer.Passage.comment " \x7b\x7b ").Sound := ⟨by decide, by decide, by decide⟩
  have hall : ∀ p ∈ passages, p.Sound := by
    simp only [passages, List.forall_mem_cons]
    exact ⟨hfirst, hsecond, hraw, hcomment, hlast, nofun⟩
  have hkeep : env.keepFinalBreak = true := rfl
  obtain ⟨body, hparse, hrender⟩ := render_passages hkeep hall (.number 1) .empty
  exact ⟨hall, body, hparse, hrender.trans (by decide +kernel)⟩

/-- A line break that begins in one text and ends in the next is one line break. -/
theorem render_passages_of_split :
    let passages : List Lexer.Passage := [.plain "a\r", .plain "\nb"]
    let env := (Environment.create true true false .empty).1
    (∀ p ∈ passages, p.Sound) ∧ ∃ body, env.parse (passages.flatMap Lexer.Passage.write) = .ok body ∧
      outcome (Eval.renderTemplate env body (.number 1)) .empty ≠
        .ok (Lexer.normalizeBreaks "a\r" ++ Lexer.normalizeBreaks "\nb") := by
  intro passages env
  have hall : ∀ p ∈ passages, p.Sound := by
    have hfirst : Lexer.Plain "a\r" := by decide
    have hsecond : Lexer.Plain "\nb" := by decide
    simp only [passages, List.forall_mem_cons]
    exact ⟨hfirst, hsecond, nofun⟩
  exact ⟨hall, [.text 1 "a\nb"], rfl, by decide +kernel⟩

end Stencil
