import Mathlib.Data.List.Basic
import Stencil.Template.Lexer

/-!
What a step of the lexer can come to, as a relation with a case for each outcome that says what is seen there. What
holds of each step is proved by cases on it, and a step is told from what is seen by one of the cases.
-/
namespace Stencil.Lexer

variable {c : Cursor} {kind : TagKind} {openLine : Nat} {brackets : List Operator} {strip : Bool}
  {r : Except Unreadable Step} {u : CodeUnit}

/-! ## Steps between tags -/

/-- The place behind an opening mark that stands `n` units ahead. -/
def behindMark (c : Cursor) (n : Nat) (dash : Bool) : Cursor := (c.advance n).skip (if dash then 3 else 2)

/-- What a step between tags comes to. -/
inductive BetweenStep (c : Cursor) (strip : Bool) : Except Unreadable Step → Prop where
  | last (hopener : openerAt? c.rest = none) :
    BetweenStep c strip (.ok ⟨dataTokens c c.rest.length strip false, c.advance c.rest.length, .between false⟩)
  | comment {n : Nat} {dash : Bool} (hopener : openerAt? c.rest = some (n, .comment, dash)) :
    BetweenStep c strip (comment (dataTokens c n strip dash) (behindMark c n dash) dash)
  | raw {n width : Nat} {dash stripBody : Bool} (hopener : openerAt? c.rest = some (n, .tag .statement, dash))
    (hword : wordThenClose? "raw" (behindMark c n dash).rest = some (width, stripBody)) :
    BetweenStep c strip (rawBlock (dataTokens c n strip dash) (behindMark c n dash) width stripBody)
  | tag {kind : TagKind} {n : Nat} {dash : Bool} (hopener : openerAt? c.rest = some (n, .tag kind, dash))
    (hword : kind = .statement → wordThenClose? "raw" (behindMark c n dash).rest = none) :
    BetweenStep c strip (.ok ⟨dataTokens c n strip dash ++
      [⟨.tagBegin kind, (c.advance n).line, (c.advance n).offset⟩], behindMark c n dash,
      .inside kind (c.advance n).line []⟩)

theorem betweenStep (c : Cursor) (strip : Bool) : BetweenStep c strip (stepBetween c strip) := by
  unfold stepBetween
  cases hopener : openerAt? c.rest with
  | none => exact .last hopener
  | some found =>
    obtain ⟨n, opener, dash⟩ := found
    cases opener with
    | comment => exact .comment hopener
    | tag kind =>
      cases kind with
      | output => exact .tag hopener nofun
      | statement =>
        dsimp only
        rw [if_pos rfl]
        cases hword : wordThenClose? "raw" ((c.advance n).skip (if dash then 3 else 2)).rest with
        | none => exact .tag hopener fun _ => hword
        | some found => exact .raw hopener hword

theorem stepBetween_eq_iff : stepBetween c strip = r ↔ BetweenStep c strip r := by
  refine ⟨fun h => h ▸ betweenStep c strip, fun h => ?_⟩
  unfold stepBetween
  cases h with
  | last hopener => rw [hopener]
  | comment hopener =>
    rw [hopener]
    rfl
  | raw hopener hword =>
    unfold behindMark at hword
    rw [hopener]
    dsimp only
    rw [if_pos rfl, hword]
    rfl
  | @tag kind n dash hopener hword =>
    unfold behindMark at hword
    have hnone : (if kind = .statement then
        wordThenClose? "raw" ((c.advance n).skip (if dash then 3 else 2)).rest else none) = none := by
      split
      · rename_i hkind
        exact hword hkind
      · rfl
    rw [hopener]
    dsimp only
    rw [hnone]
    rfl

/-! ## Steps inside a tag -/

/-- No end of the tag is seen ahead: a bracket is open, or the closing mark does not stand there, nor behind a dash. -/
def Open (kind : TagKind) (brackets : List Operator) (t : Text) : Prop :=
  (brackets.isEmpty && (('-' : CodeUnit) :: Text.ofString kind.closeMark).isPrefixOf t) = false ∧
    (brackets.isEmpty && (Text.ofString kind.closeMark).isPrefixOf t) = false

theorem not_open_of_mark {t : Text} (hempty : brackets = [])
    (hmark : ('-' : CodeUnit) :: Text.ofString kind.closeMark <+: t ∨ Text.ofString kind.closeMark <+: t) :
    ¬ Open kind brackets t := by
  rintro ⟨hdash, hclose⟩
  rw [hempty, List.isEmpty_nil, Bool.true_and, Bool.eq_false_iff] at hdash hclose
  rcases hmark with hmark | hmark
  · exact hdash (List.isPrefixOf_iff_prefix.mpr hmark)
  · exact hclose (List.isPrefixOf_iff_prefix.mpr hmark)

/-- No string, number or word starts with the unit. -/
structure Symbolic (u : CodeUnit) : Prop where
  quote : (u = '\'' || u = '"') = false
  digit : u.isDigit = false
  nameStart : u.isNameStart = false

/-- What a step inside a tag comes to at a place with no blanks ahead. -/
inductive InsideStep (c : Cursor) (kind : TagKind) (openLine : Nat) (brackets : List Operator) :
    Except Unreadable Step → Prop where
  | unclosedTag (hrest : c.rest = []) : InsideStep c kind openLine brackets (fail (.unclosedTag kind) openLine)
  | dashedEnd (hempty : brackets = []) (hmark : ('-' : CodeUnit) :: Text.ofString kind.closeMark <+: c.rest) :
    InsideStep c kind openLine brackets (.ok ⟨[⟨.tagEnd kind, c.line, c.offset⟩], c.skip 3, .between true⟩)
  | bareEnd (hempty : brackets = []) (hmark : Text.ofString kind.closeMark <+: c.rest) :
    InsideStep c kind openLine brackets (.ok ⟨[⟨.tagEnd kind, c.line, c.offset⟩], c.skip 2, .between false⟩)
  | unclosedString {u : CodeUnit} {rest : Text} (hrest : c.rest = u :: rest) (hopen : Open kind brackets c.rest)
    (hquote : u = '\'' || u = '"') (hbody : stringBody? u rest = none) :
    InsideStep c kind openLine brackets (fail .unclosedString c.line)
  | string {u : CodeUnit} {rest value : Text} {n : Nat} (hrest : c.rest = u :: rest)
    (hopen : Open kind brackets c.rest) (hquote : u = '\'' || u = '"') (hbody : stringBody? u rest = some (value, n)) :
    InsideStep c kind openLine brackets
      (.ok ⟨[⟨.string value, c.line, c.offset⟩], (c.advance n).skip 1, .inside kind openLine brackets⟩)
  | number {u : CodeUnit} {rest : Text} {n : Nat} {float : Bool} (hrest : c.rest = u :: rest)
    (hopen : Open kind brackets c.rest) (hdigit : u.isDigit) (hnumber : numberLength c.rest = (n, float)) :
    InsideStep c kind openLine brackets
      (.ok ⟨[⟨if float then .float (c.rest.take n) else .integer (c.rest.take n), c.line, c.offset⟩], c.skip n,
        .inside kind openLine brackets⟩)
  | name {u : CodeUnit} {rest word : Text} (hrest : c.rest = u :: rest) (hopen : Open kind brackets c.rest)
    (hstart : u.isNameStart) (hword : c.rest.takeWhile CodeUnit.isNamePart = word) :
    InsideStep c kind openLine brackets
      (.ok ⟨[⟨.name word, c.line, c.offset⟩], c.skip word.length, .inside kind openLine brackets⟩)
  | strayUnit {u : CodeUnit} {rest : Text} (hrest : c.rest = u :: rest) (hopen : Open kind brackets c.rest)
    (hu : Symbolic u) (hop : Operator.ofStart? c.rest = none) :
    InsideStep c kind openLine brackets (fail (.strayUnit u) c.line)
  | strayBracket {u : CodeUnit} {rest : Text} {op : Operator} (hrest : c.rest = u :: rest)
    (hopen : Open kind brackets c.rest) (hu : Symbolic u) (hop : Operator.ofStart? c.rest = some op)
    (htrack : track brackets op = none) :
    InsideStep c kind openLine brackets (fail (.strayBracket op) c.line)
  | operator {u : CodeUnit} {rest : Text} {op : Operator} {opened : List Operator} (hrest : c.rest = u :: rest)
    (hopen : Open kind brackets c.rest) (hu : Symbolic u) (hop : Operator.ofStart? c.rest = some op)
    (htrack : track brackets op = some opened) :
    InsideStep c kind openLine brackets
      (.ok ⟨[⟨.operator op, c.line, c.offset⟩], c.skip op.symbol.length, .inside kind openLine opened⟩)

theorem insideStep (c : Cursor) (kind : TagKind) (openLine : Nat) (brackets : List Operator) :
    InsideStep c.skipBlanks kind openLine brackets (stepInside c kind openLine brackets) := by
  have hend : ∀ {mark : Text}, (brackets.isEmpty && mark.isPrefixOf c.skipBlanks.rest) = true →
      brackets = [] ∧ mark <+: c.skipBlanks.rest := by
    intro mark h
    rwa [Bool.and_eq_true, List.isEmpty_iff, List.isPrefixOf_iff_prefix] at h
  unfold stepInside
  dsimp only
  split
  · rename_i hrest
    exact .unclosedTag hrest
  rename_i u rest hrest
  split
  · rename_i hdash
    exact .dashedEnd (hend hdash).1 (hend hdash).2
  rename_i hdash
  split
  · rename_i hclose
    exact .bareEnd (hend hclose).1 (hend hclose).2
  rename_i hclose
  have hopen : Open kind brackets c.skipBlanks.rest := ⟨Bool.eq_false_iff.mpr hdash, Bool.eq_false_iff.mpr hclose⟩
  split
  · rename_i hquote
    split
    · rename_i hbody
      exact .unclosedString hrest hopen hquote hbody
    · rename_i hbody
      exact .string hrest hopen hquote hbody
  rename_i hquote
  split
  · rename_i hdigit
    exact .number hrest hopen hdigit rfl
  rename_i hdigit
  split
  · rename_i hstart
    exact .name hrest hopen hstart rfl
  rename_i hstart
  have hu : Symbolic u :=
    ⟨Bool.eq_false_iff.mpr hquote, Bool.eq_false_iff.mpr hdigit, Bool.eq_false_iff.mpr hstart⟩
  split
  · rename_i hop
    exact .strayUnit hrest hopen hu hop
  · rename_i op hop
    split
    · rename_i htrack
      exact .strayBracket hrest hopen hu hop htrack
    · rename_i htrack
      exact .operator hrest hopen hu hop htrack

/-- No digit, and no unit that starts a name, is a quote. -/
theorem isQuote_eq_false (h : (u.isDigit || u.isNameStart) = true) : (u = '\'' || u = '"') = false := by
  rw [Bool.or_eq_false_iff, decide_eq_false_iff_not, decide_eq_false_iff_not]
  constructor <;> rintro rfl <;> exact absurd h (by decide)

theorem isDigit_of_isNameStart (h : u.isNameStart = true) : ¬ u.isDigit = true := by
  simp only [CodeUnit.isNameStart, CodeUnit.isLetter, CodeUnit.isDigit, Bool.or_eq_true, Bool.and_eq_true,
    decide_eq_true_eq, UInt16.le_iff_toNat_le, ← UInt16.toNat_inj, CodeUnit.ofChar] at h ⊢
  simp at h ⊢
  omega

theorem stepInside_eq_iff : stepInside c kind openLine brackets = r ↔
    InsideStep c.skipBlanks kind openLine brackets r := by
  refine ⟨fun h => h ▸ insideStep c kind openLine brackets, fun h => ?_⟩
  unfold stepInside
  dsimp only
  generalize c.skipBlanks = c at h ⊢
  cases h with
  | unclosedTag hrest => rw [hrest]
  | dashedEnd hempty hmark | bareEnd hempty hmark =>
    obtain ⟨more, hmore⟩ := hmark
    rw [hempty, ← hmore]
    cases kind <;> rfl
  | unclosedString hrest hopen hquote hbody | string hrest hopen hquote hbody =>
    rw [hrest] at hopen ⊢
    simp only [hopen.1, hopen.2, hquote, hbody, Bool.false_eq_true, if_false, if_true]
  | number hrest hopen hdigit hnumber =>
    have hquote := isQuote_eq_false (Bool.or_eq_true_iff.mpr (.inl hdigit))
    rw [hrest] at hopen hnumber ⊢
    simp only [hopen.1, hopen.2, hquote, hdigit, hnumber, Bool.false_eq_true, if_false, if_true]
  | name hrest hopen hstart hword =>
    have hdigit := isDigit_of_isNameStart hstart
    have hquote := isQuote_eq_false (Bool.or_eq_true_iff.mpr (.inr hstart))
    rw [hrest] at hopen hword ⊢
    simp only [hopen.1, hopen.2, hquote, hdigit, hstart, hword, Bool.false_eq_true, if_false, if_true]
  | strayUnit hrest hopen hu hop =>
    rw [hrest] at hopen hop ⊢
    simp only [hopen.1, hopen.2, hu.quote, hu.digit, hu.nameStart, hop, Bool.false_eq_true, if_false]
  | strayBracket hrest hopen hu hop htrack | operator hrest hopen hu hop htrack =>
    rw [hrest] at hopen hop ⊢
    simp only [hopen.1, hopen.2, hu.quote, hu.digit, hu.nameStart, hop, htrack, Bool.false_eq_true, if_false]

/-! ## Runs -/

variable {mode : Mode} {s : Step} {tokens : List Token} {fuel : Nat}

/-- Units are left to be read, or a tag is open. -/
def GoesOn (c : Cursor) (mode : Mode) : Prop :=
  c.rest ≠ [] ∨ ∃ kind openLine brackets, mode = .inside kind openLine brackets

theorem over_or_goesOn (c : Cursor) (mode : Mode) : (c.rest = [] ∧ ∃ strip, mode = .between strip) ∨ GoesOn c mode := by
  cases mode with
  | between strip =>
    by_cases hrest : c.rest = []
    · exact .inl ⟨hrest, strip, rfl⟩
    · exact .inr (.inl hrest)
  | inside kind openLine brackets => exact .inr (.inr ⟨kind, openLine, brackets, rfl⟩)

theorem GoesOn.not_over (h : GoesOn c mode) (hrest : c.rest = []) (hmode : mode = .between strip) : False := by
  rcases h with hc | ⟨kind, openLine, brackets, rfl⟩
  · exact hc hrest
  · cases hmode

theorem run_over (hrest : c.rest = []) (strip : Bool) (fuel : Nat) :
    run (fuel + 1) c (.between strip) = .ok [⟨.eof, c.line, c.offset⟩] := by
  unfold run
  rw [hrest]

theorem run_goesOn (h : GoesOn c mode) (fuel : Nat) :
    run (fuel + 1) c mode = (do let s ← step c mode; return s.tokens ++ (← run fuel s.cursor s.mode)) := by
  rw [run]
  exact fun _ => h.not_over

theorem run_of_error (h : GoesOn c mode) {e : Unreadable} (hs : step c mode = .error e) (fuel : Nat) :
    run (fuel + 1) c mode = .error e := by
  rw [run_goesOn h, hs]
  rfl

theorem run_of_ok (h : GoesOn c mode) (hs : step c mode = .ok s) (fuel : Nat) :
    run (fuel + 1) c mode = (s.tokens ++ ·) <$> run fuel s.cursor s.mode := by
  rw [run_goesOn h, hs]
  change (do return s.tokens ++ (← run fuel s.cursor s.mode)) = _
  cases run fuel s.cursor s.mode <;> rfl

theorem bind_eq_ok {ε α β : Type} {x : Except ε α} {f : α → Except ε β} {b : β} (h : x >>= f = .ok b) :
    ∃ a, x = .ok a ∧ f a = .ok b := by
  cases x with
  | error e => cases h
  | ok a => exact ⟨a, rfl, h⟩

/-- A run that goes on and gives tokens makes a step, and gives those of the step first. -/
theorem exists_step_of_run (h : GoesOn c mode) (hrun : run (fuel + 1) c mode = .ok tokens) :
    ∃ s more, step c mode = .ok s ∧ run fuel s.cursor s.mode = .ok more ∧ s.tokens ++ more = tokens := by
  rw [run_goesOn h] at hrun
  obtain ⟨s, hs, hrun⟩ := bind_eq_ok hrun
  obtain ⟨more, hmore, heq⟩ := bind_eq_ok hrun
  exact ⟨s, more, hs, hmore, Except.ok.inj heq⟩

end Stencil.Lexer
