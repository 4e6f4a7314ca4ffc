import Stencil.Proofs.Template.TokenPlaces

/-! The tokens of a source come framed: text between tags and closed tags, brackets closed inside each tag, and
the end of the template once, at the end. The bracket stack of the lexer is what is still to be closed. -/
namespace Stencil.Lexer
variable {kind : TagKind} {op : Operator} {brackets opened : List Operator} {inner ks : List TokenKind}

/-- A word, a literal, or an operator that is no bracket. -/
def IsPlain : TokenKind → Prop
  | .name _ | .string _ | .integer _ | .float _ => True
  | .operator op => op.isOpening = false ∧ op.opening? = none
  | _ => False

/-- The inside of a tag: brackets are closed in it by brackets of their kind, the innermost first. -/
inductive Balanced : List TokenKind → Prop where
  | nil : Balanced []
  | plain {k : TokenKind} {rest : List TokenKind} (hk : IsPlain k) (hrest : Balanced rest) : Balanced (k :: rest)
  | bracketed {opening closing : Operator} {inner rest : List TokenKind} (hopening : opening.isOpening)
    (hclosing : closing.opening? = some opening) (hinner : Balanced inner) (hrest : Balanced rest) :
    Balanced (.operator opening :: inner ++ .operator closing :: rest)

/-- Text that is not empty, tags with their insides, and one end of the template behind them all. -/
inductive Framed : List TokenKind → Prop where
  | eof : Framed [.eof]
  | data {text : Text} {rest : List TokenKind} (htext : text ≠ []) (hrest : Framed rest) :
    Framed (.data text :: rest)
  | tag (kind : TagKind) {inner rest : List TokenKind} (hinner : Balanced inner) (hrest : Framed rest) :
    Framed (.tagBegin kind :: inner ++ .tagEnd kind :: rest)

/-- What stands between here and the end of a tag closes the brackets that are open, innermost first. -/
inductive Closes : List Operator → List TokenKind → Prop where
  | balanced {inner : List TokenKind} (h : Balanced inner) : Closes [] inner
  | bracket {opening closing : Operator} {outer : List Operator} {inner rest : List TokenKind}
    (hopening : opening.isOpening) (hclosing : closing.opening? = some opening) (hinner : Balanced inner)
    (hrest : Closes outer rest) : Closes (opening :: outer) (inner ++ .operator closing :: rest)

theorem closes_plain {k : TokenKind} (hk : IsPlain k) (h : Closes brackets inner) : Closes brackets (k :: inner) := by
  cases h with
  | balanced h => exact .balanced (.plain hk h)
  | bracket hopening hclosing hinner hrest => exact .bracket hopening hclosing (.plain hk hinner) hrest

/-- An opening bracket and its partner in front of what closes the rest. -/
theorem closes_bracketed {opening closing : Operator} {rest : List TokenKind} (hopening : opening.isOpening)
    (hclosing : closing.opening? = some opening) (hinner : Balanced inner) (h : Closes brackets rest) :
    Closes brackets (.operator opening :: inner ++ .operator closing :: rest) := by
  cases h with
  | balanced h => exact .balanced (.bracketed hopening hclosing hinner h)
  | bracket hopening' hclosing' hinner' hrest =>
    have hfront := Balanced.bracketed hopening hclosing hinner hinner'
    simpa using Closes.bracket hopening' hclosing' hfront hrest

theorem isOpening_of_opening? {opening closing : Operator} (h : closing.opening? = some opening) :
    opening.isOpening := by
  revert h
  cases closing <;> simp +contextual [Operator.opening?, Operator.isOpening, eq_comm]

/-- What closes the brackets after an operator closes those before it, with the operator in front. -/
theorem closes_of_track (ht : track brackets op = some opened) (h : Closes opened inner) :
    Closes brackets (.operator op :: inner) := by
  unfold track at ht
  split at ht
  · rename_i hopening
    cases ht
    cases h with
    | bracket _ hclosing hinner hrest => exact closes_bracketed hopening hclosing hinner hrest
  · rename_i hnot
    have hno : op.isOpening = false := by simpa using hnot
    split at ht
    · rename_i hop
      cases ht
      exact closes_plain ⟨hno, hop⟩ h
    · rename_i opening hclosing
      split at ht
      · rename_i innermost outer
        split at ht
        · rename_i hinnermost
          cases ht
          subst hinnermost
          exact .bracket (isOpening_of_opening? hclosing) hclosing .nil h
        · cases ht
      · cases ht

/-- What the tokens ahead must be where the lexer stands. -/
def Completes : Mode → List TokenKind → Prop
  | .between _, ks => Framed ks
  | .inside kind _ brackets, ks => ∃ inner rest, ks = inner ++ .tagEnd kind :: rest ∧ Closes brackets inner ∧ Framed rest

theorem completes_cons {openLine : Nat} {k : TokenKind} (hk : ∀ inner, Closes opened inner → Closes brackets (k :: inner))
    (h : Completes (.inside kind openLine opened) ks) : Completes (.inside kind openLine brackets) (k :: ks) := by
  obtain ⟨inner, rest, rfl, hcloses, hrest⟩ := h
  exact ⟨k :: inner, rest, rfl, hk inner hcloses, hrest⟩

theorem framed_dataTokens (c : Cursor) (n : Nat) (stripStart stripEnd : Bool) (h : Framed ks) :
    Framed ((dataTokens c n stripStart stripEnd).map (·.kind) ++ ks) := by
  unfold dataTokens
  dsimp only
  split
  · exact h
  · rename_i hvalue
    rw [List.isEmpty_iff] at hvalue
    exact .data hvalue h

/-- The tokens of a step, in front of what completes the mode after it, complete the mode before it. -/
def Extends (mode : Mode) (r : Except Unreadable Step) : Prop :=
  ∀ s, r = .ok s → ∀ ks, Completes s.mode ks → Completes mode (s.tokens.map (·.kind) ++ ks)

theorem extends_fail {mode : Mode} (cause : SyntaxCause) (line : Nat) : Extends mode (fail cause line) := nofun

theorem extends_comment {before : List Token} (hbefore : ∀ {ks}, Framed ks → Framed (before.map (·.kind) ++ ks))
    (c : Cursor) (strip dash : Bool) : Extends (.between strip) (comment before c dash) := by
  unfold comment
  split
  · exact extends_fail _ _
  · rintro s ⟨⟩ ks h
    exact hbefore h

theorem extends_rawBlock {before : List Token} (hbefore : ∀ {ks}, Framed ks → Framed (before.map (·.kind) ++ ks))
    (c : Cursor) (strip : Bool) (width : Nat) (stripBody : Bool) :
    Extends (.between strip) (rawBlock before c width stripBody) := by
  unfold rawBlock
  dsimp only
  split
  · exact extends_fail _ _
  · rintro s ⟨⟩ ks h
    change Framed _
    rw [List.map_append, List.append_assoc]
    exact hbefore (framed_dataTokens _ _ _ _ h)

theorem extends_betweenStep {c : Cursor} {strip : Bool} {r : Except Unreadable Step} (hstep : BetweenStep c strip r) :
    Extends (.between strip) r := by
  cases hstep with
  | last hopener =>
    rintro s ⟨⟩ ks h
    exact framed_dataTokens c _ strip false h
  | @comment n dash hopener => exact extends_comment (framed_dataTokens c n strip dash) _ strip dash
  | @raw n width dash stripBody hopener hword =>
    exact extends_rawBlock (framed_dataTokens c n strip dash) _ strip width stripBody
  | @tag kind n dash hopener hword =>
    rintro s ⟨⟩ ks ⟨inner, rest, rfl, hcloses, hrest⟩
    cases hcloses with
    | balanced hinner =>
      change Framed _
      rw [List.map_append, List.append_assoc]
      exact framed_dataTokens c n strip dash (.tag kind hinner hrest)

theorem extends_insideStep {c : Cursor} {openLine : Nat} {r : Except Unreadable Step}
    (hstep : InsideStep c kind openLine brackets r) : Extends (.inside kind openLine brackets) r := by
  have close : ∀ {strip : Bool} {ks : List TokenKind}, brackets = [] → Completes (.between strip) ks →
      Completes (.inside kind openLine brackets) (.tagEnd kind :: ks) := by
    rintro strip ks rfl hks
    exact ⟨[], ks, rfl, .balanced .nil, hks⟩
  have plain : ∀ {k : TokenKind} {ks : List TokenKind}, IsPlain k → Completes (.inside kind openLine brackets) ks →
      Completes (.inside kind openLine brackets) (k :: ks) := by
    intro k ks hk
    exact completes_cons fun _ hcloses => closes_plain hk hcloses
  cases hstep with
  | unclosedTag | unclosedString | strayUnit | strayBracket => exact extends_fail _ _
  | dashedEnd hempty | bareEnd hempty =>
    rintro s ⟨⟩ ks h
    exact close hempty h
  | string | name =>
    rintro s ⟨⟩ ks h
    exact plain trivial h
  | @number _ _ _ float =>
    rintro s ⟨⟩ ks h
    refine plain ?_ h
    cases float <;> trivial
  | operator hrest hopen hu hop htrack =>
    rintro s ⟨⟩ ks h
    exact completes_cons (fun _ hcloses => closes_of_track htrack hcloses) h

theorem extends_step (c : Cursor) (mode : Mode) : Extends mode (step c mode) := by
  cases mode with
  | between strip => exact extends_betweenStep (betweenStep c strip)
  | inside kind openLine brackets => exact extends_insideStep (insideStep c kind openLine brackets)

theorem completes_run {fuel : Nat} {c : Cursor} {mode : Mode} {tokens : List Token}
    (h : run fuel c mode = .ok tokens) : Completes mode (tokens.map (·.kind)) := by
  induction fuel generalizing c mode tokens with
  | zero => cases h
  | succ fuel ih =>
    obtain ⟨hrest, strip, rfl⟩ | hmore := over_or_goesOn c mode
    · rw [run_over hrest] at h
      cases h
      exact .eof
    · obtain ⟨s, more, hs, hrun, rfl⟩ := exists_step_of_run hmore h
      rw [List.map_append]
      exact extends_step c mode s hs _ (ih hrun)

/-- Every tag is closed in its kind, brackets are balanced inside it, and all ends in one end of the template. -/
theorem tokenize_framed {source : Text} {keep : Bool} {tokens : List Token} (h : tokenize source keep = .ok tokens) :
    Framed (tokens.map (·.kind)) :=
  completes_run h

/-- Braces that end no tag, inside brackets and in a string, a comment between, and a raw block that holds marks. -/
def bracesEverywhere : Text :=
  "\x7b\x7b \x7b'\x7d\x7d': [1]\x7d \x7d\x7d\x7b# \x7b\x7b #\x7d\x7b% raw %\x7d\x7b\x7b\x7b% endraw %\x7d"

theorem tokenize_framed_of_braces : ∃ tokens, tokenize bracesEverywhere false = .ok tokens ∧
    tokens.map (·.kind) =
      [.tagBegin .output, .operator .leftBrace, .string "\x7d\x7d", .operator .colon, .operator .leftBracket,
        .integer "1", .operator .rightBracket, .operator .rightBrace, .tagEnd .output, .data "\x7b\x7b", .eof] ∧
    Framed (tokens.map (·.kind)) := by
  have hread : tokenize bracesEverywhere false = .ok
      [⟨.tagBegin .output, 1, 0⟩, ⟨.operator .leftBrace, 1, 3⟩, ⟨.string "\x7d\x7d", 1, 4⟩, ⟨.operator .colon, 1, 8⟩,
        ⟨.operator .leftBracket, 1, 10⟩, ⟨.integer "1", 1, 11⟩, ⟨.operator .rightBracket, 1, 12⟩,
        ⟨.operator .rightBrace, 1, 13⟩, ⟨.tagEnd .output, 1, 15⟩, ⟨.data "\x7b\x7b", 1, 34⟩, ⟨.eof, 1, 48⟩] := by rfl
  exact ⟨_, hread, rfl, tokenize_framed hread⟩

end Stencil.Lexer
