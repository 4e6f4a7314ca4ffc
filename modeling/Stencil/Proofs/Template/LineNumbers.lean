import Stencil.Proofs.Template.WellFormed

/-!
Line numbers are true. At every step of the lexer the line is the one the line feeds before it make, so a
token's line is that of its first unit; the lines of a tree and of a syntax error are lines of the source.
-/

namespace Stencil

/-- A line that a node of a body records, at any depth. -/
inductive Records (body : List Stmt) (l : Nat) : Prop where
  | stmt {s : Stmt} (hs : s.Inside body) (hl : l ∈ s.lines) : Records body l
  | expr {e : Expr} (he : e.Inside body) (hl : e.line = l) : Records body l

variable {G : Nat → Prop} {e : Expr} {s : Stmt} {body : List Stmt} {l : Nat}

/-- An expression and what it is made of stand on lines of `G`. -/
def Expr.On (G : Nat → Prop) (e : Expr) : Prop := ∀ x : Expr, x.Within e → G x.line

/-- A statement and what it is made of stand on lines of `G`. -/
def Stmt.On (G : Nat → Prop) (s : Stmt) : Prop := ∀ l, Records [s] l → G l

/-- What a body records, one of its statements records. -/
theorem Records.of_mem (h : Records body l) : ∃ s ∈ body, Records [s] l := by
  cases h with
  | stmt hs hl =>
    obtain ⟨t, ht, hin⟩ := hs.of_mem
    exact ⟨t, ht, .stmt hin hl⟩
  | expr he hl =>
    obtain ⟨x, hx, root, hroot, hw⟩ := he
    obtain ⟨t, ht, hin⟩ := hx.of_mem
    exact ⟨t, ht, .expr ⟨x, hin, root, hroot, hw⟩ hl⟩

theorem Stmt.on_eq_all : Stmt.On G = Stmt.All (fun e => G e.line) fun s => ∀ l ∈ s.lines, G l := by
  funext s
  refine propext ⟨fun h => ⟨fun t ht l hl => h l (.stmt ht hl), fun e he => h _ (.expr he rfl)⟩, ?_⟩
  rintro ⟨hstmts, hexprs⟩ l (⟨ht, hl⟩ | ⟨he, rfl⟩)
  · exact hstmts _ ht l hl
  · exact hexprs _ he

/-- Trees take their lines from tokens. -/
theorem Parser.construction_on (dialect : Dialect) (h : G 1) : Construction dialect G (Expr.On G) (Stmt.On G) := by
  rw [Stmt.on_eq_all]
  exact construction_all h (fun _ hl => hl) (fun _ hl _ => hl) fun _ hl _ => hl

theorem OnLine.of_trimmed {source : Text} {keep : Bool} {line : Nat} (h : OnLine (Lexer.trimmed source keep) line) :
    OnLine source line :=
  ⟨h.1, h.2.trans (Nat.add_le_add_left (Lexer.lineFeeds_trimmed_le source keep) 1)⟩

theorem Lexer.onLine_of_error {source : Text} {keep : Bool} {e : SyntaxError}
    (h : tokenize source keep = .error (.malformed e)) : OnLine source e.line := by
  have hfinishes := finishes_tokenize source keep
  rw [h] at hfinishes
  exact hfinishes.of_trimmed

/-- Wherever the lexer stands, it stands on the line that the line feeds before it make, and so does every
token, in the order of the source. Lines in errors and in the tree are lines of the source. -/
theorem lines_true (dialect : Dialect) (source : Text) (keep : Bool) :
    (∀ c mode, Lexer.Reaches (Lexer.trimmed source keep) c mode →
      c.rest = (Lexer.trimmed source keep).drop c.offset ∧
      c.line = 1 + Text.lineFeeds ((Lexer.trimmed source keep).take c.offset)) ∧
    (∀ e, Lexer.tokenize source keep = .error (.malformed e) → OnLine source e.line) ∧
    ∀ tokens, Lexer.tokenize source keep = .ok tokens →
      (∀ k ∈ tokens, k.Placed (Lexer.trimmed source keep)) ∧
      tokens.Pairwise (fun k l => k.offset < l.offset) ∧ tokens.Pairwise (fun k l => k.line ≤ l.line) ∧
      (∀ e, Parser.parse dialect tokens = .error (.malformed e) → OnLine source e.line) ∧
      ∀ body, Parser.parse dialect tokens = .ok body → ∀ l, Records body l → OnLine source l := by
  refine ⟨?_, fun e => Lexer.onLine_of_error, ?_⟩
  · intro c mode h
    have hin := (Lexer.in_of_reaches h).1
    exact ⟨hin.rest, hin.line⟩
  · intro tokens htokens
    have hfinishes := Lexer.finishes_tokenize source keep
    rw [htokens] at hfinishes
    obtain ⟨hplaced, past, horder⟩ := hfinishes
    have hlines : ∀ k ∈ tokens, OnLine source k.line := fun k hk => (hplaced k hk).onLine.of_trimmed
    have hfirst : OnLine source 1 := ⟨Nat.le_refl 1, Nat.le_add_right 1 _⟩
    have hparse := Parser.parse_of_construction (Parser.construction_on dialect hfirst) hlines
    refine ⟨hplaced, horder.increasing, Lexer.lines_increase hplaced horder, ?_, ?_⟩
    · intro e he
      rw [he] at hparse
      exact hparse
    · intro body hbody l hl
      rw [hbody] at hparse
      obtain ⟨s, hs, hl⟩ := hl.of_mem
      exact hparse s hs l hl

/-- A source with line breaks in text, a comment, both tags of a raw block, its body, a string, and between the
words of a tag. -/
def breaksEverywhere : Text :=
  "a\n\x7b#\n#\x7d\x7b%\nraw %\x7d\n\x7b\x7b\n\x7b% endraw\n%\x7d\x7b\x7b '\n' ~\nb \x7d\x7d\n"

theorem lines_true_of_breaksEverywhere : ∃ tokens body,
    Lexer.tokenize breaksEverywhere false = .ok tokens ∧ tokens.map (·.line) = [1, 4, 7, 7, 8, 9, 9, 9] ∧
      (∀ k ∈ tokens, k.Placed (Lexer.trimmed breaksEverywhere false)) ∧
      Parser.parse ⟨false, [], []⟩ tokens = .ok body ∧ body.map Stmt.lines = [[1], [4], [7]] ∧
      ∀ l, Records body l → OnLine breaksEverywhere l := by
  have hread : Lexer.tokenize breaksEverywhere false = .ok
      [⟨.data "a\n", 1, 0⟩, ⟨.data "\n\x7b\x7b\n", 4, 16⟩, ⟨.tagBegin .output, 7, 32⟩, ⟨.string "\n", 7, 35⟩,
        ⟨.operator .tilde, 8, 39⟩, ⟨.name "b", 9, 41⟩, ⟨.tagEnd .output, 9, 43⟩, ⟨.eof, 9, 45⟩] := by rfl
  obtain ⟨-, -, h⟩ := lines_true ⟨false, [], []⟩ breaksEverywhere false
  obtain ⟨hplaced, -, -, -, htree⟩ := h _ hread
  have hlines := htree [.text 1 "a\n", .text 4 "\n\x7b\x7b\n",
    .output 7 (.binary 7 .concat (.const 7 (.text "\n")) (.name ⟨"b", 9, 41⟩))] rfl
  exact ⟨_, _, hread, rfl, hplaced, rfl, rfl, hlines⟩

end Stencil
