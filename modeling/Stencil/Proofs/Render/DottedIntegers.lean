import Stencil.Proofs.Pointwise
import Stencil.Proofs.Render.Reprinting
import Stencil.Proofs.Template.DottedChains

/-!
Items by integers after dots. They have the values of the items between brackets where the dots are kept apart and no
digits are. Where a dot stands right behind an integer, the template is refused, and an integer with underscores is no
number after a dot.
-/

namespace Stencil

open Stencil.Expr (Matches)
open IntegerKey (bracketed dotted dotTokens lexes_bracketed lexes_dotted dotTokens_apart)
open Literal (Blanks Apart)

/-! ## Lines play no part in values -/

namespace Eval

variable {features : Features} {depth : Nat} {scope : ScopeId} {e e' : Expr}

/-- The value of a bound of a slice, which may be left out. -/
def evaluateBound (features : Features) (depth : Nat) (scope : ScopeId) : Option Expr → Eval Value
  | some e => evaluate features depth scope e
  | none => return .none

theorem evaluate_slice (line : Nat) (target : Expr) (start stop step : Option Expr) :
    evaluate features (depth + 1) scope (.slice line target start stop step) = (do
      let target ← evaluate features depth scope target
      let start ← evaluateBound features depth scope start
      let stop ← evaluateBound features depth scope stop
      slice target start stop (← evaluateBound features depth scope step)) := by
  rw [evaluate]
  rfl

/-- At some depth, expressions with the same tokens have one value, and so have arguments. -/
structure Unplaced (features : Features) (depth : Nat) : Prop where
  value : ∀ {scope e e'}, Matches e e' → evaluate features depth scope e = evaluate features depth scope e'
  arguments : ∀ {scope args args'} {named named' : List (Text × Expr)}, List.Forall₂ Matches args args' →
    named.map (·.1) = named'.map (·.1) → List.Forall₂ Matches (named.map (·.2)) (named'.map (·.2)) →
      arguments features depth scope args named = arguments features depth scope args' named'

namespace Unplaced

theorem values (h : Unplaced features depth) {es es' : List Expr} (hes : List.Forall₂ Matches es es') :
    es.mapM (evaluate features depth scope) = es'.mapM (evaluate features depth scope) :=
  mapM_congr_of_forall₂ (hes.imp fun _ _ he => h.value he)

theorem bound (h : Unplaced features depth) {o o' : Option Expr} (ho : Option.Rel Matches o o') :
    evaluateBound features depth scope o = evaluateBound features depth scope o' := by
  cases ho with
  | some he => exact h.value he
  | none => rfl

/-- One level deeper, by cases on the expression. -/
theorem evaluate_succ (h : Unplaced features depth) (he : Matches e e') :
    evaluate features (depth + 1) scope e = evaluate features (depth + 1) scope e' := by
  cases he with
  | name hn => rw [evaluate, evaluate, hn]
  | const v => rw [evaluate, evaluate]
  | list hes => rw [evaluate, evaluate, h.values hes]
  | tuple hes => rw [evaluate, evaluate, h.values hes]
  | dict hk hv =>
    rw [evaluate, evaluate]
    congr 1
    refine mapM_congr_of_forall₂ ((forall₂_pairs hk hv).imp fun p q hpq => ?_)
    dsimp only
    rw [h.value hpq.1, h.value hpq.2]
  | member ht => rw [evaluate, evaluate, h.value ht]
  | item ht hk => rw [evaluate, evaluate, h.value ht, h.value hk]
  | slice ht ha hb hc => rw [evaluate_slice, evaluate_slice, h.value ht, h.bound ha, h.bound hb, h.bound hc]
  | call hc ha hw hn => rw [evaluate, evaluate, h.value hc, h.arguments ha hw hn]
  | filter ht ha hw hn => rw [evaluate, evaluate, h.value ht, h.arguments ha hw hn]
  | test ht ha hw hn => rw [evaluate, evaluate, h.value ht, h.arguments ha hw hn]
  | not he => rw [evaluate, evaluate, h.value he]
  | signed he => rw [evaluate, evaluate, h.value he]
  | binary ha hb => rw [evaluate, evaluate, h.value ha, h.value hb]
  | logical ha hb => rw [evaluate, evaluate, h.value ha, h.value hb]
  | compare he ho hr =>
    have hpairs := forall₂_pairs (List.forall₂_eq_eq_eq ▸ ho) hr
    rw [evaluate, evaluate, h.value he]
    refine bind_congr fun first => ?_
    congr 1
    refine foldlM_congr_of_forall₂ (hpairs.imp fun p q hpq state => ?_) _
    dsimp only
    rw [hpq.1, h.value hpq.2]
  | cond hv ht ho =>
    cases ho with
    | some ho => rw [evaluate, evaluate, h.value ht, h.value hv, h.value ho]
    | none => rw [evaluate, evaluate, h.value ht, h.value hv]

theorem arguments_succ (h : Unplaced features depth) {args args' : List Expr} {named named' : List (Text × Expr)}
    (ha : List.Forall₂ Matches args args') (hw : named.map (·.1) = named'.map (·.1))
    (hn : List.Forall₂ Matches (named.map (·.2)) (named'.map (·.2))) :
    Eval.arguments features (depth + 1) scope args named = Eval.arguments features (depth + 1) scope args' named' := by
  have hpairs := forall₂_pairs (List.forall₂_eq_eq_eq ▸ hw) hn
  rw [Eval.arguments, Eval.arguments, h.values ha]
  refine bind_congr fun vs => ?_
  congr 1
  refine mapM_congr_of_forall₂ (hpairs.imp fun p q hpq => ?_)
  dsimp only
  rw [hpq.1, h.value hpq.2]

end Unplaced

theorem unplaced (features : Features) (depth : Nat) : Unplaced features depth := by
  -- both at once, since the values of arguments are found one level deeper than the expression they belong to
  induction depth with
  | zero =>
    constructor
    · intro scope e e' _
      rw [evaluate, evaluate]
    · intro scope args args' named named' _ _ _
      rw [arguments, arguments]
  | succ depth ih => exact ⟨ih.evaluate_succ, ih.arguments_succ⟩

/-- Expressions that differ in lines and places alone have the same value everywhere. -/
theorem evaluate_of_matches (h : Matches e e') : evaluate features depth scope e = evaluate features depth scope e' :=
  (unplaced features depth).value h

end Eval

/-! ## Chains of integers -/

variable {word : Text} {first : Text × IntegerKey} {more : List (Text × IntegerKey)}

namespace Environment

variable {env : Environment} {t : Text} {e : Expr}

/-- Between the marks of an output tag, a text is read as an expression that has the value of another in every
context. -/
def ReadsAs (env : Environment) (t : Text) (e : Expr) : Prop :=
  ∃ line e', env.parse (Lexer.outputTag t) = .ok [.output line e'] ∧
    ∀ features depth scope, Eval.evaluate features depth scope e' = Eval.evaluate features depth scope e

theorem apart_end : Apart (Text.ofString " \x7d\x7d") := Literal.apart_cons (by decide) _

/-- It is enough that the loop after a primary expression comes to it. -/
theorem readsAs_of_reaches {kinds : List TokenKind} (hlex : Lexer.Lexes [] t kinds [] (Text.ofString " \x7d\x7d"))
    (ho : Expr.Opens 10 kinds) (hreaches : ∀ total, Parser.ReachesBack env.dialect total 10 kinds e) :
    env.ReadsAs t e := by
  have hread : ∀ total, Parser.ReadsBack env.dialect total 0 kinds e := by
    intro total
    have hten := (hreaches total).reads (.inr (.inr rfl))
    exact (hten.below (Nat.le_refl 10) ho 0 (by omega)).1
  obtain ⟨line, e', hparse, he⟩ := env.parse_output hlex hread ho
  refine ⟨line, e', hparse, ?_⟩
  intro features depth scope
  exact (Eval.evaluate_of_matches he).symm

theorem opens_operand (hword : IsOperand word) {kinds : List TokenKind}
    (h : kinds.head? ≠ some (.operator .assign)) : Expr.Opens 10 (.name word :: kinds) :=
  (Expr.Opens.word hword.ne_not).append h

theorem readsAs_bracketed (env : Environment) (hword : IsOperand word) (keys : List IntegerKey) :
    env.ReadsAs (bracketed word keys) ((Expr.ofWord word).itemsOf (keys.map IntegerKey.number)) := by
  apply readsAs_of_reaches (lexes_bracketed hword apart_end.isNamePart keys)
  · apply opens_operand hword
    cases keys <;> nofun
  · intro total
    exact Parser.reaches_items (fun _ _ key ht => Parser.reaches_bracket ht key) (Parser.primary_word word).reaches keys

theorem readsAs_dotted (env : Environment) (hword : IsOperand word) (hblanks : ∀ p ∈ first :: more, Blanks p.1)
    (hapart : ∀ p ∈ more, p.1 ≠ []) :
    env.ReadsAs (dotted word (first :: more))
      ((Expr.ofWord word).itemsOf ((first :: more).map (·.2.afterDot))) := by
  have hlex : Lexer.Lexes [] _ _ [] _ := lexes_dotted hword hblanks apart_end
  rw [dotTokens_apart hapart] at hlex
  apply readsAs_of_reaches hlex
  · exact opens_operand hword nofun
  · intro total
    have hfirst : Parser.ReachesBack env.dialect total 10 _ _ := (Parser.primary_word word).reaches
    have hall := Parser.reaches_items (fun _ _ key ht => Parser.reaches_dot ht key) hfirst (first.2 :: more.map (·.2))
    rwa [List.map_cons, List.map_map] at hall

/-- The integers on both sides of a dot without blanks are one number, which is no member. -/
theorem parse_joined (env : Environment) (hword : IsOperand word) (hblanks : ∀ p ∈ first :: more, Blanks p.1)
    (hjoined : ∃ p ∈ more, p.1 = []) :
    ∃ line, env.parse (Lexer.outputTag (dotted word (first :: more))) = .error (.malformed ⟨.memberExpected, line⟩) := by
  obtain ⟨tokens, htokens, hkinds⟩ := Lexer.tokenize_output (lexes_dotted hword hblanks apart_end) env.keepFinalBreak
  have hlength : ([TokenKind.name word] ++ .operator .dot :: dotTokens first.2 more).length ≤ tokens.length := by
    have hmap := congrArg List.length hkinds
    rw [List.length_map, List.length_cons, List.length_append] at hmap
    rw [List.singleton_append]
    omega
  have hfirst : Parser.ReachesBack env.dialect tokens.length 10 _ _ := (Parser.primary_word word).reaches
  have hfails := Parser.fails_joined hjoined [.tagEnd .output, .eof] hfirst first.2 hlength
  obtain ⟨line, hparse⟩ := Parser.parse_fails hkinds (opens_operand hword nofun) hfails
  refine ⟨line, ?_⟩
  unfold Environment.parse
  rw [htokens]
  exact hparse

end Environment

/-- Integers between brackets after a word are read as items by the numbers nearest to them. Integers after dots are read
alike where blanks stand in front of every dot but the first and no digits are kept apart by underscores; an integer with
an underscore is no number after a dot; and where a dot stands right behind an integer, the template is refused. -/
theorem dotted_integers (env : Environment) (hword : IsOperand word) (hblanks : ∀ p ∈ first :: more, Blanks p.1) :
    env.ReadsAs (bracketed word ((first :: more).map (·.2)))
      ((Expr.ofWord word).itemsOf ((first :: more).map (·.2.number))) ∧
    ((∀ p ∈ more, p.1 ≠ []) →
      env.ReadsAs (dotted word (first :: more))
        ((Expr.ofWord word).itemsOf ((first :: more).map (·.2.afterDot))) ∧
      ((∀ p ∈ first :: more, ('_' : CodeUnit) ∉ p.2.spelling) →
        env.ReadsAs (dotted word (first :: more))
          ((Expr.ofWord word).itemsOf ((first :: more).map (·.2.number))))) ∧
    ((∃ p ∈ more, p.1 = []) →
      ∃ line, env.parse (Lexer.outputTag (dotted word (first :: more))) =
        .error (.malformed ⟨.memberExpected, line⟩)) := by
  refine ⟨?brackets, ?dots, env.parse_joined hword hblanks⟩
  case brackets =>
    have hbrackets := env.readsAs_bracketed hword ((first :: more).map (·.2))
    rwa [List.map_map] at hbrackets
  case dots =>
    intro hapart
    have hdots := env.readsAs_dotted hword hblanks hapart
    refine ⟨hdots, ?_⟩
    intro hplain
    have hkeys : (first :: more).map (·.2.afterDot) = (first :: more).map (·.2.number) :=
      List.map_congr_left fun p hp => if_neg (hplain p hp)
    rwa [hkeys] at hdots

namespace DottedIntegers

def one : IntegerKey := ⟨1, ['1'], .digit (by decide)⟩

/-- Ten, with its digits apart. -/
def ten : IntegerKey := ⟨10, ['1', '_', '0'], .apart (d := 0) one.digits (by decide)⟩

theorem isOperand_x : IsOperand "x" := ⟨⟨'x', [], rfl, by decide, rfl⟩, by decide⟩

/-- A list of eleven items, the first of which is a list. -/
def eleven : Store :=
  { Store.empty with
    lists := #[.list 1 :: List.replicate 9 .none ++ [.text "a"], [.text "b", .text "c"]]
    mappings := #[[("x", .data (.list 0))]] }

def setting : Environment × Store := Environment.create false false false eleven

/-- What a source gives where `x` is the list. -/
def textOf (source : Text) : Except Unreadable (Except Fault Text) := do
  return outcome (Eval.renderTemplate setting.1 (← setting.1.parse source) (.mapping 0)) setting.2

end DottedIntegers

open DottedIntegers (one ten setting textOf)

/-- Dots with a blank between them, an integer with an underscore, and dots without a blank. -/
theorem dotted_integers_of_ten :
    setting.1.ReadsAs "x.1 .1" ((Expr.name ⟨"x", 0, 0⟩).itemsOf [one.number, one.number]) ∧
      setting.1.ReadsAs "x[1_0]" ((Expr.name ⟨"x", 0, 0⟩).itemsOf [ten.number]) ∧
      setting.1.ReadsAs "x.1_0" ((Expr.name ⟨"x", 0, 0⟩).itemsOf [.nan]) ∧
      ∃ line, setting.1.parse (Lexer.outputTag "x.1.1") = .error (.malformed ⟨.memberExpected, line⟩) := by
  have hnone : Blanks [] := List.forall_mem_nil _
  have hspace : Blanks [(' ' : CodeUnit)] := List.forall_mem_singleton.mpr (by decide)
  have halone : ∀ p ∈ [(([] : Text), ten)], Blanks p.1 := List.forall_mem_singleton.mpr hnone
  have hadjacent : ∀ p ∈ [([], one), (([] : Text), one)], Blanks p.1 :=
    List.forall_mem_cons.mpr ⟨hnone, List.forall_mem_singleton.mpr hnone⟩
  have hspaced : ∀ p ∈ [([], one), ([(' ' : CodeUnit)], one)], Blanks p.1 :=
    List.forall_mem_cons.mpr ⟨hnone, List.forall_mem_singleton.mpr hspace⟩
  have happart := dotted_integers setting.1 DottedIntegers.isOperand_x hspaced
  have hten := dotted_integers setting.1 DottedIntegers.isOperand_x halone
  have hjoined := dotted_integers setting.1 DottedIntegers.isOperand_x hadjacent
  have hnan : ten.afterDot = .nan := if_pos (by decide)
  have hdots := (hten.2.1 (List.forall_mem_nil _)).1
  rw [List.map_singleton, hnan] at hdots
  exact ⟨(happart.2.1 (by decide)).2 (by decide), hten.1, hdots, hjoined.2.2 (by decide)⟩

/-- Items between brackets, and what is read after dots in their place: a template that is refused, and nothing. -/
theorem dotted_integers_differ :
    textOf "\x7b\x7b x[0][1] \x7d\x7d" = .ok (.ok "c") ∧
      textOf "\x7b\x7b x.0.1 \x7d\x7d" = .error (.malformed ⟨.memberExpected, 1⟩) ∧
      textOf "\x7b\x7b x[1_0] \x7d\x7d" = .ok (.ok "a") ∧
      textOf "\x7b\x7b x.1_0 \x7d\x7d" = .ok (.ok "") := by
  decide +kernel

end Stencil
