import Stencil.Proofs.Correspondence.Change
import Stencil.Proofs.Giving
import Stencil.Proofs.Template.LexingTags
import Stencil.Proofs.Template.ReadBack
import Stencil.Proofs.Value.Quotable
import Stencil.Render.Environment

/-!
What is printed in quoted form is read back: between the marks of an output tag it is an expression, and the expression
evaluates to the tree that was printed. Brackets are counted while it is split into tokens, so that the braces of nested
mappings are not taken for the end of the tag.
-/

namespace Stencil

open Correspondence (Keeps)
open Literal (Blanks Apart)

variable {q : Quotable} {n : Nat}

namespace Parser

variable {dialect : Dialect} {kinds : List TokenKind} {P : List Stmt → Prop}

/-- What the statements of a template are taken for is the result of parsing it. -/
theorem parse_of_takes {tokens : List Token} (htokens : tokens.map (·.kind) = kinds ++ [.eof])
    (h : Takes tokens.length (statements dialect (bodyWithin dialect tokens.length) []) kinds [.eof] P) :
    ∃ stmts, parse dialect tokens = .ok stmts ∧ P stmts := by
  obtain ⟨used, rest, rfl, hused, hrest⟩ := List.map_eq_append_iff.mp htokens
  obtain ⟨stmts, work, hrun, hP⟩ := h used rest hused hrest (by rw [List.length_append]) 1
  have hparse : (bodyWithin dialect ((used ++ rest).length + 1) []).run ⟨used ++ rest, (used ++ rest).length, 0⟩ =
      .ok stmts ⟨rest, (used ++ rest).length, work⟩ := hrun
  refine ⟨stmts, ?_, hP⟩
  rw [parse, hparse]

theorem numberValue_digits (h : n < 2 ^ 53) : numberValue (Text.ofNat n) = .ofNat n := by
  rw [numberValue, Text.filter_underscore, Number.ofText?_digits h, Option.getD_some]

end Parser

/-! ## The expression of a tree -/

namespace Quotable

/-- The expression that the quoted form of a tree is. -/
def expr : Quotable → Expr
  | text t => .const 0 (.text t)
  | bool b => .const 0 (.bool b)
  | integer i _ =>
    if i < 0 then .signed 0 .minus (.const 0 (.number (.ofNat i.natAbs))) else .const 0 (.number (.ofNat i.natAbs))
  | list items => .list 0 (exprs items)
  | mapping entries => .dict 0 (entryExprs entries)
where
  exprs : List Quotable → List Expr
    | [] => []
    | q :: rest => q.expr :: exprs rest
  entryExprs : List (Text × Quotable) → List (Expr × Expr)
    | [] => []
    | (key, q) :: rest => (.const 0 (.text key), q.expr) :: entryExprs rest

theorem exprs_eq_map (items : List Quotable) : expr.exprs items = items.map expr := by
  induction items with
  | nil => rfl
  | cons q items ih => rw [expr.exprs, ih, List.map_cons]

theorem entryExprs_eq_map (entries : List (Text × Quotable)) :
    expr.entryExprs entries = entries.map fun e => (.const 0 (.text e.1), e.2.expr) := by
  induction entries with
  | nil => rfl
  | cons e entries ih => rw [expr.entryExprs, ih, List.map_cons]

end Quotable

theorem Number.unsigned_of_eq {x : Number} (hx : x = .ofNat n) (h : n < 2 ^ 53) : x.Unsigned := by
  have hrounded : ofGrains false (n * unit) 1 = .ofNat n := by rw [ofNat, ofRatio]
  rw [ofNat_eq_finite h] at hx hrounded
  subst hx
  exact ⟨rfl, hrounded⟩

/-- The expression of a tree can be written. -/
theorem Quotable.printable (dialect : Dialect) (q : Quotable) : q.expr.Printable dialect := by
  have hnumber : ∀ {x : Number} {n : Nat}, x = .ofNat n → n < 2 ^ 53 → (Expr.const 0 (.number x)).Printable dialect :=
    fun hx h => .of_parts (Number.unsigned_of_eq hx h) (List.forall_mem_nil _)
  induction q with
  | text t => exact .of_parts trivial (List.forall_mem_nil _)
  | bool b => exact .of_parts trivial (List.forall_mem_nil _)
  | integer i hi =>
    unfold expr
    split
    · exact .of_parts trivial (List.forall_mem_singleton.mpr (hnumber rfl hi))
    · exact hnumber rfl hi
  | list items ih =>
    refine .of_parts trivial ?_
    rw [expr, exprs_eq_map]
    exact List.forall_mem_map.mpr ih
  | mapping entries ih =>
    refine .of_parts trivial ?_
    rw [expr, entryExprs_eq_map]
    intro p hp
    obtain ⟨pair, hpair, hp⟩ := List.mem_flatMap.mp hp
    obtain ⟨e, he, rfl⟩ := List.mem_map.mp hpair
    rcases List.mem_cons.mp hp with rfl | hp
    · exact .of_parts trivial (List.forall_mem_nil _)
    · obtain rfl := List.mem_singleton.mp hp
      exact ih e he

/-! ## Tokens -/

/-- How numbers are spelled: integers by their digits. -/
def numeral (x : Number) : TokenKind := if x.isSafeInteger then .integer x.toText else .float x.spelling

theorem toText_ofNat (h : n < 2 ^ 53) : (Number.ofNat n).toText = Text.ofNat n :=
  Number.toText_of_toInt? (Number.toInt?_ofNat h) h

theorem numeral_ofNat (h : n < 2 ^ 53) : numeral (.ofNat n) = .integer (Text.ofNat n) := by
  rw [numeral, if_pos (Number.isSafeInteger_ofNat h), toText_ofNat h]

theorem spells_numeral : Expr.Spells numeral := by
  intro x hx
  by_cases hsafe : x.isSafeInteger = true
  · obtain ⟨n, hn, heq⟩ : ∃ n, n < 2 ^ 53 ∧ x = .ofNat n := by
      obtain ⟨i, hi, hbound⟩ := Number.exists_of_isSafeInteger hsafe
      obtain ⟨negative, n, rfl, rfl⟩ := Number.exists_of_toInt? hi
      obtain ⟨rfl, -⟩ := hx
      exact ⟨n, hbound, (Number.ofNat_eq_finite hbound).symm⟩
    have hkind : numeral x = .integer (Text.ofNat n) := by rw [heq, numeral_ofNat hn]
    have hvalue : Parser.numberValue (Text.ofNat n) = x := by rw [heq, Parser.numberValue_digits hn]
    exact ⟨_, .inl hkind, hvalue⟩
  · exact ⟨_, .inr (if_neg hsafe), Parser.numberValue_spelling hx⟩

namespace Lexer

/-- The quoted form of a tree is split into the tokens of its expression. -/
theorem lexes_repr (q : Quotable) {before : List Operator} {rest : Text} (hrest : Apart rest) :
    Lexes before q.repr (q.expr.spell numeral) before rest := by
  induction q generalizing before rest with
  | text t => exact lexes_quoted t
  | bool b =>
    cases b with
    | true => exact lexes_word (by decide) rfl hrest
    | false => exact lexes_word (by decide) rfl hrest
  | integer i hi =>
    have hdigits : ∀ before, Lexes before (Text.ofNat i.natAbs) [numeral (.ofNat i.natAbs)] before rest := by
      intro before
      rw [numeral_ofNat hi]
      exact lexes_digits (Text.isDigit_of_mem_ofNat _) (Text.ofNat_ne_nil _) hrest
    unfold Quotable.repr Quotable.expr
    by_cases hneg : i < 0
    · rw [if_pos hneg, if_pos hneg]
      have hminus : Lexes before [('-' : CodeUnit)] [.operator .minus] before (Text.ofNat i.natAbs ++ rest) := by
        refine lexes_punctuation punctuation_minus ?_ rfl
        obtain ⟨u, digits, heq⟩ := List.exists_cons_of_ne_nil (Text.ofNat_ne_nil i.natAbs)
        have hu : u.isDigit = true := Text.isDigit_of_mem_ofNat i.natAbs u (heq ▸ List.mem_cons_self)
        rw [heq]
        exact goes_of_dash (Number.ne_of_isDigit hu (by decide))
      have hnone : Blanks [] := List.forall_mem_nil _
      exact hminus.append hnone (hdigits before)
    · rw [if_neg hneg, if_neg hneg]
      exact hdigits before
  | list items ih =>
    have hparts : ∀ p ∈ items.map fun q => (q.repr, q.expr.spell numeral), ∀ rest, Apart rest →
        Lexes (.leftBracket :: before) p.1 p.2 (.leftBracket :: before) rest :=
      List.forall_mem_map.mpr fun q hq rest hrest => ih q hq hrest
    have hall : Lexes before _ _ before rest :=
      lexes_bracketed punctuation_leftBracket punctuation_rightBracket rfl rfl rfl (by decide) hparts
    rw [List.map_map, List.map_map] at hall
    unfold Quotable.repr Quotable.expr Expr.spell
    rw [Quotable.reprs_eq_map, Quotable.exprs_eq_map, Expr.items_eq_map, List.map_map]
    exact hall
  | mapping entries ih =>
    have hparts : ∀ p ∈ entries.map fun e => (quoted e.1 ++ Text.ofString ": " ++ e.2.repr,
          .string e.1 :: .operator .colon :: e.2.expr.spell numeral), ∀ rest, Apart rest →
        Lexes (.leftBrace :: before) p.1 p.2 (.leftBrace :: before) rest := by
      refine List.forall_mem_map.mpr fun e he rest hrest => ?_
      have hnone : Blanks [] := List.forall_mem_nil _
      have hspace : Blanks [(' ' : CodeUnit)] := List.forall_mem_singleton.mpr (by decide)
      have hcolon : ∀ rest,
          Lexes (.leftBrace :: before) [(':' : CodeUnit)] [.operator .colon] (.leftBrace :: before) rest := fun rest =>
        lexes_punctuation punctuation_colon (goes_of_ne (List.cons_ne_nil _ _)) rfl
      have hall := (lexes_quoted e.1).append hnone ((hcolon _).append hspace (ih e he hrest))
      rw [List.append_assoc]
      exact hall
    have hall : Lexes before _ _ before rest :=
      lexes_bracketed punctuation_leftBrace punctuation_rightBrace rfl rfl rfl (by decide) hparts
    rw [List.map_map, List.map_map] at hall
    unfold Quotable.repr Quotable.expr Expr.spell
    rw [Quotable.entryReprs_eq_map, Quotable.entryExprs_eq_map, Expr.entries_eq_map, List.map_map]
    exact hall

end Lexer

/-- A text that is split into the tokens of an expression is a template that outputs it, between the marks of an output
tag. -/
theorem Environment.parse_output (env : Environment) {t : Text} {kinds : List TokenKind} {e : Expr} {least : Nat}
    (hlex : Lexer.Lexes [] t kinds [] (Text.ofString " \x7d\x7d"))
    (hread : ∀ total, Parser.ReadsBack env.dialect total 0 kinds e) (ho : Expr.Opens least kinds) :
    ∃ line e', env.parse (Lexer.outputTag t) = .ok [.output line e'] ∧ e.Matches e' := by
  obtain ⟨tokens, htokens, hkinds⟩ := Lexer.tokenize_output hlex env.keepFinalBreak
  have hlength : kinds.length ≤ tokens.length := by
    have hmap := congrArg List.length hkinds
    rw [List.length_map, List.length_cons, List.length_append] at hmap
    omega
  obtain ⟨stmts, hparse, line, e', rfl, he⟩ := Parser.parse_of_takes (hkinds.trans (by simp))
    (Parser.takes_output_reads (hread tokens.length) ho hlength)
  refine ⟨line, e', ?_, he⟩
  unfold Environment.parse
  rw [htokens]
  exact hparse

/-- The quoted form of a tree between the marks of an output tag is a template that outputs the expression of it. -/
theorem Environment.parse_repr (env : Environment) (q : Quotable) :
    ∃ line e, env.parse (Lexer.outputTag q.repr) = .ok [.output line e] ∧ q.expr.Matches e := by
  have hspace : Apart (Text.ofString " \x7d\x7d") := Literal.apart_cons (by decide) _
  have hreadable : ∀ total, Parser.Readable env.dialect total numeral q.expr := fun total =>
    Parser.readable_of_printable spells_numeral _ (q.printable env.dialect)
  exact env.parse_output (Lexer.lexes_repr q hspace) (fun total => (hreadable total).item.1) (hreadable 0).opens

/-! ## Values -/

namespace Eval

variable {s : Store} {features : Features} {depth : Nat} {scope : ScopeId}

theorem shows_newList {items : List Quotable} {vs : List Value} (h : List.Forall₂ s.Shows vs items) :
    Gives s (newList vs) fun s' w => s'.Shows w (.list items) := by
  refine (gives_newList vs).mono ?_
  rintro t _ ⟨i, rfl, hi, rfl, hkeeps⟩
  exact .list hi (h.imp fun v q hv => hv.mono hkeeps)

theorem shows_mappingOf {entries : List (Text × Quotable)} {ps : List (Text × Value)}
    (hkeys : KeysInOrder (entries.map (·.1))) (h : List.Forall₂ (fun p e => p.1 = e.1 ∧ s.Shows p.2 e.2) ps entries) :
    Gives s (mappingOf ps) fun s' w => s'.Shows w (.mapping entries) := by
  have hsame : ps.map (·.1) = entries.map (·.1) := map_eq_of_forall₂ h fun _ _ hp => hp.1
  rw [← hsame] at hkeys
  refine (gives_mappingOf hkeys).mono ?_
  rintro t _ ⟨i, rfl, hi, hmapping, hkeeps⟩
  refine .mapping hi ?_ ?_
  · rw [hmapping, List.map_map]
    exact hkeys
  · rw [hmapping]
    refine List.forall₂_map_left_iff.mpr (h.imp fun p e hp => ?_)
    obtain ⟨key, v⟩ := p
    obtain ⟨_, q⟩ := e
    obtain ⟨rfl, hv⟩ := hp
    exact .data (hv.mono hkeeps)

theorem evaluate_const (line : Nat) (c : Constant) :
    evaluate features (depth + 1) scope (.const line c) = pure c.value := by
  rw [evaluate]

theorem evaluate_negative (line line' : Nat) (x : Number) :
    evaluate features (depth + 2) scope (.signed line .minus (.const line' (.number x))) = pure (.number (-x)) := by
  rw [evaluate, evaluate_const]
  rfl

theorem evaluate_list (line : Nat) (es : List Expr) :
    evaluate features (depth + 1) scope (.list line es) = es.mapM (evaluate features depth scope) >>= newList := by
  rw [evaluate]

/-- The value of an entry, under the text of its key. -/
def evaluateEntry (features : Features) (depth : Nat) (scope : ScopeId) (p : Expr × Expr) : Eval (Text × Value) := do
  let key ← display (← evaluate features depth scope p.1)
  return (key, ← evaluate features depth scope p.2)

theorem evaluate_dict (line : Nat) (ps : List (Expr × Expr)) :
    evaluate features (depth + 1) scope (.dict line ps) =
      ps.mapM (evaluateEntry features depth scope) >>= mappingOf := by
  rw [evaluate]
  rfl

theorem gives_entry {key : Text} {p : Expr × Expr} (hkey : (Expr.const 0 (.text key)).Matches p.1)
    (h : ∀ s, Gives s (evaluate features (depth + 1) scope p.2) fun s' w => s'.Shows w q) (s : Store) :
    Gives s (evaluateEntry features (depth + 1) scope p) fun s' b => b.1 = key ∧ s'.Shows b.2 q := by
  obtain ⟨k, e⟩ := p
  cases hkey
  have hdisplay : Gives s (display (.text key)) fun _ t => t = key := ⟨key, s, rfl, .refl s, rfl⟩
  unfold evaluateEntry
  rw [evaluate_const]
  refine hdisplay.bind fun t s₁ _ ht => (h s₁).bind fun w s₂ _ hw => .pure ⟨ht, hw⟩

/-- An expression that is the one of a tree, at whatever lines, evaluates to the tree. -/
theorem gives_evaluate {t : Store} {v : Value} {e : Expr} (h : t.Shows v q) (he : q.expr.Matches e)
    (hdepth : q.height + 2 ≤ depth) (s : Store) :
    Gives s (evaluate features depth scope e) fun s' w => s'.Shows w q := by
  induction q generalizing v e depth s with
  | text u =>
    obtain ⟨depth, rfl⟩ : ∃ d, depth = d + 1 := ⟨depth - 1, by omega⟩
    cases he
    rw [evaluate_const]
    exact .pure (.text u)
  | bool b =>
    obtain ⟨depth, rfl⟩ : ∃ d, depth = d + 1 := ⟨depth - 1, by omega⟩
    cases he
    rw [evaluate_const]
    exact .pure (.bool b)
  | integer i hi =>
    obtain ⟨depth, rfl⟩ : ∃ d, depth = d + 2 := ⟨depth - 2, by omega⟩
    unfold Quotable.expr at he
    by_cases hneg : i < 0
    · have hx : (-Number.ofNat i.natAbs).toInt? = some i := by
        rw [Number.toInt?_neg (Number.toInt?_ofNat hi)]
        congr 1
        omega
      rw [if_pos hneg] at he
      generalize Number.ofNat i.natAbs = x at he hx
      cases he with
      | signed he =>
        cases he
        rw [evaluate_negative]
        exact .pure (.integer hx)
    · have hx : (Number.ofNat i.natAbs).toInt? = some i := by
        rw [Number.toInt?_ofNat hi]
        congr 1
        omega
      rw [if_neg hneg] at he
      generalize Number.ofNat i.natAbs = x at he hx
      cases he
      rw [evaluate_const]
      exact .pure (.integer hx)
  | list items ih =>
    obtain ⟨depth, rfl⟩ : ∃ d, depth = d + 1 := ⟨depth - 1, by omega⟩
    cases h with
    | list _ hitems =>
      cases he with
      | @list _ _ _ es hes =>
        rw [Quotable.exprs_eq_map, List.forall₂_map_left_iff] at hes
        rw [evaluate_list]
        refine (Gives.mapM (R := fun s => s.Shows) (fun hkeeps hw => hw.mono hkeeps) ?_).bind
          fun vs s' _ hvs => shows_newList hvs
        refine forall₂_imp_of_mem (fun e q hq he s _ => ?_) hes.flip
        obtain ⟨v, _, hv⟩ := exists_of_forall₂ hitems hq
        have hlt := Quotable.height_lt_of_mem hq
        exact ih q hq hv he (by omega) s
  | mapping entries ih =>
    obtain ⟨depth, rfl⟩ : ∃ d, depth = d + 2 := ⟨depth - 2, by omega⟩
    cases h with
    | @mapping id _ _ hkeys hentries =>
      have hsame : (t.mapping id).map (·.1) = entries.map (·.1) := by
        refine map_eq_of_forall₂ hentries fun p e hp => ?_
        obtain ⟨_⟩ := hp
        rfl
      rw [hsame] at hkeys
      cases he with
      | @dict _ _ _ ps hk hv =>
        have hpairs := forall₂_pairs hk hv
        rw [Quotable.entryExprs_eq_map, List.forall₂_map_left_iff] at hpairs
        rw [evaluate_dict]
        refine (Gives.mapM (R := fun s (b : Text × Value) (e : Text × Quotable) => b.1 = e.1 ∧ s.Shows b.2 e.2)
          (fun hkeeps hb => ⟨hb.1, hb.2.mono hkeeps⟩) ?_).bind fun bs s' _ hbs => shows_mappingOf hkeys hbs
        refine forall₂_imp_of_mem (fun p e he hp s _ => gives_entry hp.1 (fun s => ?_) s) hpairs.flip
        obtain ⟨_, _, _, hv⟩ := exists_of_forall₂ (Store.forall₂_entriesOf hentries) he
        have hlt := Quotable.height_lt_of_mem_entries he
        exact ih e he hv hp.2 (by omega) s

end Eval

/-- A value that is a tree has a quoted form. Between the marks of an output tag it is a template in every environment,
and under every limit that leaves room for the nesting of the tree, its expression evaluates to a value that is the same
tree and equals the one that was printed. -/
theorem evaluate_repr {s : Store} {v : Value} (h : s.Shows v q) :
    ∃ t, s.repr? v = some t ∧ ∀ env : Environment, ∃ line e, env.parse (Lexer.outputTag t) = .ok [.output line e] ∧
      ∀ features depth scope, q.height + 2 ≤ depth → ∃ w s', Eval.evaluate features depth scope e s = .ok w s' ∧
        Keeps s s' ∧ s'.Shows w q ∧ s'.equal? w v = some true := by
  refine ⟨q.repr, Store.repr?_of_shows h, fun env => ?_⟩
  obtain ⟨line, e, hparse, he⟩ := env.parse_repr q
  refine ⟨line, e, hparse, fun features depth scope hdepth => ?_⟩
  obtain ⟨w, s', hrun, hkeeps, hw⟩ := Eval.gives_evaluate h he hdepth s
  exact ⟨w, s', hrun, hkeeps, hw, Store.equal?_of_shows hw (h.mono hkeeps)⟩

/-- A list of a text with a quote in it, an integer below zero and a mapping with keys that are easily lost. -/
def assorted : Quotable :=
  .list [.text "it's", .integer (-7) (by decide), .mapping [("2", .bool true), ("__proto__", .list [.text "\x7d\x7d"])]]

/-- A store in which the first list is this tree. -/
def assortedStore : Store :=
  { Store.empty with
    lists := #[[.text "it's", .number (.finite true (7 * Number.unit)), .mapping 0], [.text "\x7d\x7d"]]
    mappings := #[[("2", .data (.bool true)), ("__proto__", .data (.list 1))]] }

theorem shows_assorted : assortedStore.Shows (.list 0) assorted := by
  have hkeys : KeysInOrder [Text.ofString "2", Text.ofString "__proto__"] :=
    ⟨by decide, [Text.ofString "2"], [Text.ofString "__proto__"], rfl, List.pairwise_singleton _ _, by decide, by decide⟩
  have hinner : assortedStore.Shows (.list 1) (.list [.text "\x7d\x7d"]) := .list (by decide) (.cons (.text _) .nil)
  have hmapping : assortedStore.Shows (.mapping 0)
      (.mapping [("2", .bool true), ("__proto__", .list [.text "\x7d\x7d"])]) :=
    .mapping (by decide) hkeys (.cons (.data (.bool true)) (.cons (.data hinner) .nil))
  exact .list (by decide) (.cons (.text _) (.cons (.integer (Number.toInt?_integer true 7)) (.cons hmapping .nil)))

theorem evaluate_repr_of_assorted : ∃ t, assortedStore.repr? (.list 0) = some t ∧
    ∀ env : Environment, ∃ line e, env.parse (Lexer.outputTag t) = .ok [.output line e] ∧
      ∀ features depth scope, assorted.height + 2 ≤ depth → ∃ w s',
        Eval.evaluate features depth scope e assortedStore = .ok w s' ∧ Keeps assortedStore s' ∧ s'.Shows w assorted ∧
          s'.equal? w (.list 0) = some true :=
  evaluate_repr shows_assorted

example : assorted.repr = "['it\\'s', -7, \x7b'2': true, '__proto__': ['\x7d\x7d']\x7d]" := by decide

end Stencil
