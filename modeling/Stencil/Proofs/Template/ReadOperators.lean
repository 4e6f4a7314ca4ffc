import Stencil.Proofs.Template.ReadPrimary

/-!
Filters and tests, signs, operators, comparisons and conditions.
-/

namespace Stencil.Parser

open Stencil.Expr (Matches Ends Opens Begins Writable held separated)

variable {dialect : Dialect} {total : Nat} {nested : Entry → Parser Expr} {e t : Expr} {ks ks' follow : List TokenKind}
  {least l : Nat} {numeral : Number → TokenKind} {args : List Expr} {named : List (Text × Expr)}

theorem reaches_filter {f : Text} (hf : f ∈ dialect.filters)
    (ht : ReachesBack dialect total 9 (t.print numeral 9) t)
    (h : ∀ e ∈ args ++ named.map (·.2), ReadsBack dialect total 0 (e.spell numeral) e ∧ Opens 0 (e.spell numeral)) :
    ReachesBack dialect total 9 ((Expr.filter l t f args named).spell numeral) (.filter l t f args named) := by
  have hspell : (Expr.filter l t f args named).spell numeral =
      t.print numeral 9 ++ .operator .pipe :: .name f :: callTokens numeral args named := by
    simp [Expr.spell, Expr.print, callTokens]
  rw [hspell]
  refine ht.more (Nat.le_refl 10) fun nested hu follow _ line a ha => ?_
  have hargs : Takes total (optionalArguments nested) (callTokens numeral args named) follow (SameArguments args named) :=
    takes_optionalArguments h (hu.mono (by simp only [List.length_append, List.length_cons]; omega))
  have hfilter : Takes total (filterOf dialect nested a) (.operator .pipe :: .name f :: callTokens numeral args named)
      follow (Expr.filter l t f args named).Matches := by
    refine .expectOp fun k => .expectName fun n hn => ?_
    have hknown : dialect.filters.contains n.text = true := by simpa [hn] using hf
    simp only [hknown, Bool.not_true, Bool.false_eq_true, if_false]
    refine hargs.bind_last ?_
    rintro read ⟨hpositional, hwords, hnamed⟩
    refine .pure ?_
    rw [hn]
    exact .filter ha hpositional hwords hnamed
  exact .seen rfl (hfilter.bind_last fun e he => .pure he)

/-- The part of a test behind the word `not` or its absence. -/
def namedTest (dialect : Dialect) (nested : Entry → Parser Expr) (line : Nat) (target : Expr) (negated : Bool) :
    Parser Expr := do
  let name := (← expectName).text
  if !dialect.tests.contains name then failAt line (.unknownTest name)
  let (args, named) ←
    if ← seesOp .leftParen then arguments nested
    else if startsBareArgument (← current).kind then do
      let e ← postfixed nested (← primary nested)
      pure ([e], [])
    else pure ([], [])
  return .test line target name args named negated

theorem reaches_test {f : Text} {negated : Bool} (hf : f ∈ dialect.tests) (hnot : f = "not" → negated)
    (ht : ReachesBack dialect total 9 (t.print numeral 9) t)
    (h : ∀ e ∈ args ++ named.map (·.2), ReadsBack dialect total 0 (e.spell numeral) e ∧ Opens 0 (e.spell numeral)) :
    ReachesBack dialect total 9 ((Expr.test l t f args named negated).spell numeral) (.test l t f args named negated) := by
  have hspell : (Expr.test l t f args named negated).spell numeral = t.print numeral 9 ++
      .name "is" :: ((if negated then [.name "not"] else []) ++ .name f :: callTokens numeral args named) := by
    simp [Expr.spell, Expr.print, callTokens]
  rw [hspell]
  refine ht.more (Nat.le_refl 10) fun nested hu follow _ line a ha => ?_
  have hargs : Takes total (arguments nested) (callTokens numeral args named) follow (SameArguments args named) :=
    takes_arguments h (hu.mono (by simp only [List.length_append, List.length_cons]; omega))
  have htest : Takes total (testOf dialect nested a)
      (.name "is" :: ((if negated then [.name "not"] else []) ++ .name f :: callTokens numeral args named))
      follow (Expr.test l t f args named negated).Matches := by
    have hname : ∀ line, Takes total (namedTest dialect nested line a negated) (.name f :: callTokens numeral args named)
        follow (Expr.test l t f args named negated).Matches := by
      intro line
      refine .expectName fun n hn => ?_
      have hknown : dialect.tests.contains n.text = true := by simpa [hn] using hf
      simp only [hknown, Bool.not_true, Bool.false_eq_true, if_false]
      refine .seen rfl (.current fun _ _ => ?_)
      refine hargs.bind_last ?_
      rintro read ⟨hpositional, hwords, hnamed⟩
      refine .pure ?_
      rw [hn]
      exact .test ha hpositional hwords hnamed
    refine .expectWord fun k => ?_
    cases negated with
    | true => exact .skip (by simp) (hname k.line)
    | false =>
      have hne : f ≠ "not" := fun heq => Bool.false_ne_true (hnot heq)
      exact .noSkip (fun heq => hne (TokenKind.name.inj heq)) (hname k.line)
  exact .unseen (by simp) (.seen rfl (htest.bind_last fun e he => .pure he))

/-! Signs and negation. -/

theorem takes_postfixed_nil (dialect : Dialect) {a : Expr} {P : Expr → Prop} (hf : Ends 10 follow) (ha : P a) :
    Takes total (postfixed nested a) [] follow P :=
  have hstart : Arrives total (postfixed nested a) (spineStep dialect nested 10) [] follow P := .loop ha
  hstart.done fun _ _ ha => spineStep_ends (.inr (.inr rfl)) hf ha

theorem operand_signed {sign : Sign} (h : OperandBack dialect total ks e) :
    OperandBack dialect total (.operator sign.operator :: ks) (.signed l sign e) := by
  intro nested hu follow hf
  have hread : Takes total (nested .signed) ks follow e.Matches :=
    hu.takes fun inner hinner => h inner hinner follow hf
  cases sign
  all_goals
    refine .current fun k hk => ?_
    first
    | rw [show k.kind = .operator .minus from hk]
    | rw [show k.kind = .operator .plus from hk]
    refine .next (by simp) fun _ _ => hread.bind_last fun a ha => ?_
    exact (takes_postfixed_nil dialect hf (Matches.signed ha)).bind_last fun e he => .pure he

theorem reads_not (h : ReadsBack dialect total 3 ks e) : ReadsBack dialect total 3 (.name "not" :: ks) (.not l e) := by
  intro nested hu follow hf
  have hread : Takes total (nested .negation) ks follow e.Matches :=
    hu.takes fun inner hinner => h inner hinner follow hf
  exact .current fun k _ => .skip (by simp) (hread.bind_last fun a ha => .pure (.not ha))

/-! Operators that group to the left. -/

/-- A chain goes on by an operator with its right operand. -/
theorem reaches_chained {a b : Expr} {k : TokenKind} {combine : Nat → Expr → Expr → Expr} (hc : Chained least)
    (hop : operators least k = some combine) (ha : ReachesBack dialect total least ks a)
    (hb : ReadsBack dialect total (least + 1) ks' b)
    (hcombine : ∀ line a' b', a.Matches a' → b.Matches b' → e.Matches (combine line a' b')) :
    ReachesBack dialect total least (ks ++ k :: ks') e := by
  have hpull := pull_of_operators hop
  refine ha.more (Nat.le_of_eq hpull) fun nested hu follow hf line a' ha' => ?_
  have hstep : spineStep dialect nested least = chainStep (reader dialect nested (least + 1)) (operators least) := by
    unfold Chained at hc
    rw [spineStep, if_neg (by omega), if_neg (by omega)]
  rw [hstep]
  refine .current fun k' hk' => ?_
  rw [show k'.kind = k from hk', hop]
  have heof : k ≠ .eof := by
    rintro rfl
    exact nomatch hpull
  refine .next heof fun _ _ => ?_
  have hread : Takes total (reader dialect nested (least + 1)) ks' follow b.Matches :=
    hb nested (hu.mono (by simp only [List.length_append, List.length_cons]; omega)) follow hf
  exact hread.bind_last fun b' hb' => .pure (hcombine line a' b' ha' hb')

theorem reaches_binary {op : BinaryOp} {a b : Expr}
    (ha : ReachesBack dialect total op.level (a.print numeral op.level) a)
    (hb : ReadsBack dialect total (op.level + 1) (b.print numeral (op.level + 1)) b) :
    ReachesBack dialect total op.level ((Expr.binary l op a b).spell numeral) (.binary l op a b) := by
  have hc : Chained op.level := by cases op <;> simp [Chained, BinaryOp.level]
  have hop : operators op.level (.operator op.operator) = some (Expr.binary · op) := by cases op <;> rfl
  exact reaches_chained hc hop ha hb fun _ _ _ => .binary

theorem reaches_logical {op : LogicalOp} {a b : Expr}
    (ha : ReachesBack dialect total op.level (a.print numeral op.level) a)
    (hb : ReadsBack dialect total (op.level + 1) (b.print numeral (op.level + 1)) b) :
    ReachesBack dialect total op.level ((Expr.logical l op a b).spell numeral) (.logical l op a b) := by
  have hc : Chained op.level := by cases op <;> simp [Chained, LogicalOp.level]
  have hop : operators op.level (.name op.symbol) = some (Expr.logical · op) := by cases op <;> rfl
  exact reaches_chained hc hop ha hb fun _ _ _ => .logical

/-! Comparisons. -/

theorem takes_comparison (op : CompareOp) : Takes total comparison? op.kinds follow (· = some op) := by
  -- the last token of the operator is passed over
  have hlast : ∀ kind : TokenKind, kind ≠ .eof → Takes total (do
      let op? ← pure (some op)
      if op?.isSome then
        let _ ← next
      return op? : Parser (Option CompareOp)) [kind] follow (· = some op) := by
    rintro kind hkind
    refine .bind_nil (.pure rfl) ?_
    rintro _ rfl
    exact .next hkind fun _ _ => .pure rfl
  cases op with
  | isIn =>
    refine .current fun k hk => .following fun k' _ => ?_
    rw [show k.kind = .name "in" from hk]
    cases k'.kind <;> exact hlast _ (by simp)
  | isNotIn =>
    refine .current fun k hk => .following fun k' hk' => ?_
    rw [show k.kind = .name "not" from hk, show k'.kind = .name "in" from hk' _ rfl]
    refine .next (by simp) fun _ _ => ?_
    exact hlast (.name "in") (by simp)
  | _ =>
    refine .current fun k hk => .following fun k' _ => ?_
    rw [show k.kind = _ from hk]
    exact hlast _ (by simp)

/-- Being the same comparison, at whatever lines and places. -/
def SameComparison (p q : CompareOp × Expr) : Prop := p.1 = q.1 ∧ p.2.Matches q.2

theorem pull_kinds (op : CompareOp) : ∃ k ks, op.kinds = k :: ks ∧ k.pull ≤ 5 := by
  cases op <;> exact ⟨_, _, rfl, by decide⟩

theorem ends_comparisons (rest : List (CompareOp × Expr)) (hf : Ends 4 follow) :
    Ends 5 (Expr.spell.comparisons numeral rest ++ follow) := by
  cases rest with
  | nil => exact hf.mono (by omega)
  | cons p rest =>
    obtain ⟨op, e⟩ := p
    obtain ⟨k, ks, hkinds, hpull⟩ := pull_kinds op
    rw [Expr.spell.comparisons, hkinds]
    exact hpull

/-- The tokens of a comparison. -/
def comparisonTokens (numeral : Number → TokenKind) (p : CompareOp × Expr) : List TokenKind :=
  p.1.kinds ++ p.2.print numeral 5

theorem piecesFrom_comparisons (done rest : List (CompareOp × Expr)) :
    Arrives.piecesFrom (fun _ => comparisonTokens numeral) done rest = Expr.spell.comparisons numeral rest := by
  induction rest generalizing done with
  | nil => rfl
  | cons p rest ih =>
    rw [Arrives.piecesFrom, ih]
    rfl

theorem length_le_comparisons {p : CompareOp × Expr} {rest : List (CompareOp × Expr)} (hp : p ∈ rest) :
    (p.2.print numeral 5).length ≤ (Expr.spell.comparisons numeral rest).length := by
  induction rest with
  | nil => cases hp
  | cons q rest ih =>
    have hcons : (Expr.spell.comparisons numeral (q :: rest)).length =
        q.1.kinds.length + (q.2.print numeral 5).length + (Expr.spell.comparisons numeral rest).length := by
      rw [← List.length_append, ← List.length_append]
      rfl
    rw [hcons]
    rcases List.mem_cons.mp hp with rfl | hp
    · omega
    · have hle := ih hp
      omega

/-- Comparisons are read one by one. -/
theorem takes_comparisons {rest : List (CompareOp × Expr)} {n : Nat} (hf : Ends 4 follow)
    (h : ∀ p ∈ rest, ReadsBack dialect total 5 (p.2.print numeral 5) p.2) (hu : Unfolds dialect total n nested)
    (hle : (Expr.spell.comparisons numeral rest).length ≤ n) :
    Takes total (repeating (comparedStep (sum dialect nested)) []) (Expr.spell.comparisons numeral rest) follow
      (List.Forall₂ SameComparison rest) := by
  have hstart : Arrives total (repeating (comparedStep (sum dialect nested)) [])
      (fun _ => comparedStep (sum dialect nested)) []
      (Arrives.piecesFrom (fun _ => comparisonTokens numeral) [] rest ++ follow)
      fun acc => List.Forall₂ SameComparison [] acc.reverse := .loop .nil
  have hrounds := hstart.each (I := fun done (acc : List (CompareOp × Expr)) => List.Forall₂ SameComparison done acc.reverse)
    [] ?_ ?_
  · rw [piecesFrom_comparisons] at hrounds
    refine hrounds.done fun _ acc hacc => .bind_nil (takes_comparison_none hf) ?_
    rintro _ rfl
    exact .pure hacc
  · rintro - p -
    obtain ⟨k, ks, hkinds, -⟩ := pull_kinds p.1
    simp [comparisonTokens, hkinds]
  · rintro before p after hrest _ acc hacc
    have hp : p ∈ rest := by simp [show rest = _ from hrest]
    have hread : Takes total (sum dialect nested) (p.2.print numeral 5)
        (Expr.spell.comparisons numeral after ++ follow) p.2.Matches :=
      h p hp nested (hu.mono ((length_le_comparisons hp).trans hle)) _ (ends_comparisons after hf)
    rw [piecesFrom_comparisons]
    refine .bind (takes_comparison p.1) ?_
    rintro _ rfl
    exact hread.bind_last fun a ha => .pure (forall₂_concat hacc ⟨rfl, ha⟩)

theorem reads_compare {first : Expr} {rest : List (CompareOp × Expr)} (hne : rest ≠ [])
    (hfirst : ReadsBack dialect total 5 (first.print numeral 5) first)
    (h : ∀ p ∈ rest, ReadsBack dialect total 5 (p.2.print numeral 5) p.2) :
    ReadsBack dialect total 4 ((Expr.compare l first rest).spell numeral) (.compare l first rest) := by
  intro nested hu follow hf
  change Unfolds dialect total (first.print numeral 5 ++ Expr.spell.comparisons numeral rest).length nested at hu
  change Takes total (compared dialect nested) (first.print numeral 5 ++ Expr.spell.comparisons numeral rest) follow _
  rw [compared_eq]
  rw [List.length_append] at hu
  have hread : Takes total (sum dialect nested) (first.print numeral 5)
      (Expr.spell.comparisons numeral rest ++ follow) first.Matches :=
    hfirst nested (hu.mono (by omega)) _ (ends_comparisons rest hf)
  refine .current fun k _ => hread.bind fun a ha => ?_
  refine (takes_comparisons hf h hu (by omega)).bind_last fun read hsame => ?_
  have hread' : read ≠ [] := by
    rintro rfl
    exact hne (List.forall₂_nil_right_iff.mp hsame)
  rw [List.isEmpty_eq_false_iff.mpr hread']
  refine .pure (.compare ha ?_ ?_)
  · exact List.forall₂_eq_eq_eq ▸ List.forall₂_map_left_iff.mpr (List.forall₂_map_right_iff.mpr
      (hsame.imp fun _ _ h => h.1))
  · exact List.forall₂_map_left_iff.mpr (List.forall₂_map_right_iff.mpr (hsame.imp fun _ _ h => h.2))

theorem reads_cond {v : Expr} {otherwise : Option Expr} (hv : ReadsBack dialect total 1 (v.print numeral 1) v)
    (ht : ReadsBack dialect total 1 (t.print numeral 1) t)
    (ho : ∀ e ∈ otherwise, ReadsBack dialect total 0 (e.spell numeral) e) :
    ReadsBack dialect total 0 ((Expr.cond l v t otherwise).spell numeral) (.cond l v t otherwise) := by
  intro nested hu follow hf
  have hspell : (Expr.cond l v t otherwise).spell numeral = v.print numeral 1 ++
      (.name "if" :: (t.print numeral 1 ++ Expr.spell.alternative numeral otherwise)) := by
    simp [Expr.spell, Expr.print]
  rw [hspell] at hu ⊢
  simp only [List.length_append, List.length_cons] at hu
  change Takes total (conditional dialect nested) _ follow _
  rw [conditional_eq]
  have hvalue : Takes total (disjunction dialect nested) (v.print numeral 1)
      (.name "if" :: (t.print numeral 1 ++ Expr.spell.alternative numeral otherwise) ++ follow) v.Matches :=
    hv nested (hu.mono (by omega)) _ (show (TokenKind.name "if").pull ≤ 1 by decide)
  have hends : Ends 1 (Expr.spell.alternative numeral otherwise ++ follow) := by
    cases otherwise with
    | none => exact hf.mono (by omega)
    | some e => exact (by decide : (TokenKind.name "else").pull ≤ 1)
  have htest : Takes total (disjunction dialect nested) (t.print numeral 1)
      (Expr.spell.alternative numeral otherwise ++ follow) t.Matches := ht nested (hu.mono (by omega)) _ hends
  have hstart : Arrives total (do
        let line := (← current).line
        let first ← disjunction dialect nested
        repeating (conditionStep dialect nested line) first) (conditionStep dialect nested) (v.print numeral 1)
      (.name "if" :: (t.print numeral 1 ++ Expr.spell.alternative numeral otherwise) ++ follow) v.Matches :=
    .current fun k _ => .bind_last hvalue fun a ha => .repeating _ _ ha
  have hround := hstart.more (Q := (Expr.cond l v t otherwise).Matches) (by simp) fun line a ha => ?_
  · exact hround.done fun line a ha => .noSkip (hf.ne (by decide)) (.pure ha)
  · refine .skip (by simp) (htest.bind fun test htest' => ?_)
    cases otherwise with
    | none =>
      refine .noSkip (hf.ne (by decide)) (.bind_nil (.pure rfl) fun _ h => ?_)
      subst h
      exact .pure (.cond ha htest' .none)
    | some e =>
      have helse : Takes total (some <$> nested .conditional) (e.spell numeral) follow (Option.Rel Matches (some e)) := by
        refine Takes.map ((hu.mono ?_).takes fun inner hinner => ho e rfl inner hinner follow hf) fun a ha => .some ha
        simp only [Expr.spell.alternative, List.length_cons]
        omega
      exact .skip (by simp) (helse.bind_last fun otherwise' h => .pure (.cond ha htest' h))

end Stencil.Parser
