import Stencil.Proofs.Template.ReadBrackets

/-!
Parsers that fail on tokens of known kinds. Nothing is tried twice: what fails after a primary expression fails at every
level of the grammar, and with it the whole template.
-/

namespace Stencil.Parser

open Stencil.Expr (Begins Opens)

variable {α β : Type} {dialect : Dialect} {total : Nat} {nested : Entry → Parser Expr} {x : Parser α} {y : Parser β}
  {ks follow : List TokenKind} {P : α → Prop} {cause : SyntaxCause}

/-- Where all tokens ahead are of these kinds, the parser fails for a cause, at some line. -/
def Fails (total : Nat) (x : Parser α) (ks : List TokenKind) (cause : SyntaxCause) : Prop :=
  ∀ tokens : List Token, tokens.map (·.kind) = ks → tokens.length ≤ total → ∀ work, ∃ line s,
    x.run ⟨tokens, total, work⟩ = .error (.malformed ⟨cause, line⟩) s

namespace Fails

theorem failAt (line : Nat) : Fails total (failAt line cause : Parser α) ks cause := fun _ _ _ _ => ⟨line, _, rfl⟩

theorem bind (h : Fails total x ks cause) (f : α → Parser β) : Fails total (x >>= f) ks cause := by
  intro tokens htokens hle work
  obtain ⟨line, s, hrun⟩ := h tokens htokens hle work
  refine ⟨line, s, ?_⟩
  rw [EStateM.run_bind, hrun]

theorem current {f : Token → Parser α} (h : ∀ k : Token, k.kind = ahead ks → Fails total (f k) ks cause) :
    Fails total (current >>= f) ks cause := by
  intro tokens htokens hle work
  refine h _ ?_ tokens htokens hle work
  rw [current_kind, htokens]

end Fails

/-- What comes after tokens that are taken fails. -/
theorem Takes.fails {f : α → Parser β} (hx : Takes total x ks follow P)
    (hf : ∀ a, P a → Fails total (f a) follow cause) : Fails total (x >>= f) (ks ++ follow) cause := by
  intro tokens htokens hle work
  obtain ⟨used, rest, rfl, hused, hrest⟩ := List.map_eq_append_iff.mp htokens
  rw [List.length_append] at hle
  obtain ⟨a, work', hrun, ha⟩ := hx used rest hused hrest hle work
  obtain ⟨line, s, hrun'⟩ := hf a ha rest hrest (by omega) work'
  refine ⟨line, s, ?_⟩
  rw [EStateM.run_bind, hrun]
  exact hrun'

/-- A round of a loop fails. -/
theorem Arrives.fails {step : Nat → α → Parser (α ⊕ β)} (h : Arrives total y step ks follow P)
    (hstep : ∀ line a, P a → Fails total (step line a) follow cause) : Fails total y (ks ++ follow) cause := by
  intro tokens htokens hle work
  obtain ⟨used, rest, rfl, hused, hrest⟩ := List.map_eq_append_iff.mp htokens
  rw [List.length_append] at hle
  obtain ⟨line, a, fuel, work₁, hfuel, hrun, ha⟩ := h used rest hused hrest hle work
  obtain ⟨fuel, rfl⟩ : ∃ n, fuel = n + 1 := ⟨fuel - 1, by omega⟩
  obtain ⟨failed, s, hround⟩ := hstep line a ha rest hrest (by omega) (work₁ + 1)
  refine ⟨failed, s, ?_⟩
  rw [hrun, run_iterate, EStateM.run_bind, hround]

theorem Fails.next {kind : TokenKind} {f : Token → Parser α} (hk : kind ≠ .eof)
    (h : ∀ k : Token, k.kind = kind → Fails total (f k) ks cause) : Fails total (next >>= f) (kind :: ks) cause :=
  (Takes.next_alone hk).fails h

/-! ## From level to level -/

/-- Where a level fails, the level below it fails. -/
theorem Fails.lower {m : Nat} (hm : m < 10) (ho : Opens 10 ks)
    (h : Fails total (reader dialect nested (m + 1)) ks cause) : Fails total (reader dialect nested m) ks cause := by
  obtain ⟨k, rest, rfl, -, hnot, hsign, -⟩ := ho
  by_cases hc : Chained m
  · rw [reader_of_chained hc]
    exact .current fun _ _ => h.bind _
  -- four levels are no chains: conditions, negations, comparisons and signs
  obtain rfl | rfl | rfl | rfl : m = 0 ∨ m = 3 ∨ m = 4 ∨ m = 9 := by
    unfold Chained at hc
    omega
  · change Fails total (conditional dialect nested) _ cause
    rw [conditional_eq]
    exact .current fun _ _ => h.bind _
  · have hskip : Takes total (skipWord "not") [] (k :: rest) (· = false) := by
      have hahead : ahead ([] ++ k :: rest) ≠ .name "not" := hnot (by omega)
      have hpure : Takes total (skipWord "not" >>= pure) [] (k :: rest) (· = false) := .noSkip hahead (.pure rfl)
      rwa [bind_pure] at hpure
    refine .current fun _ _ => hskip.fails ?_
    rintro _ rfl
    exact h
  · change Fails total (compared dialect nested) _ cause
    rw [compared_eq]
    exact .current fun _ _ => h.bind _
  · obtain ⟨hplus, hminus⟩ := hsign (Nat.le_refl 10)
    refine .current fun token htoken => ?_
    dsimp only
    split
    · rename_i hkind
      exact absurd (htoken.symm.trans hkind) hminus
    · rename_i hkind
      exact absurd (htoken.symm.trans hkind) hplus
    · rw [← bind_assoc]
      exact h.bind _

theorem Fails.conditional (ho : Opens 10 ks) (h : Fails total (reader dialect nested 10) ks cause) :
    Fails total (conditional dialect nested) ks cause := by
  have hall : Fails total (reader dialect nested 0) ks cause :=
    Nat.decreasingInduction' (fun m hm _ ih => ih.lower hm ho) (Nat.zero_le 10) h
  exact hall

/-! ## Templates -/

theorem Fails.tuple {item : Parser Expr} {parenthesized : Bool} (hbegins : Begins ks)
    (h : Fails total item ks cause) : Fails total (tuple item [] parenthesized) ks cause := by
  have hstart : Arrives total (repeating (tupleStep item []) []) (fun _ => tupleStep item []) [] ks (· = []) := .loop rfl
  have hloop : Fails total (repeating (tupleStep item []) []) ks cause := by
    refine hstart.fails ?_
    rintro _ _ rfl
    have hround : Fails total (do
        if tupleEnds [] (← Parser.current).kind then return .inr ([], false)
        let e ← item
        if ← seesOp .comma then return .inl [e]
        return .inr ([e], false) : Parser (List Expr ⊕ List Expr × Bool)) ks cause := by
      refine .current fun k hk => ?_
      obtain ⟨kind, rest, rfl, hstarts⟩ := hbegins
      rw [show k.kind = kind from hk, tupleEnds_of_starts hstarts]
      exact h.bind _
    exact hround
  rw [tuple_eq]
  exact .current fun _ _ => hloop.bind _

/-- A template that starts with an output tag fails with the expression in it. -/
theorem parse_fails {tokens : List Token} (htokens : tokens.map (·.kind) = .tagBegin .output :: ks) (ho : Opens 10 ks)
    (h : Fails tokens.length (reader dialect (entry dialect) 10) ks cause) :
    ∃ line, parse dialect tokens = .error (.malformed ⟨cause, line⟩) := by
  have hstart : Arrives tokens.length (statements dialect (bodyWithin dialect tokens.length) []) _ []
      (.tagBegin .output :: ks) (· = []) := .loop rfl
  have hall : Fails tokens.length (statements dialect (bodyWithin dialect tokens.length) [])
      (.tagBegin .output :: ks) cause := by
    refine hstart.fails ?_
    rintro _ _ rfl
    refine .current fun k hk => ?_
    rw [show k.kind = .tagBegin .output from hk]
    exact .next (by simp) fun _ _ => ((h.conditional ho).tuple ho.begins).bind _
  obtain ⟨line, s, hrun⟩ := hall tokens htokens (Nat.le_refl _) 1
  have hparse : (bodyWithin dialect (tokens.length + 1) []).run ⟨tokens, tokens.length, 0⟩ =
      .error (.malformed ⟨cause, line⟩) s := hrun
  refine ⟨line, ?_⟩
  rw [parse, hparse]

end Stencil.Parser
