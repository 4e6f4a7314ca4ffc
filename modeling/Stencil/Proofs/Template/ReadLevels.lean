import Stencil.Proofs.Template.Printing
import Stencil.Proofs.Template.Taking

/-!
The levels of the grammar. Each reads the expressions that are held as tightly, in front of anything that does not
go on with them, and so does every level below it. Operators that group to the left, what follows a primary
expression, and filters are read by loops, which come to the whole of an expression by way of its first operand.
-/

namespace Stencil.Parser

open Stencil.Expr (Matches Ends Opens held separated)

variable {dialect : Dialect} {total : Nat} {nested : Entry → Parser Expr} {e : Expr} {ks ks' follow : List TokenKind}
  {m n least : Nat} {P : Expr → Prop}

/-- The parser of what is nested goes on at least `n` levels deep. -/
def Unfolds (dialect : Dialect) (total : Nat) : Nat → (Entry → Parser Expr) → Prop
  | 0, _ => True
  | n + 1, nested => ∃ inner, Unfolds dialect total n inner ∧ ∀ e rest work,
      (nested e).run ⟨rest, total, work⟩ = (production dialect inner e).run ⟨rest, total, work + 1⟩

theorem Unfolds.mono (h : Unfolds dialect total n nested) (hle : m ≤ n) : Unfolds dialect total m nested := by
  induction n generalizing m nested with
  | zero =>
    obtain rfl := Nat.le_zero.mp hle
    trivial
  | succ n ih =>
    cases m with
    | zero => trivial
    | succ m =>
      obtain ⟨inner, hinner, hrun⟩ := h
      exact ⟨inner, ih hinner (by omega), hrun⟩

theorem unfolds_entryWithin (n : Nat) : Unfolds dialect total n (entryWithin dialect n) := by
  induction n with
  | zero => trivial
  | succ n ih => exact ⟨_, ih, fun _ _ _ => rfl⟩

theorem unfolds_entry : Unfolds dialect total (total + 1) (entry dialect) :=
  ⟨_, unfolds_entryWithin total, fun _ _ _ => rfl⟩

theorem Unfolds.takes (h : Unfolds dialect total (n + 1) nested) {entry : Entry}
    (ht : ∀ inner, Unfolds dialect total n inner → Takes total (production dialect inner entry) ks follow P) :
    Takes total (nested entry) ks follow P := by
  obtain ⟨inner, hinner, hrun⟩ := h
  intro used rest hused hrest hle work
  obtain ⟨a, work', hread, ha⟩ := ht inner hinner used rest hused hrest hle (work + 1)
  exact ⟨a, work', by rw [hrun, hread], ha⟩

/-- The binary operators of a level. -/
def operators : Nat → TokenKind → Option (Nat → Expr → Expr → Expr)
  | 1 => fun
    | .name word => if word = "or" then some (Expr.logical · .or) else none
    | _ => none
  | 2 => fun
    | .name word => if word = "and" then some (Expr.logical · .and) else none
    | _ => none
  | 5 => fun
    | .operator .plus => some (Expr.binary · .add)
    | .operator .minus => some (Expr.binary · .sub)
    | _ => none
  | 6 => fun
    | .operator .tilde => some (Expr.binary · .concat)
    | _ => none
  | 7 => fun
    | .operator .times => some (Expr.binary · .mul)
    | .operator .divide => some (Expr.binary · .div)
    | .operator .floorDiv => some (Expr.binary · .floorDiv)
    | .operator .modulo => some (Expr.binary · .mod)
    | _ => none
  | 8 => fun
    | .operator .power => some (Expr.binary · .pow)
    | _ => none
  | _ => fun _ => none

/-- The production that reads what is held at a level. -/
def reader (dialect : Dialect) (nested : Entry → Parser Expr) : Nat → Parser Expr
  | 0 => conditional dialect nested
  | 1 => disjunction dialect nested
  | 2 => conjunction dialect nested
  | 3 => negated dialect nested
  | 4 => compared dialect nested
  | 5 => sum dialect nested
  | 6 => concatenation dialect nested
  | 7 => product dialect nested
  | 8 => power dialect nested
  | 9 => unary dialect nested true
  | _ => do postfixed nested (← primary nested)

/-- One more operator with its right operand, or the end of a chain. -/
def chainStep (operand : Parser Expr) (operator? : TokenKind → Option (Nat → Expr → Expr → Expr)) (line : Nat)
    (left : Expr) : Parser (Expr ⊕ Expr) := do
  match operator? (← current).kind with
  | none => return .inr left
  | some combine =>
    let _ ← next
    return .inl (combine line left (← operand))

/-- One more member, subscript or call, or the end of them. -/
def postfixStep (nested : Entry → Parser Expr) (target : Expr) : Parser (Expr ⊕ Expr) := do
  let token ← current
  match token.kind with
  | .operator .dot =>
    let _ ← next
    return .inl (← memberOf token.line target)
  | .operator .leftBracket =>
    let _ ← next
    let e ← subscript nested token.line target
    let _ ← expectOp .rightBracket
    return .inl e
  | .operator .leftParen => return .inl (← callOf nested target)
  | _ => return .inr target

/-- One more filter, test or call, or the end of them. -/
def filterStep (dialect : Dialect) (nested : Entry → Parser Expr) (target : Expr) : Parser (Expr ⊕ Expr) := do
  if ← seesOp .pipe then return .inl (← filterOf dialect nested target)
  if ← seesWord "is" then return .inl (← testOf dialect nested target)
  if ← seesOp .leftParen then return .inl (← callOf nested target)
  return .inr target

/-- The levels of operators that group to the left. -/
def Chained (least : Nat) : Prop := least = 1 ∨ least = 2 ∨ 5 ≤ least ∧ least ≤ 8

/-- The levels that a loop reads. -/
def Looped (least : Nat) : Prop := Chained least ∨ least = 9 ∨ least = 10

/-- The step of the loop of a level. -/
def spineStep (dialect : Dialect) (nested : Entry → Parser Expr) (least : Nat) : Nat → Expr → Parser (Expr ⊕ Expr) :=
  if least = 10 then fun _ => postfixStep nested
  else if least = 9 then fun _ => filterStep dialect nested
  else chainStep (reader dialect nested (least + 1)) (operators least)

theorem reader_of_chained (h : Chained least) : reader dialect nested least = (do
    let line := (← current).line
    let first ← reader dialect nested (least + 1)
    repeating (spineStep dialect nested least line) first) := by
  obtain rfl | rfl | ⟨h₁, h₂⟩ := h
  · rfl
  · rfl
  · obtain rfl | rfl | rfl | rfl : least = 5 ∨ least = 6 ∨ least = 7 ∨ least = 8 := by omega
    all_goals rfl

/-- The level reads tokens as an expression, in front of all that does not go on with it. -/
def ReadsBack (dialect : Dialect) (total least : Nat) (ks : List TokenKind) (e : Expr) : Prop :=
  ∀ nested, Unfolds dialect total ks.length nested → ∀ follow, Ends least follow →
    Takes total (reader dialect nested least) ks follow e.Matches

/-- The loop of the level comes by tokens to an expression, also in front of its own operators. -/
def ReachesBack (dialect : Dialect) (total least : Nat) (ks : List TokenKind) (e : Expr) : Prop :=
  ∀ nested, Unfolds dialect total ks.length nested → ∀ follow, Ends (least + 1) follow →
    Arrives total (reader dialect nested least) (spineStep dialect nested least) ks follow e.Matches

/-- The operand of a sign is read from tokens, in front of all that does not go on with it. -/
def OperandBack (dialect : Dialect) (total : Nat) (ks : List TokenKind) (e : Expr) : Prop :=
  ∀ nested, Unfolds dialect total ks.length nested → ∀ follow, Ends 10 follow →
    Takes total (unary dialect nested false) ks follow e.Matches

theorem pull_of_operators {k : TokenKind} {combine : Nat → Expr → Expr → Expr}
    (h : operators least k = some combine) : k.pull = least + 1 := by
  unfold operators at h
  split at h <;> dsimp only at h
  case h_7 => cases h
  case h_1 | h_2 =>
    split at h
    · split at h
      · rename_i hword
        subst hword
        decide
      · cases h
    · cases h
  all_goals split at h <;> first | rfl | cases h

theorem operators_eq_none (h : Ends least follow) : operators least (ahead follow) = none := by
  cases hop : operators least (ahead follow) with
  | none => rfl
  | some combine =>
    have hpull : (ahead follow).pull ≤ least := h
    rw [pull_of_operators hop] at hpull
    omega

/-- In front of what does not go on with it, a loop ends. -/
theorem spineStep_ends (hl : Looped least) (h : Ends least follow) {line : Nat} {a : Expr} (ha : P a) :
    Takes total (spineStep dialect nested least line a) [] follow (Sum.elim (fun _ => False) P) := by
  have hend : Takes total (pure (.inr a) : Parser (Expr ⊕ Expr)) [] follow (Sum.elim (fun _ => False) P) := .pure ha
  unfold spineStep
  split
  · rename_i hten
    subst hten
    refine .current fun k hk => ?_
    split
    · rename_i hdot
      exact absurd (hk.symm.trans hdot) (h.ne (by decide))
    · rename_i hbracket
      exact absurd (hk.symm.trans hbracket) (h.ne (by decide))
    · rename_i hparen
      exact absurd (hk.symm.trans hparen) (h.ne (by decide))
    · exact hend
  · split
    · rename_i hnine
      subst hnine
      refine .unseen (h.ne (by decide)) (.unseen (h.ne (by decide)) (.unseen (h.ne (by decide)) hend))
    · refine .current fun k hk => ?_
      rw [hk, List.nil_append, operators_eq_none h]
      exact hend

theorem ReachesBack.reads (hl : Looped least) (h : ReachesBack dialect total least ks e) :
    ReadsBack dialect total least ks e := fun nested hu follow hf =>
  (h nested hu follow (hf.mono (Nat.le_succ _))).done fun _ _ ha => spineStep_ends hl hf ha

/-- A loop that comes to an expression goes on to a larger one by a round. -/
theorem ReachesBack.more {t : Expr} (ht : ReachesBack dialect total least ks t) {k : TokenKind}
    (hpull : k.pull ≤ least + 1)
    (hstep : ∀ nested, Unfolds dialect total (ks ++ k :: ks').length nested → ∀ follow, Ends (least + 1) follow →
      ∀ line a, t.Matches a →
        Takes total (spineStep dialect nested least line a) (k :: ks') follow (Sum.elim e.Matches fun _ => False)) :
    ReachesBack dialect total least (ks ++ k :: ks') e := fun nested hu follow hf =>
  (ht nested (hu.mono (by simp)) (k :: ks' ++ follow) hpull).more (by simp) (hstep nested hu follow hf)

theorem ReadsBack.to_chained (hc : Chained least) (h : ReadsBack dialect total (least + 1) ks e) :
    ReachesBack dialect total least ks e := by
  intro nested hu follow hf
  rw [reader_of_chained hc]
  exact .current fun k _ => .bind_last (h nested hu follow hf) fun a ha => .repeating _ _ ha

/-! From a level to the one below it. -/

/-- One more comparison, or the end of them. -/
def comparedStep (operand : Parser Expr) (rest : List (CompareOp × Expr)) :
    Parser (List (CompareOp × Expr) ⊕ List (CompareOp × Expr)) := do
  match ← comparison? with
  | none => return .inr rest.reverse
  | some op => return .inl ((op, ← operand) :: rest)

theorem compared_eq : compared dialect nested = (do
    let line := (← current).line
    let first ← sum dialect nested
    let rest ← repeating (comparedStep (sum dialect nested)) []
    return if rest.isEmpty then first else .compare line first rest) := rfl

/-- One more condition, or the end of them. -/
def conditionStep (dialect : Dialect) (nested : Entry → Parser Expr) (line : Nat) (value : Expr) :
    Parser (Expr ⊕ Expr) := do
  if ← skipWord "if" then
    let test ← disjunction dialect nested
    let otherwise ← if ← skipWord "else" then some <$> nested .conditional else pure none
    return .inl (.cond line value test otherwise)
  return .inr value

theorem conditional_eq : conditional dialect nested = (do
    let line := (← current).line
    let first ← disjunction dialect nested
    repeating (conditionStep dialect nested line) first) := rfl

theorem Opens.ahead (h : Opens least ks) (follow : List TokenKind) : (ahead (ks ++ follow)).starts ∧
    (4 ≤ least → ahead (ks ++ follow) ≠ .name "not") ∧
    (10 ≤ least → ahead (ks ++ follow) ≠ .operator .plus ∧ ahead (ks ++ follow) ≠ .operator .minus) := by
  obtain ⟨k, rest, rfl, hk, hnot, hsign, -⟩ := h
  exact ⟨hk, hnot, hsign⟩

theorem takes_comparison_none (h : Ends 4 follow) : Takes total comparison? [] follow (· = none) := by
  refine .current fun k hk => .following fun k' _ => ?_
  have hne : ∀ {kind : TokenKind}, 4 < kind.pull → k.kind ≠ kind := fun hpull hkind =>
    h.ne hpull (hk.symm.trans hkind)
  dsimp only
  split
  case h_7 word word' hword hword' =>
    split
    · rename_i hin
      exact absurd (hin ▸ hword) (hne (by decide))
    · split
      · rename_i hnot
        have hnot : word = "not" := of_decide_eq_true (Bool.and_eq_true_iff.mp hnot).1
        exact absurd (hnot ▸ hword) (hne (by decide))
      · rw [pure_bind]
        exact .pure rfl
  case h_8 word hword _ =>
    split
    · rename_i hin
      exact absurd (hin ▸ hword) (hne (by decide))
    · rw [pure_bind]
      exact .pure rfl
  case h_9 =>
    rw [pure_bind]
    exact .pure rfl
  all_goals
    rename_i hkind
    exact absurd hkind (hne (by decide))

theorem ReadsBack.to_compared (h : ReadsBack dialect total 5 ks e) : ReadsBack dialect total 4 ks e := by
  intro nested hu follow hf
  change Takes total (compared dialect nested) ks follow _
  rw [compared_eq]
  refine .current fun k _ => .bind_last (h nested hu follow (hf.mono (by omega))) fun a ha => ?_
  have hloop : Takes total (repeating (comparedStep (sum dialect nested)) []) [] follow (· = []) := by
    have hstart : Arrives total (repeating (comparedStep (sum dialect nested)) [])
        (fun _ => comparedStep (sum dialect nested)) [] follow (· = []) := .loop rfl
    refine hstart.done ?_
    rintro _ _ rfl
    refine .bind_nil (takes_comparison_none hf) ?_
    rintro _ rfl
    exact .pure rfl
  refine .bind_nil hloop ?_
  rintro _ rfl
  exact .pure ha

theorem ReadsBack.to_negated (h : ReadsBack dialect total 4 ks e) (ho : Opens 4 ks) :
    ReadsBack dialect total 3 ks e := by
  intro nested hu follow hf
  refine .current fun k _ => .noSkip ((Opens.ahead ho follow).2.1 (Nat.le_refl 4)) ?_
  exact h nested hu follow (hf.mono (by omega))

theorem ReadsBack.to_conditional (h : ReadsBack dialect total 1 ks e) : ReadsBack dialect total 0 ks e := by
  intro nested hu follow hf
  change Takes total (conditional dialect nested) ks follow _
  rw [conditional_eq]
  refine .current fun k _ => .bind_last (h nested hu follow (hf.mono (by omega))) fun a ha => ?_
  have hstart : Arrives total (repeating (conditionStep dialect nested k.line) a) (conditionStep dialect nested) []
      follow e.Matches := .repeating _ _ ha
  exact hstart.done fun line a ha => .noSkip (hf.ne (by decide)) (.pure ha)

theorem ReadsBack.to_operand (h : ReadsBack dialect total 10 ks e) (ho : Opens 10 ks) :
    OperandBack dialect total ks e := by
  intro nested hu follow hf
  obtain ⟨hplus, hminus⟩ := (Opens.ahead ho follow).2.2 (Nat.le_refl 10)
  refine .current fun k hk => ?_
  dsimp only
  split
  · rename_i hkind
    exact absurd (hk.symm.trans hkind) hminus
  · rename_i hkind
    exact absurd (hk.symm.trans hkind) hplus
  · rw [← bind_assoc]
    exact .bind_last (h nested hu follow hf) fun a ha => .pure ha

/-- A filter applies to what a sign may stand in front of. -/
theorem unary_eq : unary dialect nested true = unary dialect nested false >>= filtered dialect nested := by
  unfold unary
  rw [bind_assoc]
  refine bind_congr fun token => ?_
  dsimp only
  split <;> simp only [bind_assoc, if_true, Bool.false_eq_true, if_false, pure_bind]

theorem OperandBack.reaches (h : OperandBack dialect total ks e) : ReachesBack dialect total 9 ks e := by
  intro nested hu follow hf
  change Arrives total (unary dialect nested true) _ ks follow _
  rw [unary_eq]
  refine .bind_last (h nested hu follow hf) fun a ha => ?_
  exact show Arrives total (repeating (filterStep dialect nested) a) _ [] follow e.Matches from .loop ha

/-- What a level reads, all levels below it read too, with loops that come to it. -/
theorem ReadsBack.below (hm : m ≤ 10) (h : ReadsBack dialect total m ks e) (ho : Opens m ks) :
    ∀ least < m, ReadsBack dialect total least ks e ∧ (Looped least → ReachesBack dialect total least ks e) := by
  induction m with
  | zero => exact fun least hlt => absurd hlt (Nat.not_lt_zero _)
  | succ m ih =>
    have hchained : Chained m → ReachesBack dialect total m ks e := h.to_chained
    have hnine : m = 9 → ReachesBack dialect total m ks e := by
      rintro rfl
      exact (h.to_operand ho).reaches
    have hread : ReadsBack dialect total m ks e := by
      by_cases hc : Chained m
      · exact (hchained hc).reads (.inl hc)
      by_cases h9 : m = 9
      · exact (hnine h9).reads (.inr (.inl h9))
      obtain rfl | rfl | rfl : m = 0 ∨ m = 3 ∨ m = 4 := by
        unfold Chained at hc
        omega
      · exact h.to_conditional
      · exact h.to_negated ho
      · exact h.to_compared
    intro least hlt
    rcases Nat.lt_succ_iff_lt_or_eq.mp hlt with hlt | rfl
    · exact ih (by omega) hread (ho.mono (Nat.le_succ _)) least hlt
    · refine ⟨hread, ?_⟩
      rintro (hc | h9 | h10)
      · exact hchained hc
      · exact hnine h9
      · omega

end Stencil.Parser
