import Stencil.Proofs.Template.LexingWork
import Stencil.Render.Environment

/-!
What reading a tree costs. Every round of a loop and every nested production is paid for by the tokens that
are passed over, so a tree is read in time linear in the number of its tokens and the fuel is never used up.
-/

namespace Stencil
namespace Parser

/-- The work so far, and sixteen units of work for each token ahead. -/
def State.worth (s : State) : Int := s.work + 16 * s.rest.length

/-- Less than `n` tokens are ahead, and the worth is at most `k` over `R`. -/
structure State.Within (R : Int) (n : Nat) (k : Int) (s : State) : Prop where
  rest : s.rest.length < n
  total : s.rest.length ≤ s.total
  worth : s.worth ≤ R + k

/-- A run from a state has fuel enough: it ends as `Q` says, or in a fault, for which the work is limited. -/
def Spends (R : Int) {α : Type} (s : State) (x : Parser α) (Q : State → α → Prop) : Prop :=
  match x.run s with
  | .ok a s' => Q s' a
  | .error (.malformed _) s' => (s'.work : Int) ≤ R + 32
  | .error .exhausted _ => False

section

variable {α β : Type} {R k l : Int} {m n : Nat} {s : State} {x : Parser α} {f : α → Parser β}
  {P Q : State → α → Prop} {T : State → β → Prop}

theorem State.Within.mono (h : s.Within R m k) (hmn : m ≤ n) (hkl : k ≤ l) : s.Within R n l := by
  have hrest := h.rest
  have hworth := h.worth
  exact ⟨by omega, h.total, by omega⟩

theorem State.Within.work_le (h : s.Within R m k) (hk : k ≤ 32) : (s.work : Int) ≤ R + 32 := by
  have hworth := h.worth
  unfold State.worth at hworth
  omega

namespace Spends

theorem pure {a : α} (h : Q s a) : Spends R s (Pure.pure a) Q := h

theorem bind (hx : Spends R s x P) (hf : ∀ a s', P s' a → Spends R s' (f a) T) : Spends R s (x >>= f) T := by
  unfold Spends at hx ⊢
  rw [EStateM.run_bind]
  cases hrun : x.run s with
  | ok a s' =>
    rw [hrun] at hx
    exact hf a s' hx
  | error e s' =>
    rw [hrun] at hx
    cases e with
    | malformed e => exact hx
    | exhausted => exact hx

theorem mono (hx : Spends R s x P) (h : ∀ a s', P s' a → Q s' a) : Spends R s x Q := by
  rw [← bind_pure x]
  exact hx.bind fun a s' ha => .pure (h a s' ha)

theorem map {g : α → β} (hx : Spends R s x P) (h : ∀ a s', P s' a → T s' (g a)) : Spends R s (g <$> x) T := by
  rw [map_eq_pure_bind]
  exact hx.bind fun a s' ha => .pure (h a s' ha)

theorem current {f : Token → Parser β} (h : Spends R s (f s.current) T) : Spends R s (current >>= f) T := h

theorem following {f : Token → Parser β} (h : ∀ k, Spends R s (f k) T) : Spends R s (following >>= f) T := h _

theorem get {f : State → Parser β} (h : Spends R s (f s) T) : Spends R s (MonadState.get >>= f) T := h

theorem sees {kind : TokenKind} {f : Bool → Parser β}
    (h : ∀ b, (b = true → s.current.kind = kind) → Spends R s (f b) T) : Spends R s (sees kind >>= f) T :=
  h _ fun hb => of_decide_eq_true hb

theorem failAt {line : Nat} {cause : SyntaxCause} (h : s.Within R m k) (hk : k ≤ 32) :
    Spends R s (failAt (α := α) line cause) Q := h.work_le hk

theorem fail {cause : SyntaxCause} (h : s.Within R m k) (hk : k ≤ 32) : Spends R s (fail (α := α) cause) Q :=
  h.work_le hk

theorem tick (h : s.Within R m k) : Spends R s tick fun s' _ => s'.Within R m (k + 1) := by
  have hworth := h.worth
  refine ⟨h.rest, h.total, ?_⟩
  change ((s.work + 1 : Nat) : Int) + 16 * s.rest.length ≤ _
  unfold State.worth at hworth
  omega

/-- Without fuel nothing can be ahead. -/
theorem absurd (h : s.Within R 0 k) : Spends R s x Q := by
  have hrest := h.rest
  omega

/-- A step that is taken only under a condition. -/
theorem stepIf {I : State → Prop} {c : Prop} [Decidable c] {y : Parser β} (hx : Spends R s x fun s' _ => I s')
    (hs : I s) (hy : ∀ s', I s' → Spends R s' y T) : Spends R s (if c then x >>= fun _ => y else y) T := by
  split
  · exact hx.bind fun _ => hy
  · exact hy s hs

theorem mapM {γ δ : Type} {f : γ → Parser δ} {I : State → Prop} {as : List γ}
    (hf : ∀ a s, I s → Spends R s (f a) fun s' _ => I s') (h : I s) : Spends R s (as.mapM f) fun s' _ => I s' := by
  induction as generalizing s with
  | nil => exact .pure h
  | cons a as ih =>
    rw [List.mapM_cons]
    exact (hf a s h).bind fun b s₁ h₁ => (ih h₁).bind fun bs s₂ h₂ => .pure h₂

end Spends

theorem spends_next (h : s.Within R m k) : Spends R s next fun s' _ => s'.Within R m k := by
  refine .get ?_
  split
  · exact h
  · have hlength : (s.rest.drop 1).length ≤ s.rest.length := by
      rw [List.length_drop]
      omega
    have hrest := h.rest
    have htotal := h.total
    have hworth := h.worth
    refine ⟨Nat.lt_of_le_of_lt hlength hrest, Nat.le_trans hlength htotal, ?_⟩
    change (s.work : Int) + 16 * (s.rest.drop 1).length ≤ _
    unfold State.worth at hworth
    omega

/-- A token that is passed over pays for sixteen units of work. -/
theorem spends_next_pays (h : s.Within R m k) (hs : s.current.kind ≠ .eof) :
    Spends R s next fun s' _ => s'.Within R (m - 1) (k - 16) := by
  refine .get ?_
  split
  · rename_i hend
    exact (hs hend).elim
  · have hpos : 0 < s.rest.length := by
      rw [List.length_pos_iff]
      intro hnil
      exact hs (by simp [State.current, hnil])
    have hlength : (s.rest.drop 1).length = s.rest.length - 1 := List.length_drop
    have hrest := h.rest
    have htotal := h.total
    have hworth := h.worth
    refine ⟨?_, ?_, ?_⟩
    · change (s.rest.drop 1).length < m - 1
      omega
    · change (s.rest.drop 1).length ≤ s.total
      omega
    · change (s.work : Int) + 16 * (s.rest.drop 1).length ≤ _
      unfold State.worth at hworth
      omega

theorem spends_skipIf {kind : TokenKind} (hkind : kind ≠ .eof) (h : s.Within R m k) :
    Spends R s (skipIf kind) fun s' b => (b = true → s'.Within R (m - 1) (k - 16)) ∧ s'.Within R m k := by
  refine .sees fun seen hseen => ?_
  split
  · rename_i hb
    refine (spends_next_pays h (hseen hb ▸ hkind)).bind fun _ s₁ h₁ => .pure ⟨fun _ => h₁, ?_⟩
    exact h₁.mono (by omega) (by omega)
  · exact .pure ⟨nofun, h⟩

theorem spends_expected {kind : TokenKind} (hkind : kind ≠ .eof) {cause : TokenKind → SyntaxCause}
    (h : s.Within R m k) (hk : k ≤ 32) :
    Spends R s (do if ← sees kind then next else fail (cause (← current).kind))
      fun s' _ => s'.Within R (m - 1) (k - 16) := by
  refine .sees fun seen hseen => ?_
  split
  · rename_i hb
    exact spends_next_pays h (hseen hb ▸ hkind)
  · exact .current (.fail h hk)

theorem spends_expectOp {op : Operator} (h : s.Within R m k) (hk : k ≤ 32) :
    Spends R s (expectOp op) fun s' _ => s'.Within R (m - 1) (k - 16) := spends_expected (by simp) h hk

theorem spends_expectWord {word : String} (h : s.Within R m k) (hk : k ≤ 32) :
    Spends R s (expectWord word) fun s' _ => s'.Within R (m - 1) (k - 16) := spends_expected (by simp) h hk

theorem spends_expectTagEnd {tag : TagKind} (h : s.Within R m k) (hk : k ≤ 32) :
    Spends R s (expectTagEnd tag) fun s' _ => s'.Within R (m - 1) (k - 16) := by
  refine .sees fun seen hseen => ?_
  split
  · rename_i hb
    exact (spends_next_pays h (by rw [hseen hb]; nofun)).bind fun _ s₁ h₁ => .pure h₁
  · exact .current (.fail h hk)

theorem spends_expectName (h : s.Within R m k) (hk : k ≤ 32) :
    Spends R s expectName fun s' _ => s'.Within R (m - 1) (k - 16) := by
  refine .current ?_
  split
  · rename_i word hword
    exact (spends_next_pays h (by rw [hword]; nofun)).bind fun _ s₁ h₁ => .pure h₁
  · exact .fail h hk

/-! ## Loops -/

/-- A loop whose rounds go on only if they pass over a token: the token pays for the round. -/
theorem spends_iterate {step : α → Parser (α ⊕ β)}
    (hstep : ∀ m s a, m ≤ n → s.Within R m (k + 1) →
      Spends R s (step a) fun s' r => r.elim (fun _ => s'.Within R (m - 1) k) (T s'))
    (fuel : Nat) {a : α} (hfuel : m ≤ fuel) (hm : m ≤ n) (h : s.Within R m k) :
    Spends R s (iterate step fuel a) T := by
  induction fuel generalizing s a m with
  | zero =>
    have hzero : m = 0 := by omega
    subst hzero
    exact .absurd h
  | succ fuel ih =>
    refine (Spends.tick h).bind fun _ s₁ h₁ => ?_
    refine (hstep m s₁ a hm h₁).bind fun r s₂ h₂ => ?_
    cases r with
    | inl a => exact ih (by omega) (by omega) h₂
    | inr b => exact .pure h₂

theorem spends_repeating {step : α → Parser (α ⊕ β)} {a : α}
    (hstep : ∀ m s a, m ≤ n → s.Within R m (k + 1) →
      Spends R s (step a) fun s' r => r.elim (fun _ => s'.Within R (m - 1) k) (T s'))
    (h : s.Within R n k) : Spends R s (repeating step a) T := by
  have hrest := h.rest
  have htotal := h.total
  have hshort : s.Within R (s.rest.length + 1) k := ⟨Nat.lt_succ_self _, htotal, h.worth⟩
  exact .get (spends_iterate hstep _ (Nat.succ_le_succ htotal) hrest hshort)

/-- A parser that passes over a token, which pays for `c` units of work more than it takes. -/
def Pays (R : Int) (n : Nat) (top c : Int) (x : Parser α) : Prop :=
  ∀ ⦃m k s⦄, m ≤ n → k ≤ top → s.Within R m k → Spends R s x fun s' _ => s'.Within R (m - 1) (k - c)

/-- A parser that takes at most `c` units of work more than the tokens pay for that it passes over. -/
def Costs (R : Int) (n : Nat) (top c : Int) (x : Parser α) : Prop :=
  ∀ ⦃m k s⦄, m ≤ n → k ≤ top → s.Within R m k → Spends R s x fun s' _ => s'.Within R m (k + c)

theorem Pays.costs {top c : Int} (hx : Pays R n top c x) (hc : 0 ≤ c) : Costs R n top 0 x := by
  intro m k s hm hk h
  exact (hx hm hk h).mono fun _ s₁ h₁ => h₁.mono (by omega) (by omega)

theorem Pays.map {top c : Int} {g : α → β} (hx : Pays R n top c x) : Pays R n top c (g <$> x) :=
  fun _ _ _ hm hk h => (hx hm hk h).map fun _ _ h₁ => h₁

theorem costs_repeating (top : Int) {step : α → Parser (α ⊕ β)} {a : α}
    (hstep : ∀ m k s a, m ≤ n → k ≤ top → s.Within R m (k + 1) →
      Spends R s (step a) fun s' r => r.elim (fun _ => s'.Within R (m - 1) k) fun _ => s'.Within R m (k + 1)) :
    Costs R n top 1 (repeating step a) := by
  intro m k s hm hk h
  refine spends_repeating (n := m) (fun m' s a hm' h' => ?_) h
  refine (hstep m' k s a (by omega) hk h').mono fun r s₁ h₁ => ?_
  cases r with
  | inl a => exact h₁
  | inr b => exact h₁.mono hm' (by omega)

theorem pays_bracketed {close : Operator} {item : List α → Parser α} (hitem : ∀ items, Pays R n 18 1 (item items)) :
    Pays R n 17 15 (bracketed close item) := by
  have hloop : Costs R n 17 1 (repeating (fun (items : List α) => do
      if ← seesOp close then return .inr items.reverse
      if !items.isEmpty then
        let _ ← expectOp .comma
        if ← seesOp close then return .inr items.reverse
      return .inl ((← item items) :: items)) ([] : List α)) := by
    refine costs_repeating _ fun m k s items hm hk h => ?_
    have more : ∀ s : State, s.Within R m (k + 1) → Spends R s (do return .inl ((← item items) :: items))
        fun s' (r : List α ⊕ List α) => r.elim (fun _ => s'.Within R (m - 1) k) fun _ => s'.Within R m (k + 1) := by
      intro s h
      refine (hitem items hm (by omega) h).bind fun a s₁ h₁ => .pure ?_
      exact h₁.mono (Nat.le_refl _) (by omega)
    refine .sees fun closed _ => ?_
    split
    · exact .pure h
    · dsimp only
      split
      · refine (spends_expectOp h (by omega)).bind fun _ s₁ h₁ => ?_
        have h₂ : s₁.Within R m (k + 1) := h₁.mono (by omega) (by omega)
        refine .sees fun closed _ => ?_
        split
        · exact .pure h₂
        · exact more s₁ h₂
      · exact more s h
  intro m k s hm hk h
  refine (hloop hm hk h).bind fun items s₁ h₁ => ?_
  refine (spends_expectOp h₁ (by omega)).bind fun _ s₂ h₂ => .pure ?_
  exact h₂.mono (Nat.le_refl _) (by omega)

/-- Each level of operators takes one more round, in which its loop ends. -/
theorem pays_chain {c : Int} (hc : 0 ≤ c) {operand : Parser Expr}
    {operator? : TokenKind → Option (Nat → Expr → Expr → Expr)} (hend : operator? .eof = none)
    (hoperand : Pays R n 20 c operand) : Pays R n 20 (c - 1) (chain operand operator?) := by
  intro m k s hm hk h
  refine .current ((hoperand hm hk h).bind fun first s₁ h₁ => ?_)
  refine (costs_repeating (n := n) 20 (fun m k s left hm hk h => ?_) (by omega) (by omega) h₁).mono
    fun _ s₂ h₂ => h₂.mono (Nat.le_refl _) (by omega)
  refine .current ?_
  split
  · exact .pure h
  · rename_i combine hcombine
    have hlive : s.current.kind ≠ .eof := by
      intro heq
      rw [heq, hend] at hcombine
      cases hcombine
    refine (spends_next_pays h hlive).bind fun _ s₁ h₁ => ?_
    refine (hoperand (by omega) (by omega) h₁).bind fun right s₂ h₂ => .pure ?_
    exact h₂.mono (by omega) (by omega)

theorem costs_stringRun {first : Text} : Costs R n 20 1 (stringRun first) := by
  refine costs_repeating _ fun m k s value hm hk h => ?_
  refine .current ?_
  split
  · rename_i more hmore
    refine (spends_next_pays h (by rw [hmore]; nofun)).bind fun _ s₁ h₁ => .pure ?_
    exact h₁.mono (Nat.le_refl _) (by omega)
  · exact .pure h

end

/-! ## Expressions -/

section

variable {dialect : Dialect} {nested : Entry → Parser Expr} {R : Int} {n : Nat}

/-- What stands deeper passes over a token, except between parentheses, where nothing need stand. -/
structure Nested (R : Int) (n : Nat) (nested : Entry → Parser Expr) : Prop where
  parenthesized : Costs R n 18 2 (nested .parenthesized)
  operand : ∀ e, e ≠ .parenthesized → Pays R n 18 4 (nested e)

section

variable (hn : Nested R n nested)
include hn

theorem Nested.conditional : Pays R n 18 4 (nested .conditional) := hn.operand .conditional nofun

theorem pays_primary : Pays R (n + 1) 20 15 (primary nested) := by
  intro m k s hm hk h
  refine .current ?_
  dsimp only
  split
  · rename_i word hword
    refine (spends_next_pays h (by rw [hword]; nofun)).bind fun _ s₁ h₁ => ?_
    have h₂ : s₁.Within R (m - 1) (k - 15) := h₁.mono (Nat.le_refl _) (by omega)
    split
    · exact .pure h₂
    · exact .pure h₂
  · rename_i value hvalue
    refine (spends_next_pays h (by rw [hvalue]; nofun)).bind fun _ s₁ h₁ => ?_
    refine (costs_stringRun (Nat.le_refl _) (by omega) h₁).bind fun _ s₂ h₂ => .pure ?_
    exact h₂.mono (Nat.le_refl _) (by omega)
  · rename_i spelling hspelling
    refine (spends_next_pays h (by rw [hspelling]; nofun)).bind fun _ s₁ h₁ => .pure ?_
    exact h₁.mono (Nat.le_refl _) (by omega)
  · rename_i spelling hspelling
    refine (spends_next_pays h (by rw [hspelling]; nofun)).bind fun _ s₁ h₁ => .pure ?_
    exact h₁.mono (Nat.le_refl _) (by omega)
  · rename_i hparen
    refine (spends_next_pays h (by rw [hparen]; nofun)).bind fun _ s₁ h₁ => ?_
    refine (hn.parenthesized (by omega) (by omega) h₁).bind fun inner s₂ h₂ => ?_
    refine (spends_expectOp h₂ (by omega)).bind fun _ s₃ h₃ => .pure ?_
    exact h₃.mono (by omega) (by omega)
  · rename_i hbracket
    refine (spends_next_pays h (by rw [hbracket]; nofun)).bind fun _ s₁ h₁ => ?_
    refine (pays_bracketed (n := n) (fun _ => ?_) (by omega) (by omega) h₁).bind fun items s₂ h₂ => .pure ?_
    · exact fun _ _ _ hm hk h => (hn.conditional hm hk h).mono fun _ s₁ h₁ => h₁.mono (Nat.le_refl _) (by omega)
    · exact h₂.mono (by omega) (by omega)
  · rename_i hbrace
    refine (spends_next_pays h (by rw [hbrace]; nofun)).bind fun _ s₁ h₁ => ?_
    refine (pays_bracketed (n := n) (fun _ => ?_) (by omega) (by omega) h₁).bind fun entries s₂ h₂ => .pure ?_
    · intro m k s hm hk h
      refine (hn.conditional hm hk h).bind fun key s₁ h₁ => ?_
      refine (spends_expectOp h₁ (by omega)).bind fun _ s₂ h₂ => ?_
      refine (hn.conditional (by omega) (by omega) h₂).bind fun value s₃ h₃ => .pure ?_
      exact h₃.mono (by omega) (by omega)
    · exact h₂.mono (by omega) (by omega)
  · exact .fail h (by omega)

theorem pays_argument {earlier : List (Option Text × Expr)} : Pays R n 18 1 (argument nested earlier) := by
  intro m k s hm hk h
  refine .current (.following fun after => ?_)
  split
  · rename_i word hword _
    refine (spends_next_pays h (by rw [hword]; nofun)).bind fun _ s₁ h₁ => ?_
    refine (spends_next h₁).bind fun _ s₂ h₂ => ?_
    refine (hn.conditional (by omega) (by omega) h₂).bind fun e s₃ h₃ => .pure ?_
    exact h₃.mono (by omega) (by omega)
  · dsimp only
    split
    · exact (Spends.fail (Q := fun _ _ => False) h (by omega)).bind fun _ _ hfalse => hfalse.elim
    · refine (hn.conditional hm hk h).bind fun e s₁ h₁ => .pure ?_
      exact h₁.mono (Nat.le_refl _) (by omega)

theorem pays_arguments : Pays R (n + 1) 20 16 (arguments nested) := by
  intro m k s hm hk h
  refine (spends_expectOp h (by omega)).bind fun _ s₁ h₁ => ?_
  refine (pays_bracketed (n := n) (fun _ => pays_argument hn) (by omega) (by omega) h₁).bind fun all s₂ h₂ => .pure ?_
  exact h₂.mono (by omega) (by omega)

theorem costs_optionalArguments : Costs R (n + 1) 20 0 (optionalArguments nested) := by
  intro m k s hm hk h
  refine .sees fun seen _ => ?_
  split
  · exact (pays_arguments hn).costs (by omega) hm hk h
  · exact .pure (h.mono (Nat.le_refl _) (by omega))

theorem pays_callOf {callee : Expr} : Pays R (n + 1) 20 16 (callOf nested callee) := by
  intro m k s hm hk h
  exact .current ((pays_arguments hn hm hk h).bind fun a s₁ h₁ => .pure h₁)

theorem costs_sliceBound : Costs R n 18 0 (sliceBound nested) := by
  intro m k s hm hk h
  refine .sees fun _ _ => .sees fun _ _ => ?_
  split
  · exact .pure (h.mono (Nat.le_refl _) (by omega))
  · exact (hn.conditional.costs (by omega) hm hk h).bind fun e s₁ h₁ => .pure h₁

theorem costs_firstBound : Costs R n 18 0 (firstBound nested) := by
  intro m k s hm hk h
  refine .sees fun _ _ => ?_
  split
  · exact .pure (h.mono (Nat.le_refl _) (by omega))
  · exact (hn.conditional.map).costs (by omega) hm hk h

theorem costs_lastBound : Costs R n 18 0 (lastBound nested) := by
  intro m k s hm hk h
  refine (spends_skipIf (by nofun) h).bind fun colon s₁ h₁ => ?_
  split
  · exact costs_sliceBound hn hm hk h₁.2
  · exact .pure (h₁.2.mono (Nat.le_refl _) (by omega))

theorem costs_subscript {line : Nat} {target : Expr} : Costs R n 18 0 (subscript nested line target) := by
  intro m k s hm hk h
  rw [subscript_eq]
  refine (costs_firstBound hn hm hk h).bind fun start s₁ h₁ => .sees fun _ _ => ?_
  split
  · refine (spends_next h₁).bind fun _ s₂ h₂ => (costs_sliceBound hn hm (by omega) h₂).bind fun stop s₃ h₃ => ?_
    refine (costs_lastBound hn hm (by omega) h₃).bind fun step s₄ h₄ => .pure ?_
    exact h₄.mono (Nat.le_refl _) (by omega)
  · cases start with
    | some key => exact .pure h₁
    | none => exact .pure h₁

omit hn in
theorem costs_memberOf {line : Nat} {target : Expr} : Costs R n 20 0 (memberOf line target) := by
  intro m k s hm hk h
  refine (spends_next h).bind fun token s₁ h₁ => ?_
  have h₂ : s₁.Within R m (k + 0) := h₁.mono (Nat.le_refl _) (by omega)
  split
  · exact .pure h₂
  · exact .pure h₂
  · exact .failAt h₂ (by omega)

theorem costs_postfixed {first : Expr} : Costs R (n + 1) 19 1 (postfixed nested first) := by
  refine costs_repeating _ fun m k s target hm hk h => .current ?_
  split
  · rename_i hdot
    refine (spends_next_pays h (by rw [hdot]; nofun)).bind fun _ s₁ h₁ => ?_
    refine (costs_memberOf (Nat.le_refl _) (by omega) h₁).bind fun e s₂ h₂ => .pure ?_
    exact h₂.mono (by omega) (by omega)
  · rename_i hbracket
    refine (spends_next_pays h (by rw [hbracket]; nofun)).bind fun _ s₁ h₁ => ?_
    refine (costs_subscript hn (by omega) (by omega) h₁).bind fun e s₂ h₂ => ?_
    refine (spends_expectOp h₂ (by omega)).bind fun _ s₃ h₃ => .pure ?_
    exact h₃.mono (by omega) (by omega)
  · refine (pays_callOf hn hm (by omega) h).bind fun e s₁ h₁ => .pure ?_
    exact h₁.mono (Nat.le_refl _) (by omega)
  · exact .pure h

theorem pays_filterOf {target : Expr} : Pays R (n + 1) 20 16 (filterOf dialect nested target) := by
  intro m k s hm hk h
  refine (spends_expectOp h (by omega)).bind fun token s₁ h₁ => ?_
  refine (spends_expectName h₁ (by omega)).bind fun name s₂ h₂ => ?_
  dsimp only
  split
  · exact (Spends.failAt (Q := fun _ _ => False) h₂ (by omega)).bind fun _ _ hfalse => hfalse.elim
  · refine (costs_optionalArguments hn (by omega) (by omega) h₂).bind fun a s₃ h₃ => .pure ?_
    exact h₃.mono (by omega) (by omega)

theorem pays_testOf {target : Expr} : Pays R (n + 1) 20 16 (testOf dialect nested target) := by
  intro m k s hm hk h
  refine (spends_expectWord h (by omega)).bind fun token s₁ h₁ => ?_
  refine (spends_skipIf (by nofun) h₁).bind fun negated s₂ h₂ => ?_
  refine (spends_expectName h₂.2 (by omega)).bind fun name s₃ h₃ => ?_
  dsimp only
  split
  · exact (Spends.failAt (Q := fun _ _ => False) h₃ (by omega)).bind fun _ _ hfalse => hfalse.elim
  · refine .sees fun paren _ => .current ?_
    split
    · refine (pays_arguments hn (by omega) (by omega) h₃).bind fun a s₄ h₄ => .pure ?_
      exact h₄.mono (by omega) (by omega)
    · split
      · refine (pays_primary hn (by omega) (by omega) h₃).bind fun first s₄ h₄ => ?_
        refine (costs_postfixed hn (by omega) (by omega) h₄).bind fun e s₅ h₅ => .pure ?_
        exact h₅.mono (by omega) (by omega)
      · exact .pure (h₃.mono (by omega) (by omega))

theorem costs_filtered {first : Expr} : Costs R (n + 1) 19 1 (filtered dialect nested first) := by
  refine costs_repeating _ fun m k s target hm hk h => .sees fun pipe _ => ?_
  split
  · refine (pays_filterOf hn hm (by omega) h).bind fun e s₁ h₁ => .pure ?_
    exact h₁.mono (Nat.le_refl _) (by omega)
  · refine .sees fun word _ => ?_
    split
    · refine (pays_testOf hn hm (by omega) h).bind fun e s₁ h₁ => .pure ?_
      exact h₁.mono (Nat.le_refl _) (by omega)
    · refine .sees fun paren _ => ?_
      split
      · refine (pays_callOf hn hm (by omega) h).bind fun e s₁ h₁ => .pure ?_
        exact h₁.mono (Nat.le_refl _) (by omega)
      · exact .pure h

theorem pays_unary {withFilter : Bool} : Pays R (n + 1) 20 13 (unary dialect nested withFilter) := by
  intro m k s hm hk h
  have rest : ∀ first s', s'.Within R (m - 1) (k - 15) → Spends R s' (do
      let e ← postfixed nested first
      if withFilter then filtered dialect nested e else return e) fun s' _ => s'.Within R (m - 1) (k - 13) := by
    intro first s' h'
    refine (costs_postfixed hn (by omega) (by omega) h').bind fun e s₁ h₁ => ?_
    split
    · refine (costs_filtered hn (by omega) (by omega) h₁).mono fun _ s₂ h₂ => ?_
      exact h₂.mono (Nat.le_refl _) (by omega)
    · exact .pure (h₁.mono (Nat.le_refl _) (by omega))
  have signed : ∀ sign line, s.current.kind ≠ .eof → Spends R s (do
      let _ ← next
      let first ← pure (Expr.signed line sign (← nested .signed))
      let e ← postfixed nested first
      if withFilter then filtered dialect nested e else return e) fun s' _ => s'.Within R (m - 1) (k - 13) := by
    intro sign line hlive
    refine (spends_next_pays h hlive).bind fun _ s₁ h₁ => ?_
    refine (hn.operand .signed nofun (by omega) (by omega) h₁).bind fun e s₂ h₂ => rest _ s₂ ?_
    exact h₂.mono (by omega) (by omega)
  refine .current ?_
  dsimp only
  split
  · rename_i hminus
    exact signed .minus _ (by rw [hminus]; nofun)
  · rename_i hplus
    exact signed .plus _ (by rw [hplus]; nofun)
  · exact (pays_primary hn hm hk h).bind rest

theorem pays_power : Pays R (n + 1) 20 12 (power dialect nested) := pays_chain (by omega) rfl (pays_unary hn)

theorem pays_product : Pays R (n + 1) 20 11 (product dialect nested) := pays_chain (by omega) rfl (pays_power hn)

theorem pays_concatenation : Pays R (n + 1) 20 10 (concatenation dialect nested) :=
  pays_chain (by omega) rfl (pays_product hn)

theorem pays_sum : Pays R (n + 1) 20 9 (sum dialect nested) := pays_chain (by omega) rfl (pays_concatenation hn)

omit hn in
/-- A comparison ahead is passed over. -/
theorem spends_comparison? {m : Nat} {k : Int} {s : State} (h : s.Within R m k) :
    Spends R s comparison? fun s' op? => (op?.isSome → s'.Within R (m - 1) (k - 16)) ∧ s'.Within R m k := by
  have rest : ∀ op? : Option CompareOp, (op?.isSome → s.current.kind ≠ .eof) → Spends R s (do
      if op?.isSome then
        let _ ← next
      return op?) fun s' op? => (op?.isSome → s'.Within R (m - 1) (k - 16)) ∧ s'.Within R m k := by
    intro op? hlive
    split
    · rename_i hop
      refine (spends_next_pays h (hlive hop)).bind fun _ s₁ h₁ => .pure ⟨fun _ => h₁, ?_⟩
      exact h₁.mono (by omega) (by omega)
    · rename_i hop
      exact .pure ⟨fun hsome => (hop hsome).elim, h⟩
  refine .current (.following fun after => ?_)
  dsimp only
  split
  case h_7 word word' hword hafter =>
    have hlive : s.current.kind ≠ .eof := by rw [hword]; nofun
    split
    · exact rest (some .isIn) fun _ => hlive
    · split
      · refine (spends_next_pays h hlive).bind fun _ s₁ h₁ => ?_
        have h₂ : s₁.Within R m k := h₁.mono (by omega) (by omega)
        refine (spends_next h₁).bind fun _ s₃ h₃ => .pure ⟨fun _ => h₃, ?_⟩
        exact h₃.mono (by omega) (by omega)
      · exact rest none fun _ => hlive
  case h_8 word hword _ =>
    exact rest _ fun _ => by rw [hword]; nofun
  case h_9 => exact rest none nofun
  all_goals
    rename_i hop
    rw [pure_bind]
    exact rest _ fun _ => by rw [hop]; nofun

theorem pays_compared : Pays R (n + 1) 20 8 (compared dialect nested) := by
  intro m k s hm hk h
  refine .current ((pays_sum hn hm hk h).bind fun first s₁ h₁ => ?_)
  refine (costs_repeating (n := n) 20 (fun m k s rest hm hk h => ?_) (by omega) (by omega) h₁).bind
    fun _ s₂ h₂ => .pure (h₂.mono (Nat.le_refl _) (by omega))
  refine (spends_comparison? h).bind fun op? s₁ h₁ => ?_
  split
  · exact .pure h₁.2
  · refine (pays_sum hn (by omega) (by omega) (h₁.1 rfl)).bind fun e s₂ h₂ => .pure ?_
    exact h₂.mono (by omega) (by omega)

theorem pays_negated : Pays R (n + 1) 20 8 (negated dialect nested) := by
  intro m k s hm hk h
  refine .current ((spends_skipIf (by nofun) h).bind fun word s₁ h₁ => ?_)
  split
  · rename_i hword
    refine (hn.operand .negation nofun (by omega) (by omega) (h₁.1 hword)).bind fun e s₂ h₂ => .pure ?_
    exact h₂.mono (by omega) (by omega)
  · exact pays_compared hn hm hk h₁.2

theorem pays_conjunction : Pays R (n + 1) 20 7 (conjunction dialect nested) :=
  pays_chain (by omega) rfl (pays_negated hn)

theorem pays_disjunction : Pays R (n + 1) 20 6 (disjunction dialect nested) :=
  pays_chain (by omega) rfl (pays_conjunction hn)

theorem pays_conditional : Pays R (n + 1) 20 5 (conditional dialect nested) := by
  intro m k s hm hk h
  refine .current ((pays_disjunction hn hm hk h).bind fun first s₁ h₁ => ?_)
  refine (costs_repeating (n := n) 20 (fun m k s value hm hk h => ?_) (by omega) (by omega) h₁).mono
    fun _ s₂ h₂ => h₂.mono (Nat.le_refl _) (by omega)
  refine (spends_skipIf (by nofun) h).bind fun word s₁ h₁ => ?_
  split
  · rename_i hword
    refine (pays_disjunction hn (by omega) (by omega) (h₁.1 hword)).bind fun test s₂ h₂ => ?_
    refine (spends_skipIf (by nofun) h₂).bind fun word s₃ h₃ => ?_
    split
    · refine (hn.conditional.map (by omega) (by omega) h₃.2).bind fun e s₄ h₄ => .pure ?_
      exact h₄.mono (by omega) (by omega)
    · exact .pure (h₃.2.mono (by omega) (by omega))
  · exact .pure h₁.2

end

/-- One expression or several; no more than the round in which the items end is not paid for. -/
theorem costs_tuple {item : Parser Expr} {endWords : List Text} {parenthesized : Bool} (hitem : Pays R n 20 5 item) :
    Costs R n 19 1 (tuple item endWords parenthesized) := by
  intro m k s hm hk h
  refine .current ?_
  refine (costs_repeating (n := n) 19 (fun m k s items hm hk h => ?_) hm hk h).bind ?_
  · have comma : Spends R s (expectOp .comma) fun s' _ => s'.Within R m (k + 1) :=
      (spends_expectOp h (by omega)).mono fun _ s₁ h₁ => h₁.mono (by omega) (by omega)
    refine .stepIf comma h fun s₁ h₁ => .current ?_
    split
    · exact .pure h₁
    · refine (hitem hm (by omega) h₁).bind fun e s₂ h₂ => .sees fun comma _ => ?_
      split
      · exact .pure (h₂.mono (Nat.le_refl _) (by omega))
      · exact .pure (h₂.mono (by omega) (by omega))
  · rintro ⟨items, comma⟩ s₁ h₁
    dsimp only
    split
    · exact .pure h₁
    · split
      · exact .current ((Spends.fail (Q := fun _ _ => False) h₁ (by omega)).bind fun _ _ hfalse => hfalse.elim)
      · exact .pure h₁
    · exact .pure h₁

theorem nested_entryWithin (depth : Nat) : Nested R depth (entryWithin dialect depth) := by
  induction depth with
  | zero =>
    constructor
    · exact fun m k s hm hk h => .absurd (h.mono hm (Int.le_refl k))
    · exact fun e he m k s hm hk h => .absurd (h.mono hm (Int.le_refl k))
  | succ depth ih =>
    constructor
    · intro m k s hm hk h
      refine (Spends.tick h).bind fun _ s₁ h₁ => ?_
      refine (costs_tuple (pays_conditional ih) hm (by omega) h₁).mono fun _ s₂ h₂ => ?_
      exact h₂.mono (Nat.le_refl _) (by omega)
    · intro e he m k s hm hk h
      refine (Spends.tick h).bind fun _ s₁ h₁ => ?_
      cases e with
      | parenthesized => exact (he rfl).elim
      | conditional =>
        refine (pays_conditional ih hm (by omega) h₁).mono fun _ s₂ h₂ => ?_
        exact h₂.mono (Nat.le_refl _) (by omega)
      | negation =>
        refine (pays_negated ih hm (by omega) h₁).mono fun _ s₂ h₂ => ?_
        exact h₂.mono (Nat.le_refl _) (by omega)
      | signed =>
        refine (pays_unary ih hm (by omega) h₁).mono fun _ s₂ h₂ => ?_
        exact h₂.mono (Nat.le_refl _) (by omega)

/-- A nested production has levels enough, as it goes a level down only behind a token. -/
theorem nested_entry (n : Nat) : Nested R n (entry dialect) := by
  have short : ∀ {m k} {s : State}, s.Within R m k → s.Within R (min m (s.total + 1)) k := by
    intro m k s h
    have hrest := h.rest
    have htotal := h.total
    exact ⟨by omega, htotal, h.worth⟩
  constructor
  · intro m k s hm hk h
    refine .get (((nested_entryWithin (s.total + 1)).parenthesized (by omega) hk (short h)).mono fun _ s₁ h₁ => ?_)
    exact h₁.mono (by omega) (Int.le_refl _)
  · intro e he m k s hm hk h
    refine .get (((nested_entryWithin (s.total + 1)).operand e he (by omega) hk (short h)).mono fun _ s₁ h₁ => ?_)
    exact h₁.mono (by omega) (Int.le_refl _)

end

/-! ## Statements -/

section

variable {dialect : Dialect} {body : List Text → Parser (List Stmt)} {R : Int} {n : Nat}

theorem pays_condition : Pays R n 20 5 (conditional dialect (entry dialect)) :=
  fun _ _ _ hm hk h => pays_conditional (nested_entry n) (Nat.le_succ_of_le hm) hk h

theorem costs_target {endWords : List Text} : Costs R n 19 1 (target dialect endWords) := by
  intro m k s hm hk h
  have hprimary : Pays R n 20 5 (primary (entry dialect)) := by
    intro m k s hm hk h
    refine (pays_primary (nested_entry n) (Nat.le_succ_of_le hm) hk h).mono fun _ s₁ h₁ => ?_
    exact h₁.mono (Nat.le_refl _) (by omega)
  refine (costs_tuple hprimary hm hk h).bind fun e s₁ h₁ => ?_
  split
  · exact .pure h₁
  · refine (Spends.mapM (I := State.Within R m (k + 1)) (fun e s h => ?_) h₁).bind fun names s₂ h₂ => .pure h₂
    unfold nameOf
    split
    · exact .pure h
    · exact .failAt h (by omega)
  · exact .failAt h₁ (by omega)

theorem costs_iterable {endWords : List Text} :
    Costs R n 19 1 (tuple (disjunction dialect (entry dialect)) endWords false) := by
  refine costs_tuple fun m k s hm hk h => ?_
  refine (pays_disjunction (nested_entry n) (Nat.le_succ_of_le hm) hk h).mono fun _ s₁ h₁ => ?_
  exact h₁.mono (Nat.le_refl _) (by omega)

section

variable (hb : ∀ words, Costs R n 17 2 (body words))
include hb

theorem pays_bodyUntil {words : List String} : Pays R (n + 1) 19 14 (bodyUntil body words) := by
  intro m k s hm hk h
  refine (spends_expectTagEnd h (by omega)).bind fun _ s₁ h₁ => ?_
  refine (hb _ (by omega) (by omega) h₁).bind fun stmts s₂ h₂ => .sees fun ended _ => ?_
  split
  · exact (Spends.fail (Q := fun _ _ => False) h₂ (by omega)).bind fun _ _ hfalse => hfalse.elim
  · exact .pure (h₂.mono (Nat.le_refl _) (by omega))

theorem pays_lastBody {word : String} : Pays R (n + 1) 19 14 (lastBody body word) := by
  intro m k s hm hk h
  exact (pays_bodyUntil hb hm hk h).bind fun stmts s₁ h₁ => (spends_next h₁).bind fun _ s₂ h₂ => .pure h₂

theorem costs_branches {line : Nat} : Costs R (n + 1) 17 1 (branches dialect body line) := by
  refine costs_repeating _ fun m k s done hm hk h => ?_
  refine (costs_iterable (Nat.le_refl _) (by omega) h).bind fun test s₁ h₁ => ?_
  refine (pays_bodyUntil hb hm (by omega) h₁).bind fun stmts s₂ h₂ => (spends_next h₂).bind fun word s₃ h₃ => ?_
  dsimp only
  split
  · exact .pure (h₃.mono (Nat.le_refl _) (by omega))
  · split
    · refine (pays_lastBody hb (by omega) (by omega) h₃).bind fun otherwise s₄ h₄ => .pure ?_
      exact h₄.mono (by omega) (by omega)
    · exact .pure (h₃.mono (by omega) (by omega))

theorem costs_loop {line : Nat} : Costs R (n + 1) 17 1 (loop dialect body line) := by
  intro m k s hm hk h
  refine (costs_target (Nat.le_refl _) (by omega) h).bind fun target s₁ h₁ => ?_
  refine (spends_expectWord h₁ (by omega)).bind fun _ s₂ h₂ => ?_
  refine (costs_iterable (Nat.le_refl _) (by omega) h₂).bind fun iter s₃ h₃ => ?_
  refine (spends_skipIf (by nofun) h₃).bind fun word s₄ h₄ => ?_
  have rest : ∀ (filter : Option Expr) (s₅ : State), s₅.Within R m k → Spends R s₅ (do
      let stmts ← bodyUntil body ["endfor", "else"]
      let otherwise ← if (← next).kind = .name "else" then lastBody body "endfor" else pure []
      return .loop line target iter filter stmts otherwise : Parser Stmt) fun s' _ => s'.Within R m (k + 1) := by
    intro filter s₅ h₅
    refine (pays_bodyUntil hb hm (by omega) h₅).bind fun stmts s₆ h₆ => (spends_next h₆).bind fun k s₇ h₇ => ?_
    split
    · refine (pays_lastBody hb (by omega) (by omega) h₇).bind fun otherwise s₈ h₈ => .pure ?_
      exact h₈.mono (by omega) (by omega)
    · exact .pure (h₇.mono (by omega) (by omega))
  split
  · refine (pays_condition.map (Nat.le_refl _) (by omega) h₄.2).bind fun filter s₅ h₅ => rest filter s₅ ?_
    exact h₅.mono (by omega) (by omega)
  · exact rest none s₄ (h₄.2.mono (by omega) (by omega))

theorem costs_assignment {line : Nat} : Costs R (n + 1) 17 1 (assignment dialect body line) := by
  intro m k s hm hk h
  refine (costs_target (Nat.le_refl _) (by omega) h).bind fun target s₁ h₁ => ?_
  refine (spends_skipIf (by nofun) h₁).bind fun equals s₂ h₂ => ?_
  split
  · rename_i hequals
    refine (costs_tuple pays_condition (Nat.le_refl _) (by omega) (h₂.1 hequals)).bind fun e s₃ h₃ => .pure ?_
    exact h₃.mono (by omega) (by omega)
  · refine (pays_lastBody hb hm (by omega) h₂.2).bind fun stmts s₃ h₃ => .pure ?_
    exact h₃.mono (by omega) (by omega)

omit hb in
theorem costs_parameters : Costs R n 17 1 (parameters dialect) := by
  intro m k s hm hk h
  refine (spends_expectOp h (by omega)).bind fun _ s₁ h₁ => ?_
  refine (costs_repeating (n := m) 17 (fun m k s p hm hk h => ?_) (by omega) (by omega) h₁).bind
    fun p s₂ h₂ => (spends_expectOp h₂ (by omega)).bind fun _ s₃ h₃ => .pure (h₃.mono (by omega) (by omega))
  obtain ⟨params, defaults⟩ := p
  have comma : Spends R s (expectOp .comma) fun s' _ => s'.Within R m (k + 1) :=
    (spends_expectOp h (by omega)).mono fun _ s₁ h₁ => h₁.mono (by omega) (by omega)
  refine .sees fun closed _ => ?_
  split
  · exact .pure h
  · refine .stepIf comma h fun s₁ h₁ => ?_
    refine (spends_expectName h₁ (by omega)).bind fun param s₂ h₂ => ?_
    refine (spends_skipIf (by nofun) h₂).bind fun equals s₃ h₃ => ?_
    split
    · refine (pays_condition (Nat.le_refl _) (by omega) h₃.2).bind fun e s₄ h₄ => .pure ?_
      exact h₄.mono (by omega) (by omega)
    · dsimp only
      split
      · exact (Spends.fail (Q := fun _ _ => False) h₃.2 (by omega)).bind fun _ _ hfalse => hfalse.elim
      · exact .pure (h₃.2.mono (by omega) (by omega))

theorem costs_definition {line : Nat} : Costs R (n + 1) 17 1 (definition dialect body line) := by
  intro m k s hm hk h
  refine (spends_expectName h (by omega)).bind fun name s₁ h₁ => ?_
  refine (costs_parameters (Nat.le_refl _) (by omega) h₁).bind fun p s₂ h₂ => ?_
  refine (pays_lastBody hb (by omega) (by omega) h₂).bind fun stmts s₃ h₃ => .pure ?_
  exact h₃.mono (by omega) (by omega)

theorem pays_statement : Pays R (n + 1) 20 15 (statement dialect body) := by
  intro m k s hm hk h
  have after : ∀ {x : Parser Stmt}, s.current.kind ≠ .eof → Costs R (n + 1) 17 1 x →
      Spends R s (do let _ ← next; x) fun s' _ => s'.Within R (m - 1) (k - 15) := by
    intro x hlive hx
    refine (spends_next_pays h hlive).bind fun _ s₁ h₁ => (hx (by omega) (by omega) h₁).mono fun _ s₂ h₂ => ?_
    exact h₂.mono (Nat.le_refl _) (by omega)
  refine .current ?_
  dsimp only
  split
  · rename_i word hword
    have hlive : s.current.kind ≠ .eof := by rw [hword]; nofun
    split
    · exact after hlive (costs_branches hb)
    · split
      · exact after hlive (costs_loop hb)
      · split
        · exact after hlive (costs_assignment hb)
        · split
          · exact after hlive (costs_definition hb)
          · split
            · refine after hlive fun m k s hm hk h => ?_
              exact (costs_tuple pays_condition hm (by omega) h).bind fun e s₁ h₁ => .pure h₁
            · exact .fail h (by omega)
  · exact .fail h (by omega)

theorem costs_statements {endWords : List Text} : Costs R (n + 1) 18 1 (statements dialect body endWords) := by
  refine costs_repeating _ fun m k s done hm hk h => ?_
  have stmtAfter : ∀ s : State, s.Within R (m - 1) (k - 15) → Spends R s (do
      let stmt ← statement dialect body
      expectTagEnd .statement
      return .inl (stmt :: done)) fun s' (r : List Stmt ⊕ List Stmt) =>
        r.elim (fun _ => s'.Within R (m - 1) k) fun _ => s'.Within R m (k + 1) := by
    intro s h
    refine (pays_statement hb (by omega) (by omega) h).bind fun stmt s₁ h₁ => ?_
    refine (spends_expectTagEnd h₁ (by omega)).bind fun _ s₂ h₂ => .pure ?_
    exact h₂.mono (by omega) (by omega)
  refine .current ?_
  dsimp only
  split
  · exact .pure h
  · rename_i text htext
    refine (spends_next_pays h (by rw [htext]; nofun)).bind fun _ s₁ h₁ => .pure ?_
    exact h₁.mono (Nat.le_refl _) (by omega)
  · rename_i hopen
    refine (spends_next_pays h (by rw [hopen]; nofun)).bind fun _ s₁ h₁ => ?_
    refine (costs_tuple pays_condition (Nat.le_refl _) (by omega) h₁).bind fun e s₂ h₂ => ?_
    refine (spends_expectTagEnd h₂ (by omega)).bind fun _ s₃ h₃ => .pure ?_
    exact h₃.mono (by omega) (by omega)
  · rename_i hopen
    refine (spends_next_pays h (by rw [hopen]; nofun)).bind fun _ s₁ h₁ => .current ?_
    have h₂ : s₁.Within R (m - 1) (k - 15) := h₁.mono (Nat.le_refl _) (by omega)
    split
    · split
      · exact .pure (h₂.mono (by omega) (by omega))
      · exact stmtAfter s₁ h₂
    · exact stmtAfter s₁ h₂
  · exact .fail h (by omega)

end

theorem costs_bodyWithin (depth : Nat) (endWords : List Text) :
    Costs R depth 17 2 (bodyWithin dialect depth endWords) := by
  induction depth generalizing endWords with
  | zero => exact fun m k s hm hk h => .absurd (h.mono hm (Int.le_refl k))
  | succ depth ih =>
    intro m k s hm hk h
    refine (Spends.tick h).bind fun _ s₁ h₁ => ?_
    refine (costs_statements ih hm (by omega) h₁).mono fun _ s₂ h₂ => ?_
    exact h₂.mono (Nat.le_refl _) (by omega)

end

/-- The work of reading a tree. -/
def work (dialect : Dialect) (tokens : List Token) : Nat :=
  match (bodyWithin dialect (tokens.length + 1) []).run ⟨tokens, tokens.length, 0⟩ with
  | .ok _ s => s.work
  | .error _ s => s.work

/-- A tree is read in time linear in the number of tokens, and the fuel is not used up. -/
theorem work_le (dialect : Dialect) (tokens : List Token) :
    work dialect tokens ≤ 16 * tokens.length + 32 ∧ parse dialect tokens ≠ .error .exhausted := by
  have hstart : State.Within (16 * tokens.length) (tokens.length + 1) 0 ⟨tokens, tokens.length, 0⟩ :=
    ⟨Nat.lt_succ_self _, Nat.le_refl _, by simp [State.worth]⟩
  have hspends : Spends (16 * tokens.length) _ (bodyWithin dialect (tokens.length + 1) []) _ :=
    costs_bodyWithin (tokens.length + 1) [] (Nat.le_refl _) (by omega) hstart
  unfold Spends at hspends
  unfold work parse
  cases hrun : (bodyWithin dialect (tokens.length + 1) []).run ⟨tokens, tokens.length, 0⟩ with
  | ok stmts s =>
    rw [hrun] at hspends
    have hwork := State.Within.work_le hspends (by omega)
    exact ⟨by dsimp only; omega, nofun⟩
  | error e s =>
    rw [hrun] at hspends
    cases e with
    | malformed e =>
      change (s.work : Int) ≤ _ at hspends
      exact ⟨by dsimp only; omega, nofun⟩
    | exhausted => exact hspends.elim

end Parser

namespace Environment

/-- The work of reading a source: one for each step of the lexer and each round of its loops, and one for each
round of a loop of the parser and each production that stands inside another. -/
def readingWork (env : Environment) (source : Text) : Nat :=
  Lexer.work source env.keepFinalBreak + match Lexer.tokenize source env.keepFinalBreak with
    | .ok tokens => Parser.work env.dialect tokens
    | .error _ => 0

/-- Every source is read in time linear in its length, to a tree or to a fault of the source; the fuel of
the loops and of the levels is never used up. -/
theorem parse_linear : ∃ c : Nat, ∀ (env : Environment) (source : Text),
    env.readingWork source ≤ c * (source.length + 1) ∧
      ((∃ body, env.parse source = .ok body) ∨ ∃ e, env.parse source = .error (.malformed e)) := by
  refine ⟨53, fun env source => ?_⟩
  obtain ⟨hlexer, htokens⟩ := Lexer.paid_tokenize source env.keepFinalBreak
  unfold readingWork parse
  cases hsplit : Lexer.tokenize source env.keepFinalBreak with
  | error e =>
    rw [hsplit] at htokens
    refine ⟨by dsimp only; omega, ?_⟩
    cases e with
    | malformed e => exact .inr ⟨e, rfl⟩
    | exhausted => exact htokens.elim
  | ok tokens =>
    rw [hsplit] at htokens
    obtain ⟨hparser, hfuel⟩ := Parser.work_le env.dialect tokens
    dsimp only at htokens
    refine ⟨by dsimp only; omega, ?_⟩
    change (∃ body, Parser.parse env.dialect tokens = .ok body) ∨
      ∃ e, Parser.parse env.dialect tokens = .error (.malformed e)
    cases hparse : Parser.parse env.dialect tokens with
    | ok body => exact .inl ⟨body, rfl⟩
    | error e =>
      cases e with
      | malformed e => exact .inr ⟨e, rfl⟩
      | exhausted => exact (hfuel hparse).elim

end Environment
end Stencil
