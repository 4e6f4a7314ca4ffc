import Mathlib.Data.List.Basic
import Stencil.Proofs.Template.Parts
import Stencil.Template.Parser

/-! The names that a tree reads are name tokens of its source, in their order. -/
namespace Stencil

/-- The name that a token spells, with its place. -/
def Token.name? (k : Token) : Option Name :=
  match k.kind with
  | .name word => some ⟨word, k.line, k.offset⟩
  | _ => none

namespace Parser
variable {α β : Type} {s s₁ s₂ : State} {ns ms : List Name} {x : Parser α} {f : α → Parser β}

/-- Between two states the parser passes over tokens that spell these names in this order, and
possibly others. -/
def Covers (ns : List Name) (s s' : State) : Prop :=
  ∃ used, s.rest = used ++ s'.rest ∧ ns.Sublist (used.filterMap Token.name?)

theorem Covers.refl (s : State) : Covers [] s s := ⟨[], rfl, List.nil_sublist _⟩

theorem Covers.trans (h : Covers ns s s₁) (h' : Covers ms s₁ s₂) : Covers (ns ++ ms) s s₂ := by
  obtain ⟨used, hu, hn⟩ := h
  obtain ⟨more, hm, hms⟩ := h'
  refine ⟨used ++ more, by rw [hu, hm, List.append_assoc], ?_⟩
  rw [List.filterMap_append]
  exact hn.append hms

theorem Covers.mono (h : Covers ns s s₁) (hs : ms.Sublist ns) : Covers ms s s₁ := by
  obtain ⟨used, hu, hn⟩ := h
  exact ⟨used, hu, hs.trans hn⟩

/-- Every good end of the parser from a state satisfies `Q`. -/
def Yields (s : State) (x : Parser α) (Q : State → α → Prop) : Prop :=
  ∀ a s', x.run s = .ok a s' → Q s' a

variable {P Q : State → α → Prop} {R : State → β → Prop}

theorem Yields.pure {a : α} (h : Q s a) : Yields s (Pure.pure a) Q := by
  intro b s' hb
  cases hb
  exact h

theorem Yields.throw {e : Unreadable} : Yields s (throw e) Q := by
  intro b s' hb
  cases hb

theorem Yields.bind (hx : Yields s x P) (hf : ∀ a s', P s' a → Yields s' (f a) R) :
    Yields s (x >>= f) R := by
  intro b s' hb
  rw [EStateM.run_bind] at hb
  split at hb
  · rename_i a mid ha
    exact hf a mid (hx a mid ha) b s' hb
  · cases hb

theorem Yields.mono (hx : Yields s x P) (h : ∀ a s', P s' a → Q s' a) : Yields s x Q :=
  fun a s' ha => h a s' (hx a s' ha)

theorem Yields.map {g : α → β} (hx : Yields s x P) (h : ∀ a s', P s' a → R s' (g a)) :
    Yields s (g <$> x) R := by
  rw [map_eq_pure_bind]
  exact hx.bind fun a s' ha => .pure (h a s' ha)

theorem Yields.current {f : Token → Parser β} (h : Yields s (f s.current) R) :
    Yields s (current >>= f) R := h

theorem Yields.following {f : Token → Parser β} (h : ∀ k, Yields s (f k) R) :
    Yields s (following >>= f) R := h _

theorem Yields.fail {cause : SyntaxCause} : Yields s (fail (α := α) cause) Q := by
  intro b s' hb
  cases hb

theorem Yields.sees {kind : TokenKind} {f : Bool → Parser β} (h : ∀ b, Yields s (f b) R) :
    Yields s (sees kind >>= f) R := h _

/-- The parser passes over tokens; which, does not matter. -/
abbrev Passes (s : State) (x : Parser α) : Prop := Yields s x fun s' _ => Covers [] s s'

theorem passes_tick : Passes s tick := by
  intro _ s' h
  cases h
  exact ⟨[], rfl, List.nil_sublist _⟩

theorem Yields.get {f : State → Parser β} (h : Yields s (f s) R) : Yields s (get >>= f) R := h

/-- What `next` passes over, if anything is left. -/
theorem yields_next : Yields s next fun s' _ => Covers s.current.name?.toList s s' := by
  refine .get ?_
  split
  · rename_i he
    refine .pure ?_
    have hname : s.current.name? = none := by simp [Token.name?, he]
    rw [hname]
    exact .refl s
  · rename_i he
    intro k s' h
    cases h
    cases hr : s.rest with
    | nil => simp [State.current, hr] at he
    | cons k rest => exact ⟨[k], by simp [hr], by cases hk : k.name? <;> simp [State.current, hr, hk]⟩

theorem passes_next : Passes s next :=
  yields_next.mono fun _ _ h => h.mono (List.nil_sublist _)

theorem passes_skipIf {kind : TokenKind} : Passes s (skipIf kind) := by
  refine .sees fun seen => ?_
  split
  · exact passes_next.bind fun _ _ h => .pure h
  · exact .pure (.refl s)

theorem passes_skipWord {word : String} : Passes s (skipWord word) := passes_skipIf

theorem passes_expected {kind : TokenKind} {cause : TokenKind → SyntaxCause} :
    Passes s (do if ← sees kind then next else fail (cause (← current).kind)) := by
  refine .sees fun seen => ?_
  split
  · exact passes_next
  · exact .current .fail

theorem passes_expectOp {op : Operator} : Passes s (expectOp op) := passes_expected

theorem passes_expectWord {word : String} : Passes s (expectWord word) := passes_expected

theorem passes_expectTagEnd {tag : TagKind} : Passes s (expectTagEnd tag) := by
  refine .sees fun seen => ?_
  split
  · exact passes_next.bind fun _ _ h => .pure h
  · exact .current .fail

theorem passes_expectName : Passes s expectName := by
  refine .current ?_
  split
  · exact passes_next.bind fun _ _ h => .pure h
  · exact .fail

/-- A step that is taken only under a condition. -/
theorem Yields.stepIf {c : Prop} [Decidable c] {y : Parser β} (hx : Passes s x)
    (hy : ∀ s', Covers [] s s' → Yields s' y R) : Yields s (if c then x >>= fun _ => y else y) R := by
  split
  · exact hx.bind fun _ => hy
  · exact hy s (.refl s)

/-- A check that fails under a condition. -/
theorem Yields.refuse {c : Prop} [Decidable c] {y : Parser β} (hx : Yields s x fun _ _ => False) (hy : Yields s y R) :
    Yields s (if c then x >>= f else y) R := by
  split
  · exact hx.bind fun _ _ hf => hf.elim
  · exact hy

/-- What is read only under a condition, and has a value of its own otherwise. -/
theorem Yields.optionally {c : Prop} [Decidable c] {a : α} (hx : Yields s x P) (ha : P s a)
    (hf : ∀ a s', P s' a → Yields s' (f a) R) : Yields s (if c then x >>= f else f a) R := by
  split
  · exact hx.bind hf
  · exact hf a s ha

/-! Loops: `I` holds of what was found so far, and each round goes on from where it stands. -/

theorem yields_iterate {I : State → α → Prop} {step : α → Parser (α ⊕ β)}
    (hstep : ∀ s a, I s a → Yields s (step a) fun s' r => r.elim (I s') (R s'))
    (htick : ∀ s s' a, Covers [] s s' → I s a → I s' a) (fuel : Nat) {a : α} (ha : I s a) :
    Yields s (iterate step fuel a) R := by
  induction fuel generalizing s a with
  | zero => exact .throw
  | succ fuel ih =>
    refine passes_tick.bind fun _ s₁ h₁ => ?_
    refine (hstep s₁ a (htick _ _ _ h₁ ha)).bind fun r s₂ h₂ => ?_
    cases r with
    | inl a => exact ih h₂
    | inr b => exact .pure h₂

theorem yields_repeating {I : State → α → Prop} {step : α → Parser (α ⊕ β)}
    (hstep : ∀ s a, I s a → Yields s (step a) fun s' r => r.elim (I s') (R s'))
    (htick : ∀ s s' a, Covers [] s s' → I s a → I s' a) {a : α} (ha : I s a) :
    Yields s (repeating step a) R :=
  .get (yields_iterate hstep htick _ ha)

theorem yields_bracketed {I : State → List α → Prop} {close : Operator} {item : List α → Parser α}
    (hitem : ∀ s items, I s items.reverse → Yields s (item items) fun s' a => I s' (items.reverse ++ [a]))
    (htick : ∀ s s' items, Covers [] s s' → I s items → I s' items) (h : I s []) :
    Yields s (bracketed close item) I := by
  refine (yields_repeating (I := fun s items => I s items.reverse) (R := I) ?_ ?_ h).bind ?_
  · intro s items h
    have more : ∀ s, I s items.reverse → Yields s (do return .inl ((← item items) :: items))
        fun s' (r : List α ⊕ List α) => r.elim (fun items => I s' items.reverse) (I s') := by
      intro s h
      exact (hitem s items h).bind fun a s' h' => .pure (by simpa using h')
    refine .sees fun closed => ?_
    split
    · exact .pure h
    · dsimp only
      split
      · refine passes_expectOp.bind fun _ s₁ h₁ => .sees fun closed => ?_
        split
        · exact .pure (htick _ _ _ h₁ h)
        · exact more s₁ (htick _ _ _ h₁ h)
      · exact more s h
  · exact fun s s' items hs h => htick s s' _ hs h
  · exact fun items s₁ h₁ => passes_expectOp.bind fun _ s₂ h₂ => .pure (htick _ _ _ h₂ h₁)

/-- The parser gives an expression whose names are covered by what it passes over. -/
abbrev Reads (s : State) (x : Parser Expr) : Prop := Yields s x fun s' e => Covers e.reads s s'

theorem covers_append_nil (h : Covers ns s s₁) (h' : Covers [] s₁ s₂) : Covers ns s s₂ := by
  simpa using h.trans h'

theorem covers_nil_append (h : Covers [] s s₁) (h' : Covers ns s₁ s₂) : Covers ns s s₂ := by
  simpa using h.trans h'

/-- A loop in which each round goes on with what the one before it covers. -/
theorem covers_repeating {f : α → List Name} {g : β → List Name} {step : α → Parser (α ⊕ β)}
    (hstep : ∀ s₂ a, Covers (f a) s s₂ → Yields s₂ (step a) fun s' r => r.elim (fun a => Covers (f a) s s')
      fun b => Covers (g b) s s') {a : α} (ha : Covers (f a) s s₁) :
    Yields s₁ (repeating step a) fun s' b => Covers (g b) s s' :=
  yields_repeating (I := fun s' a => Covers (f a) s s') hstep (fun _ _ _ hs h => covers_append_nil h hs) ha

theorem reads_chain {operand : Parser Expr} {operator? : TokenKind → Option (Nat → Expr → Expr → Expr)}
    (hoperand : ∀ s, Reads s operand)
    (hoperator : ∀ k combine line left right, operator? k = some combine →
      (combine line left right).reads = left.reads ++ right.reads) :
    Reads s (chain operand operator?) := by
  refine .current ((hoperand s).bind fun first s₁ h₁ => ?_)
  refine covers_repeating (f := Expr.reads) (fun s₂ left h₂ => .current ?_) h₁
  split
  · exact .pure h₂
  · rename_i combine hcombine
    refine passes_next.bind fun _ s₃ h₃ => (hoperand s₃).bind fun right s₄ h₄ => .pure ?_
    rw [Sum.elim_inl, hoperator _ _ _ _ _ hcombine]
    exact (covers_append_nil h₂ h₃).trans h₄

section
variable {dialect : Dialect} {nested : Entry → Parser Expr}

theorem passes_stringRun {first : Text} : Passes s (stringRun first) := by
  refine covers_repeating (f := fun _ => []) (fun s₁ value h₁ => .current ?_) (.refl s)
  split
  · exact passes_next.bind fun _ s₂ h₂ => .pure (covers_append_nil h₁ h₂)
  · exact .pure h₁

theorem readsOfList_append (es : List Expr) (e : Expr) :
    Expr.reads.readsOfList (es ++ [e]) = Expr.reads.readsOfList es ++ e.reads := by
  simp [Expr.readsOfList_eq_flatMap]

theorem readsOfEntries_append (entries : List (Expr × Expr)) (key value : Expr) :
    Expr.reads.readsOfEntries (entries ++ [(key, value)]) =
      Expr.reads.readsOfEntries entries ++ key.reads ++ value.reads := by
  simp [Expr.readsOfEntries_eq_flatMap]

theorem readsOfNamed_append (named : List (Text × Expr)) (word : Text) (e : Expr) :
    Expr.reads.readsOfNamed (named ++ [(word, e)]) = Expr.reads.readsOfNamed named ++ e.reads := by
  simp [Expr.readsOfNamed_eq_flatMap]

theorem readsOfCompared_append (rest : List (CompareOp × Expr)) (op : CompareOp) (e : Expr) :
    Expr.reads.readsOfCompared (rest ++ [(op, e)]) = Expr.reads.readsOfCompared rest ++ e.reads := by
  simp [Expr.readsOfCompared_eq_flatMap]

variable (hn : ∀ e s, Reads s (nested e))
include hn

theorem reads_primary : Reads s (primary nested) := by
  refine .current ?_
  dsimp only
  split
  · rename_i word hword
    refine yields_next.bind fun _ s₁ h₁ => ?_
    split
    · exact .pure (h₁.mono (List.nil_sublist _))
    · refine .pure ?_
      simpa [Token.name?, hword, Expr.reads] using h₁
  · refine passes_next.bind fun _ s₁ h₁ => passes_stringRun.bind fun _ s₂ h₂ => .pure ?_
    exact covers_append_nil h₁ h₂
  · exact passes_next.bind fun _ s₁ h₁ => .pure h₁
  · exact passes_next.bind fun _ s₁ h₁ => .pure h₁
  · refine passes_next.bind fun _ s₁ h₁ => (hn _ s₁).bind fun e s₂ h₂ => ?_
    exact passes_expectOp.bind fun _ s₃ h₃ => .pure (covers_append_nil (covers_nil_append h₁ h₂) h₃)
  · refine passes_next.bind fun _ s₁ h₁ => (yields_bracketed
      (I := fun s' es => Covers (Expr.reads.readsOfList es) s s') ?_ ?_ h₁).bind fun es s₂ h₂ => .pure h₂
    · intro s₂ items h₂
      refine (hn _ s₂).mono fun e s₃ h₃ => ?_
      rw [readsOfList_append]
      exact h₂.trans h₃
    · exact fun _ _ _ hs h => covers_append_nil h hs
  · refine passes_next.bind fun _ s₁ h₁ => (yields_bracketed
      (I := fun s' es => Covers (Expr.reads.readsOfEntries es) s s') ?_ ?_ h₁).bind fun es s₂ h₂ => .pure h₂
    · intro s₂ items h₂
      refine (hn _ s₂).bind fun key s₃ h₃ => passes_expectOp.bind fun _ s₄ h₄ => ?_
      refine (hn _ s₄).bind fun value s₅ h₅ => .pure ?_
      rw [readsOfEntries_append]
      exact (covers_append_nil (h₂.trans h₃) h₄).trans h₅
    · exact fun _ _ _ hs h => covers_append_nil h hs
  · exact .fail

/-- Positional arguments stand before those by keyword, so that both lists together keep the order. -/
def ArgumentsCovered (s s' : State) (all : List (Option Text × Expr)) : Prop :=
  ∃ args named, all = args.map (none, ·) ++ named.map (fun (word, e) => (some word, e)) ∧
    Covers (Expr.reads.readsOfList args ++ Expr.reads.readsOfNamed named) s s'

omit hn in
theorem argumentsCovered_append_nil {all : List (Option Text × Expr)} (h : ArgumentsCovered s s₁ all)
    (h' : Covers [] s₁ s₂) : ArgumentsCovered s s₂ all := by
  obtain ⟨args, named, hall, hc⟩ := h
  exact ⟨args, named, hall, covers_append_nil hc h'⟩

theorem yields_argument {items : List (Option Text × Expr)} (h : ArgumentsCovered s s₁ items.reverse) :
    Yields s₁ (argument nested items) fun s' a => ArgumentsCovered s s' (items.reverse ++ [a]) := by
  obtain ⟨args, named, hall, hc⟩ := h
  refine .current (.following fun k => ?_)
  split
  · rename_i word _ _
    refine passes_next.bind fun _ s₂ h₂ => passes_next.bind fun _ s₃ h₃ => ?_
    refine (hn _ s₃).bind fun e s₄ h₄ => .pure ⟨args, named ++ [(word, e)], by simp [hall], ?_⟩
    rw [readsOfNamed_append, ← List.append_assoc]
    exact (covers_append_nil (covers_append_nil hc h₂) h₃).trans h₄
  · dsimp only
    split
    · exact .bind (P := fun _ _ => False) .fail (fun _ _ h => h.elim)
    · rename_i hplain
      have hnamed : named = [] := by
        by_contra hne
        obtain ⟨⟨word, e⟩, hmem⟩ := List.exists_mem_of_ne_nil named hne
        apply hplain
        rw [List.any_eq_true]
        refine ⟨(some word, e), ?_, rfl⟩
        rw [← List.mem_reverse, hall]
        exact List.mem_append_right _ (List.mem_map_of_mem hmem)
      subst hnamed
      refine (hn _ s₁).bind fun e s₂ h₂ => .pure ⟨args ++ [e], [], by simp [hall], ?_⟩
      rw [readsOfList_append]
      simpa [Expr.reads.readsOfNamed] using hc.trans h₂

/-- What the arguments of a call read. -/
abbrev argumentReads (a : List Expr × List (Text × Expr)) : List Name :=
  Expr.reads.readsOfList a.1 ++ Expr.reads.readsOfNamed a.2

theorem yields_arguments :
    Yields s (arguments nested) fun s' a => Covers (argumentReads a) s s' := by
  refine passes_expectOp.bind fun _ s₁ h₁ => (yields_bracketed (I := ArgumentsCovered s) ?_ ?_ ?_).bind ?_
  · exact fun s₂ items h₂ => yields_argument hn h₂
  · exact fun _ _ _ hs h => argumentsCovered_append_nil h hs
  · exact ⟨[], [], rfl, h₁⟩
  · rintro all s₂ ⟨args, named, rfl, hc⟩
    refine .pure ?_
    simpa [argumentReads, List.filterMap_append, List.filterMap_map, Function.comp_def] using hc

theorem yields_optionalArguments :
    Yields s (optionalArguments nested) fun s' a => Covers (argumentReads a) s s' := by
  refine .sees fun seen => ?_
  split
  · exact yields_arguments hn
  · exact .pure (.refl s)

theorem reads_callOf {callee : Expr} (h : Covers callee.reads s s₁) :
    Yields s₁ (callOf nested callee) fun s' e => Covers e.reads s s' := by
  refine .current ((yields_arguments hn).bind fun a s₂ h₂ => .pure ?_)
  simpa [Expr.reads, argumentReads] using h.trans h₂

theorem yields_sliceBound :
    Yields s (sliceBound nested) fun s' e? => Covers (Expr.reads.readsOfOption e?) s s' := by
  refine .sees fun closed => .sees fun colon => ?_
  split
  · exact .pure (.refl s)
  · exact (hn _ s).bind fun e s₁ h₁ => .pure h₁

theorem yields_firstBound :
    Yields s (firstBound nested) fun s' e? => Covers (Expr.reads.readsOfOption e?) s s' := by
  refine .sees fun colon => ?_
  split
  · exact .pure (.refl s)
  · exact (hn _ s).map fun e s₁ h₁ => h₁

theorem yields_lastBound :
    Yields s (lastBound nested) fun s' e? => Covers (Expr.reads.readsOfOption e?) s s' := by
  refine passes_skipIf.bind fun colon s₁ h₁ => ?_
  split
  · exact (yields_sliceBound hn).mono fun e? s₂ h₂ => covers_nil_append h₁ h₂
  · exact .pure h₁

theorem reads_subscript {line : Nat} {target : Expr} (h : Covers target.reads s s₁) :
    Yields s₁ (subscript nested line target) fun s' e => Covers e.reads s s' := by
  rw [subscript_eq]
  refine (yields_firstBound hn).bind fun start s₂ h₂ => .sees fun colon => ?_
  have h₂ := h.trans h₂
  split
  · refine passes_next.bind fun _ s₃ h₃ => (yields_sliceBound hn).bind fun stop s₄ h₄ => ?_
    refine (yields_lastBound hn).bind fun step s₅ h₅ => .pure ?_
    exact ((covers_append_nil h₂ h₃).trans h₄).trans h₅
  · cases start with
    | some key => exact .pure h₂
    | none => exact .pure (by simpa [Expr.reads.readsOfOption] using h₂)

omit hn in
theorem reads_memberOf {line : Nat} {target : Expr} (h : Covers target.reads s s₁) :
    Yields s₁ (memberOf line target) fun s' e => Covers e.reads s s' := by
  refine passes_next.bind fun k s₂ h₂ => ?_
  split
  · exact .pure (covers_append_nil h h₂)
  · exact .pure (by simpa [Expr.reads] using h.trans h₂)
  · exact .throw

theorem reads_postfixed {first : Expr} (h : Covers first.reads s s₁) :
    Yields s₁ (postfixed nested first) fun s' e => Covers e.reads s s' := by
  refine covers_repeating (f := Expr.reads) (fun s₂ target h₂ => .current ?_) h
  split
  · refine passes_next.bind fun _ s₃ h₃ => ?_
    exact (reads_memberOf (covers_append_nil h₂ h₃)).bind fun e s₄ h₄ => .pure h₄
  · refine passes_next.bind fun _ s₃ h₃ => ?_
    refine (reads_subscript hn (covers_append_nil h₂ h₃)).bind fun e s₄ h₄ => ?_
    exact passes_expectOp.bind fun _ s₅ h₅ => .pure (covers_append_nil h₄ h₅)
  · exact (reads_callOf hn h₂).bind fun e s₃ h₃ => .pure h₃
  · exact .pure h₂

theorem reads_filterOf {target : Expr} (h : Covers target.reads s s₁) :
    Yields s₁ (filterOf dialect nested target) fun s' e => Covers e.reads s s' := by
  refine passes_expectOp.bind fun _ s₂ h₂ => passes_expectName.bind fun name s₃ h₃ => ?_
  refine .refuse .throw ((yields_optionalArguments hn).bind fun a s₄ h₄ => .pure ?_)
  simpa [Expr.reads, argumentReads] using (covers_append_nil (covers_append_nil h h₂) h₃).trans h₄

theorem reads_testOf {target : Expr} (h : Covers target.reads s s₁) :
    Yields s₁ (testOf dialect nested target) fun s' e => Covers e.reads s s' := by
  refine passes_expectWord.bind fun _ s₂ h₂ => passes_skipWord.bind fun _ s₃ h₃ => ?_
  refine passes_expectName.bind fun name s₄ h₄ => ?_
  have hall := covers_append_nil (covers_append_nil (covers_append_nil h h₂) h₃) h₄
  dsimp only
  split
  · exact .bind (P := fun _ _ => False) .throw (fun _ _ h => h.elim)
  · refine .sees fun paren => .current ?_
    split
    · refine (yields_arguments hn).bind fun a s₅ h₅ => .pure ?_
      simpa [Expr.reads, argumentReads] using hall.trans h₅
    · split
      · refine (reads_primary hn).bind fun first s₅ h₅ => ?_
        refine (reads_postfixed hn h₅).bind fun e s₆ h₆ => .pure ?_
        simpa [Expr.reads, Expr.reads.readsOfList, Expr.reads.readsOfNamed] using hall.trans h₆
      · refine .pure ?_
        simpa [Expr.reads, Expr.reads.readsOfList, Expr.reads.readsOfNamed] using hall

theorem reads_filtered {first : Expr} (h : Covers first.reads s s₁) :
    Yields s₁ (filtered dialect nested first) fun s' e => Covers e.reads s s' := by
  refine covers_repeating (f := Expr.reads) (fun s₂ target h₂ => .sees fun pipe => ?_) h
  split
  · exact (reads_filterOf hn h₂).bind fun e s₃ h₃ => .pure h₃
  · refine .sees fun word => ?_
    split
    · exact (reads_testOf hn h₂).bind fun e s₃ h₃ => .pure h₃
    · refine .sees fun paren => ?_
      split
      · exact (reads_callOf hn h₂).bind fun e s₃ h₃ => .pure h₃
      · exact .pure h₂

theorem reads_unary {withFilter : Bool} : Reads s (unary dialect nested withFilter) := by
  have rest : ∀ first s₁, Covers first.reads s s₁ → Yields s₁ (do
      let e ← postfixed nested first
      if withFilter then filtered dialect nested e else return e) fun s' e => Covers e.reads s s' := by
    intro first s₁ h₁
    refine (reads_postfixed hn h₁).bind fun e s₂ h₂ => ?_
    split
    · exact reads_filtered hn h₂
    · exact .pure h₂
  have signed : ∀ sign line, Yields s (do
      let _ ← next
      let first ← pure (Expr.signed line sign (← nested .signed))
      let e ← postfixed nested first
      if withFilter then filtered dialect nested e else return e) fun s' e => Covers e.reads s s' := by
    intro sign line
    refine passes_next.bind fun _ s₁ h₁ => (hn _ s₁).bind fun e s₂ h₂ => ?_
    exact rest (.signed line sign e) s₂ (covers_nil_append h₁ h₂)
  refine .current ?_
  dsimp only
  split
  · exact signed .minus _
  · exact signed .plus _
  · exact (reads_primary hn).bind rest

theorem reads_power : Reads s (power dialect nested) := by
  refine reads_chain (fun s => reads_unary hn) fun k combine line left right hk => ?_
  split at hk <;> cases hk
  rfl

theorem reads_product : Reads s (product dialect nested) := by
  refine reads_chain (fun s => reads_power hn) fun k combine line left right hk => ?_
  split at hk <;> cases hk <;> rfl

theorem reads_concatenation : Reads s (concatenation dialect nested) := by
  refine reads_chain (fun s => reads_product hn) fun k combine line left right hk => ?_
  split at hk <;> cases hk
  rfl

theorem reads_sum : Reads s (sum dialect nested) := by
  refine reads_chain (fun s => reads_concatenation hn) fun k combine line left right hk => ?_
  split at hk <;> cases hk <;> rfl

omit hn in
theorem passes_comparison? : Passes s comparison? := by
  have rest : ∀ (op? : Option CompareOp) s₁, Covers [] s s₁ → Yields s₁ (do
      if op?.isSome then
        let _ ← next
      return op?) fun s' _ => Covers [] s s' :=
    fun op? s₁ h₁ => .stepIf passes_next fun s₂ h₂ => .pure (covers_append_nil h₁ h₂)
  refine .current (.following fun k => ?_)
  dsimp only
  split
  case h_7 =>
    split
    · exact .bind (.pure (.refl s)) rest
    · split
      · exact passes_next.bind fun _ s₁ h₁ => .bind (.pure h₁) rest
      · exact .bind (.pure (.refl s)) rest
  all_goals exact .bind (.pure (.refl s)) rest

theorem reads_compared : Reads s (compared dialect nested) := by
  refine .current ((reads_sum hn).bind fun first s₁ h₁ => ?_)
  refine (covers_repeating (f := fun rest : List (CompareOp × Expr) => Expr.reads.readsOfCompared rest.reverse)
    (g := Expr.reads.readsOfCompared) (a := []) ?_ (.refl s₁)).bind ?_
  · intro s₂ rest h₂
    refine passes_comparison?.bind fun op? s₃ h₃ => ?_
    have h₃ := covers_append_nil h₂ h₃
    split
    · exact .pure h₃
    · refine (reads_sum hn).bind fun e s₄ h₄ => .pure ?_
      rw [Sum.elim_inl, List.reverse_cons, readsOfCompared_append]
      exact h₃.trans h₄
  · intro rest s₂ h₂
    refine .pure ?_
    have h := h₁.trans h₂
    split
    · rename_i hrest
      rw [List.isEmpty_iff.mp hrest] at h
      simpa [Expr.reads.readsOfCompared] using h
    · simpa [Expr.reads] using h

theorem reads_negated : Reads s (negated dialect nested) := by
  refine .current (passes_skipWord.bind fun word s₁ h₁ => ?_)
  split
  · exact (hn _ s₁).bind fun e s₂ h₂ => .pure (covers_nil_append h₁ h₂)
  · exact (reads_compared hn).mono fun e s₂ h₂ => covers_nil_append h₁ h₂

theorem reads_conjunction : Reads s (conjunction dialect nested) := by
  refine reads_chain (fun s => reads_negated hn) fun k combine line left right hk => ?_
  split at hk
  · split at hk <;> cases hk
    rfl
  · cases hk

theorem reads_disjunction : Reads s (disjunction dialect nested) := by
  refine reads_chain (fun s => reads_conjunction hn) fun k combine line left right hk => ?_
  split at hk
  · split at hk <;> cases hk
    rfl
  · cases hk

theorem reads_conditional : Reads s (conditional dialect nested) := by
  refine .current ((reads_disjunction hn).bind fun first s₁ h₁ => ?_)
  refine covers_repeating (f := Expr.reads) (fun s₂ value h₂ => ?_) h₁
  refine passes_skipWord.bind fun word s₃ h₃ => ?_
  have h₃ := covers_append_nil h₂ h₃
  split
  · refine (reads_disjunction hn).bind fun test s₄ h₄ => passes_skipWord.bind fun word s₅ h₅ => ?_
    refine .optionally (P := fun s' otherwise => Covers (Expr.reads.readsOfOption otherwise) s₅ s')
      ((hn _ s₅).map fun e s₆ h₆ => h₆) (.refl s₅) fun otherwise s₆ h₆ => .pure ?_
    exact (covers_append_nil (h₃.trans h₄) h₅).trans h₆
  · exact .pure h₃

omit hn in
theorem reads_tuple {item : Parser Expr} {endWords : List Text} {parenthesized : Bool}
    (hitem : ∀ s, Reads s item) : Reads s (tuple item endWords parenthesized) := by
  refine .current ((covers_repeating (f := fun items : List Expr => Expr.reads.readsOfList items.reverse)
    (g := fun r => Expr.reads.readsOfList r.1) (a := []) ?_ (.refl s)).bind ?_)
  · intro s₁ items h₁
    refine .stepIf passes_expectOp fun s₂ h₂ => .current ?_
    have h₂ := covers_append_nil h₁ h₂
    split
    · exact .pure h₂
    · refine (hitem s₂).bind fun e s₃ h₃ => ?_
      have h₃ : Covers (Expr.reads.readsOfList (e :: items).reverse) s s₃ := by
        rw [List.reverse_cons, readsOfList_append]
        exact h₂.trans h₃
      refine .sees fun comma => ?_
      split
      · exact .pure h₃
      · exact .pure h₃
  · rintro ⟨items, comma⟩ s₁ h₁
    dsimp only at h₁ ⊢
    split
    · exact .pure (h₁.mono (by simp [Expr.reads.readsOfList]))
    · split
      · exact .current (.bind (P := fun _ _ => False) .fail (fun _ _ h => h.elim))
      · exact .pure h₁
    · exact .pure h₁

theorem reads_production (e : Entry) : Reads s (production dialect nested e) := by
  cases e with
  | parenthesized => exact reads_tuple fun s => reads_conditional hn
  | conditional => exact reads_conditional hn
  | negation => exact reads_negated hn
  | signed => exact reads_unary hn

end

theorem reads_entryWithin {dialect : Dialect} (depth : Nat) (e : Entry) :
    Reads s (entryWithin dialect depth e) := by
  induction depth generalizing s e with
  | zero => exact .throw
  | succ depth ih =>
    refine passes_tick.bind fun _ s₁ h₁ => ?_
    exact (reads_production (fun e s => ih e) e).mono fun e s₂ h₂ => covers_nil_append h₁ h₂

theorem reads_entry {dialect : Dialect} (e : Entry) (s : State) : Reads s (entry dialect e) :=
  .get (reads_entryWithin _ e)

/-! Statements. -/

theorem readsOfBranches_append (done : List (Expr × List Stmt)) (test : Expr) (body : List Stmt) :
    Stmt.reads.readsOfBranches (done ++ [(test, body)]) =
      Stmt.reads.readsOfBranches done ++ test.reads ++ body.flatMap Stmt.reads := by
  simp [Stmt.readsOfBranches_eq_flatMap]

/-- The parser gives statements whose names are covered by what it passes over. -/
abbrev ReadsBody (s : State) (x : Parser (List Stmt)) : Prop :=
  Yields s x fun s' body => Covers (body.flatMap Stmt.reads) s s'

section
variable {dialect : Dialect} {body : List Text → Parser (List Stmt)}

theorem yields_mapM {g : α → Parser β} {I : State → Prop} (hg : ∀ a s, I s → Yields s (g a) fun s' _ => I s')
    (as : List α) (h : I s) : Yields s (as.mapM g) fun s' _ => I s' := by
  induction as generalizing s with
  | nil => exact .pure h
  | cons a as ih =>
    rw [List.mapM_cons]
    exact (hg a s h).bind fun b s₁ h₁ => (ih h₁).bind fun bs s₂ h₂ => .pure h₂

theorem yields_nameOf {I : State → Prop} (e : Expr) (h : I s) : Yields s (nameOf e) fun s' _ => I s' := by
  unfold nameOf
  split
  · exact .pure h
  · exact .throw

theorem passes_target {endWords : List Text} : Passes s (target dialect endWords) := by
  refine .bind (P := fun s' _ => Covers [] s s') ?_ fun e s₁ h₁ => ?_
  · exact (reads_tuple fun s => reads_primary reads_entry).mono fun e s₁ h₁ => h₁.mono (List.nil_sublist _)
  · split
    · exact .pure h₁
    · exact (yields_mapM (fun e s => yields_nameOf e) _ h₁).bind fun names s₂ h₂ => .pure h₂
    · exact .throw

variable (hb : ∀ words s, ReadsBody s (body words))
include hb

theorem reads_bodyUntil {words : List String} : ReadsBody s (bodyUntil body words) := by
  refine passes_expectTagEnd.bind fun _ s₁ h₁ => (hb _ s₁).bind fun stmts s₂ h₂ => ?_
  exact .sees fun ended => .refuse .fail (.pure (covers_nil_append h₁ h₂))

theorem reads_lastBody {word : String} : ReadsBody s (lastBody body word) := by
  refine (reads_bodyUntil hb).bind fun stmts s₁ h₁ => ?_
  exact passes_next.bind fun _ s₂ h₂ => .pure (covers_append_nil h₁ h₂)

/-- The parser gives a statement whose names are covered by what it passes over. -/
abbrev ReadsStmt (s : State) (x : Parser Stmt) : Prop := Yields s x fun s' stmt => Covers stmt.reads s s'

theorem reads_branches {line : Nat} : ReadsStmt s (branches dialect body line) := by
  refine covers_repeating
    (f := fun done : List (Expr × List Stmt) => Stmt.reads.readsOfBranches done.reverse) (fun s₁ done h₁ => ?_) (.refl s)
  refine (reads_tuple fun s => reads_disjunction reads_entry).bind fun test s₂ h₂ => ?_
  refine (reads_bodyUntil hb).bind fun stmts s₃ h₃ => ?_
  have h₃ : Covers (Stmt.reads.readsOfBranches ((test, stmts) :: done).reverse) s s₃ := by
    rw [List.reverse_cons, readsOfBranches_append]
    exact (h₁.trans h₂).trans h₃
  refine passes_next.bind fun word s₄ h₄ => ?_
  have h₄ := covers_append_nil h₃ h₄
  dsimp only
  split
  · exact .pure h₄
  · split
    · refine (reads_lastBody hb).bind fun otherwise s₅ h₅ => .pure ?_
      simpa [Stmt.reads, Stmt.readsOfList_eq_flatMap] using h₄.trans h₅
    · refine .pure ?_
      simpa [Stmt.reads, Stmt.reads.readsOfList] using h₄

theorem reads_loop {line : Nat} : ReadsStmt s (loop dialect body line) := by
  refine passes_target.bind fun target s₁ h₁ => passes_expectWord.bind fun _ s₂ h₂ => ?_
  refine (reads_tuple fun s => reads_disjunction reads_entry).bind fun iter s₃ h₃ => ?_
  have h₃ := covers_nil_append (covers_append_nil h₁ h₂) h₃
  refine passes_skipWord.bind fun word s₄ h₄ => ?_
  have h₄ := covers_append_nil h₃ h₄
  refine .optionally (P := fun s' filter => Covers (iter.reads ++ (filter.map Expr.reads).getD []) s s')
    ((reads_conditional reads_entry).map fun e s₅ h₅ => h₄.trans h₅) (by simpa using h₄) fun filter s₅ h₅ => ?_
  refine (reads_bodyUntil hb).bind fun stmts s₆ h₆ => passes_next.bind fun word s₇ h₇ => ?_
  refine .optionally (reads_lastBody hb) (.refl s₇) fun otherwise s₈ h₈ => .pure ?_
  simpa [Stmt.reads, Stmt.readsOfList_eq_flatMap] using (covers_append_nil (h₅.trans h₆) h₇).trans h₈

theorem reads_assignment {line : Nat} : ReadsStmt s (assignment dialect body line) := by
  refine passes_target.bind fun target s₁ h₁ => passes_skipIf.bind fun equals s₂ h₂ => ?_
  have h₂ := covers_append_nil h₁ h₂
  split
  · refine (reads_tuple fun s => reads_conditional reads_entry).bind fun e s₃ h₃ => .pure ?_
    exact covers_nil_append h₂ h₃
  · refine (reads_lastBody hb).bind fun stmts s₃ h₃ => .pure ?_
    simpa [Stmt.reads, Stmt.readsOfList_eq_flatMap] using h₂.trans h₃

omit hb in
theorem yields_parameters :
    Yields s (parameters dialect) fun s' p => Covers (p.2.flatMap Expr.reads) s s' := by
  refine passes_expectOp.bind fun _ s₁ h₁ => (covers_repeating
    (f := fun p : List Name × List Expr => p.2.reverse.flatMap Expr.reads)
    (g := fun p => p.2.flatMap Expr.reads) (a := ([], [])) ?_ h₁).bind ?_
  · rintro s₂ ⟨params, defaults⟩ h₂
    refine .sees fun closed => ?_
    split
    · exact .pure h₂
    · refine .stepIf passes_expectOp fun s₃ h₃ => ?_
      refine passes_expectName.bind fun param s₄ h₄ => passes_skipIf.bind fun equals s₅ h₅ => ?_
      have h₅ := covers_append_nil (covers_append_nil (covers_append_nil h₂ h₃) h₄) h₅
      split
      · refine (reads_conditional reads_entry).bind fun e s₆ h₆ => .pure ?_
        simpa using h₅.trans h₆
      · exact .refuse .fail (.pure h₅)
  · exact fun p s₂ h₂ => passes_expectOp.bind fun _ s₃ h₃ => .pure (covers_append_nil h₂ h₃)

theorem reads_definition {line : Nat} : ReadsStmt s (definition dialect body line) := by
  refine passes_expectName.bind fun name s₁ h₁ => yields_parameters.bind fun p s₂ h₂ => ?_
  refine (reads_lastBody hb).bind fun stmts s₃ h₃ => .pure ?_
  simpa [Stmt.reads, Stmt.readsOfList_eq_flatMap] using (h₁.trans h₂).trans h₃

theorem reads_statement : ReadsStmt s (statement dialect body) := by
  have after : ∀ {x : Parser Stmt}, (∀ s, ReadsStmt s x) → ReadsStmt s (do let _ ← next; x) :=
    fun hx => passes_next.bind fun _ s₁ h₁ => (hx s₁).mono fun _ _ h₂ => covers_nil_append h₁ h₂
  refine .current ?_
  dsimp only
  split
  · split
    · exact after fun s => reads_branches hb
    · split
      · exact after fun s => reads_loop hb
      · split
        · exact after fun s => reads_assignment hb
        · split
          · exact after fun s => reads_definition hb
          · split
            · exact after fun s => (reads_tuple fun s => reads_conditional reads_entry).bind
                fun e s₁ h₁ => .pure h₁
            · exact .fail
  · exact .fail

theorem reads_statements {endWords : List Text} : ReadsBody s (statements dialect body endWords) := by
  refine covers_repeating (f := fun done : List Stmt => done.reverse.flatMap Stmt.reads) ?_ (.refl s)
  intro s₁ done h₁
  have stmtAfter : ∀ {x : Parser Stmt} {tag : TagKind} s₂, Covers [] s₁ s₂ → ReadsStmt s₂ x →
      Yields s₂ (do
        let stmt ← x
        expectTagEnd tag
        return .inl (stmt :: done) : Parser (List Stmt ⊕ List Stmt))
        fun s' r => r.elim (fun done => Covers (done.reverse.flatMap Stmt.reads) s s')
          fun body => Covers (body.flatMap Stmt.reads) s s' := by
    intro x tag s₂ h₂ hx
    refine hx.bind fun stmt s₃ h₃ => passes_expectTagEnd.bind fun _ s₄ h₄ => .pure ?_
    simpa using covers_append_nil ((covers_append_nil h₁ h₂).trans h₃) h₄
  refine .current ?_
  dsimp only
  split
  · exact .pure h₁
  · refine passes_next.bind fun _ s₂ h₂ => .pure ?_
    simpa [Stmt.reads] using covers_append_nil h₁ h₂
  · refine passes_next.bind fun _ s₂ h₂ => ?_
    refine (reads_tuple fun s => reads_conditional reads_entry).bind fun e s₃ h₃ => ?_
    refine passes_expectTagEnd.bind fun _ s₄ h₄ => .pure ?_
    simpa [Stmt.reads] using covers_append_nil ((covers_append_nil h₁ h₂).trans h₃) h₄
  · refine passes_next.bind fun _ s₂ h₂ => .current ?_
    split
    · split
      · exact .pure (covers_append_nil h₁ h₂)
      · exact stmtAfter s₂ h₂ (reads_statement hb)
    · exact stmtAfter s₂ h₂ (reads_statement hb)
  · exact .fail

end

theorem reads_bodyWithin {dialect : Dialect} (depth : Nat) (endWords : List Text) :
    ReadsBody s (bodyWithin dialect depth endWords) := by
  induction depth generalizing s endWords with
  | zero => exact .throw
  | succ depth ih =>
    refine passes_tick.bind fun _ s₁ h₁ => ?_
    exact (reads_statements fun words s => ih words).mono fun body s₂ h₂ => covers_nil_append h₁ h₂

/-- The names that a parsed tree reads are names of its tokens, in their order. -/
theorem reads_parse {dialect : Dialect} {tokens : List Token} {body : List Stmt}
    (h : parse dialect tokens = .ok body) :
    (body.flatMap Stmt.reads).Sublist (tokens.filterMap Token.name?) := by
  unfold parse at h
  split at h
  · rename_i stmts s' hrun
    cases h
    obtain ⟨used, hused, hs⟩ := reads_bodyWithin _ _ _ _ hrun
    have htokens : tokens = used ++ s'.rest := hused
    rw [htokens, List.filterMap_append]
    exact hs.trans (List.sublist_append_left _ _)
  · cases h

end Parser
end Stencil
