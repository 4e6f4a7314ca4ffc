import Stencil.Proofs.Template.Parts
import Stencil.Template.Parser

/-!
What is true of every tree that is read from tokens. A property of trees that each construction of the
grammar keeps, from its parts to the whole, is true of the result; the lines that the nodes and the errors
get are lines of the tokens.
-/

namespace Stencil

namespace Parser

/-- All tokens ahead stand on lines of `G`. -/
def State.On (G : Nat → Prop) (s : State) : Prop := ∀ k ∈ s.rest, G k.line

/-- How a parser may end where the tokens ahead stand on lines of `G`: before such tokens again, with a
result of `P`, or in an error on such a line. -/
def Ending (G : Nat → Prop) {α : Type} (P : α → Prop) : EStateM.Result Unreadable State α → Prop
  | .ok a s => s.On G ∧ P a
  | .error (.malformed e) _ => G e.line
  | .error .exhausted _ => True

def Keeps (G : Nat → Prop) {α : Type} (x : Parser α) (P : α → Prop) : Prop :=
  ∀ s : State, s.On G → Ending G P (x.run s)

namespace Keeps

variable {G : Nat → Prop} {α β : Type} {x : Parser α} {P Q : α → Prop} {R : β → Prop}

theorem pure {a : α} (h : P a) : Keeps G (Pure.pure a) P := fun _ hs => ⟨hs, h⟩

theorem bind {f : α → Parser β} (hx : Keeps G x P) (hf : ∀ a, P a → Keeps G (f a) R) : Keeps G (x >>= f) R := by
  intro s hs
  have h := hx s hs
  rw [EStateM.run_bind]
  cases hrun : x.run s with
  | ok a s' =>
    rw [hrun] at h
    exact hf a h.2 s' h.1
  | error e s' =>
    rw [hrun] at h
    cases e with
    | malformed e => exact h
    | exhausted => trivial

theorem map {f : α → β} (hx : Keeps G x P) (h : ∀ a, P a → R (f a)) : Keeps G (f <$> x) R := by
  rw [map_eq_pure_bind]
  exact hx.bind fun a ha => .pure (h a ha)

theorem exhausted : Keeps G (throw .exhausted : Parser α) P := fun _ _ => trivial

theorem failAt {line : Nat} {cause : SyntaxCause} (h : G line) : Keeps G (failAt (α := α) line cause) P :=
  fun _ _ => h

theorem sees {kind : TokenKind} : Keeps G (sees kind) fun _ => True := fun _ hs => ⟨hs, trivial⟩

theorem seesOp {op : Operator} : Keeps G (seesOp op) fun _ => True := sees

theorem following : Keeps G following fun _ => True := fun _ hs => ⟨hs, trivial⟩

theorem get {f : State → Parser β} (h : ∀ s, Keeps G (f s) R) : Keeps G (MonadState.get >>= f) R :=
  fun s hs => h s s hs

theorem tick : Keeps G tick fun _ => True := fun _ hs => ⟨hs, trivial⟩

/-- A step that is taken only under a condition. -/
theorem stepIf {c : Prop} [Decidable c] {y : Parser β} (hx : Keeps G x P) (hy : Keeps G y R) :
    Keeps G (if c then x >>= fun _ => y else y) R := by
  split
  · exact hx.bind fun _ _ => hy
  · exact hy

/-- A check that fails under a condition. -/
theorem refuse {c : Prop} [Decidable c] {f : α → Parser β} {y : Parser β} (hx : Keeps G x fun _ => False)
    (hy : ¬ c → Keeps G y R) : Keeps G (if c then x >>= f else y) R := by
  split
  · exact hx.bind fun _ hf => hf.elim
  · exact hy ‹_›

/-- What is read only under a condition, and has a value of its own otherwise. -/
theorem optionally {c : Prop} [Decidable c] {a : α} {f : α → Parser β} (hx : Keeps G x P) (ha : P a)
    (hf : ∀ a, P a → Keeps G (f a) R) : Keeps G (if c then x >>= f else f a) R := by
  split
  · exact hx.bind hf
  · exact hf a ha

theorem iterate {I : α → Prop} {step : α → Parser (α ⊕ β)} (hstep : ∀ a, I a → Keeps G (step a) (Sum.elim I R))
    (fuel : Nat) {a : α} (ha : I a) : Keeps G (iterate step fuel a) R := by
  induction fuel generalizing a with
  | zero => exact exhausted
  | succ fuel ih =>
    refine tick.bind fun _ _ => ?_
    refine (hstep a ha).bind fun r hr => ?_
    cases r with
    | inl a => exact ih hr
    | inr b => exact .pure hr

/-- What each round keeps of what was found so far is true in the end. -/
theorem repeating {I : α → Prop} {step : α → Parser (α ⊕ β)} (hstep : ∀ a, I a → Keeps G (step a) (Sum.elim I R))
    {a : α} (ha : I a) : Keeps G (repeating step a) R :=
  .get fun s => iterate hstep (s.total + 1) ha

theorem mapM {f : α → Parser β} {as : List α} (hf : ∀ a ∈ as, Keeps G (f a) R) :
    Keeps G (as.mapM f) fun bs => ∀ b ∈ bs, R b := by
  induction as with
  | nil => exact .pure (by simp)
  | cons a as ih =>
    rw [List.mapM_cons]
    refine (hf a List.mem_cons_self).bind fun b hb => ?_
    refine (ih fun a ha => hf a (List.mem_cons_of_mem _ ha)).bind fun bs hbs => .pure ?_
    exact List.forall_mem_cons.mpr ⟨hb, hbs⟩

end Keeps

/-- Properties of expressions and statements that every construction of the grammar keeps, where it takes
its lines from `G`. -/
structure Construction (dialect : Dialect) (G : Nat → Prop) (E : Expr → Prop) (S : Stmt → Prop) : Prop where
  first : G 1
  line : ∀ {e}, E e → G e.line
  items : ∀ {l es}, E (.tuple l es) → ∀ e ∈ es, E e
  name : ∀ {n}, G n.line → E (.name n)
  const : ∀ {l v}, G l → E (.const l v)
  list : ∀ {l es}, G l → (∀ e ∈ es, E e) → E (.list l es)
  tuple : ∀ {l es}, G l → (∀ e ∈ es, E e) → E (.tuple l es)
  dict : ∀ {l} {ps : List (Expr × Expr)}, G l → (∀ p ∈ ps, E p.1 ∧ E p.2) → E (.dict l ps)
  member : ∀ {l t a}, G l → E t → E (.member l t a)
  item : ∀ {l t k}, G l → E t → E k → E (.item l t k)
  slice : ∀ {l t start stop step}, G l → E t → (∀ e ∈ start, E e) → (∀ e ∈ stop, E e) → (∀ e ∈ step, E e) →
    E (.slice l t start stop step)
  call : ∀ {l c args} {named : List (Text × Expr)}, G l → E c → (∀ e ∈ args, E e) → (∀ p ∈ named, E p.2) →
    E (.call l c args named)
  filter : ∀ {l t f args} {named : List (Text × Expr)}, dialect.filters.contains f → G l → E t →
    (∀ e ∈ args, E e) → (∀ p ∈ named, E p.2) → E (.filter l t f args named)
  test : ∀ {l t f args} {named : List (Text × Expr)} {negated}, dialect.tests.contains f → G l → E t →
    (∀ e ∈ args, E e) → (∀ p ∈ named, E p.2) → E (.test l t f args named negated)
  not : ∀ {l e}, G l → E e → E (.not l e)
  signed : ∀ {l sign e}, G l → E e → E (.signed l sign e)
  binary : ∀ {l op a b}, G l → E a → E b → E (.binary l op a b)
  logical : ∀ {l op a b}, G l → E a → E b → E (.logical l op a b)
  compare : ∀ {l e} {rest : List (CompareOp × Expr)}, G l → E e → rest ≠ [] → (∀ p ∈ rest, E p.2) →
    E (.compare l e rest)
  cond : ∀ {l v t otherwise}, G l → E v → E t → (∀ e ∈ otherwise, E e) → E (.cond l v t otherwise)
  text : ∀ {l t}, G l → S (.text l t)
  output : ∀ {l e}, G l → E e → S (.output l e)
  branches : ∀ {l} {bs : List (Expr × List Stmt)} {otherwise}, G l → bs ≠ [] →
    (∀ b ∈ bs, E b.1 ∧ ∀ s ∈ b.2, S s) → (∀ s ∈ otherwise, S s) → S (.branches l bs otherwise)
  loop : ∀ {l target iter filter body otherwise}, G l → (∀ k ∈ target.lines, G k) → E iter →
    (∀ e ∈ filter, E e) → (∀ s ∈ body, S s) → (∀ s ∈ otherwise, S s) →
    S (.loop l target iter filter body otherwise)
  assign : ∀ {l target e}, G l → (∀ k ∈ target.lines, G k) → E e → S (.assign l target e)
  capture : ∀ {l target body}, G l → (∀ k ∈ target.lines, G k) → (∀ s ∈ body, S s) → S (.capture l target body)
  define : ∀ {l name} {params : List Name} {defaults body}, G l → (∀ n ∈ params, G n.line) →
    defaults.length ≤ params.length → (∀ e ∈ defaults, E e) → (∀ s ∈ body, S s) →
    S (.define l name params defaults body)
  perform : ∀ {l e}, dialect.performs → G l → E e → S (.perform l e)

section

variable {dialect : Dialect} {G : Nat → Prop} {E : Expr → Prop} {S : Stmt → Prop}
  {nested : Entry → Parser Expr} {body : List Text → Parser (List Stmt)} {α : Type}
  (h : Construction dialect G E S)
include h

theorem line_current {s : State} (hs : s.On G) : G s.current.line := by
  unfold State.current
  cases hr : s.rest with
  | nil => exact h.first
  | cons k rest => exact hs k (by simp [hr])

theorem keeps_current : Keeps G current fun k => G k.line := fun _ hs => ⟨hs, line_current h hs⟩

theorem keeps_next : Keeps G next fun k => G k.line := by
  intro s hs
  change Ending G _ (EStateM.run (do
    if s.current.kind = .eof then return s.current
    set { s with rest := s.rest.drop 1 }
    return s.current) s)
  split
  · exact ⟨hs, line_current h hs⟩
  · exact ⟨fun k hk => hs k (List.mem_of_mem_drop hk), line_current h hs⟩

theorem keeps_fail {cause : SyntaxCause} {P : α → Prop} : Keeps G (fail (α := α) cause) P :=
  (keeps_current h).bind fun _ hk => .failAt hk

theorem keeps_skipIf {kind : TokenKind} : Keeps G (skipIf kind) fun _ => True := by
  refine Keeps.sees.bind fun seen _ => ?_
  split
  · exact (keeps_next h).bind fun _ _ => .pure trivial
  · exact .pure trivial

theorem keeps_expected {kind : TokenKind} {cause : TokenKind → SyntaxCause} :
    Keeps G (do if ← sees kind then next else fail (cause (← current).kind)) fun k => G k.line := by
  refine Keeps.sees.bind fun seen _ => ?_
  split
  · exact keeps_next h
  · exact (keeps_current h).bind fun _ _ => keeps_fail h

theorem keeps_expectOp {op : Operator} : Keeps G (expectOp op) fun k => G k.line := keeps_expected h

theorem keeps_expectWord {word : String} : Keeps G (expectWord word) fun k => G k.line := keeps_expected h

theorem keeps_expectTagEnd {tag : TagKind} : Keeps G (expectTagEnd tag) fun _ => True := by
  refine Keeps.sees.bind fun seen _ => ?_
  split
  · exact (keeps_next h).bind fun _ _ => .pure trivial
  · exact (keeps_current h).bind fun _ _ => keeps_fail h

theorem keeps_expectName : Keeps G expectName fun n => G n.line := by
  refine (keeps_current h).bind fun k hk => ?_
  split
  · exact (keeps_next h).bind fun _ _ => .pure hk
  · exact keeps_fail h

theorem keeps_bracketed {P : α → Prop} {close : Operator} {item : List α → Parser α}
    (hitem : ∀ items, (∀ a ∈ items, P a) → Keeps G (item items) P) :
    Keeps G (bracketed close item) fun items => ∀ a ∈ items, P a := by
  refine (Keeps.repeating (I := fun items => ∀ a ∈ items, P a) (R := fun items => ∀ a ∈ items, P a) ?_
    (by simp)).bind ?_
  · intro items hitems
    have more : Keeps G (do return .inl ((← item items) :: items) : Parser (List α ⊕ List α))
        (Sum.elim (fun items => ∀ a ∈ items, P a) fun items => ∀ a ∈ items, P a) :=
      (hitem items hitems).bind fun a ha => .pure (List.forall_mem_cons.mpr ⟨ha, hitems⟩)
    have done : ∀ a ∈ items.reverse, P a := fun a ha => hitems a (List.mem_reverse.mp ha)
    refine Keeps.seesOp.bind fun closed _ => ?_
    split
    · exact .pure done
    · dsimp only
      split
      · refine (keeps_expectOp h).bind fun _ _ => Keeps.seesOp.bind fun closed _ => ?_
        split
        · exact .pure done
        · exact more
      · exact more
  · exact fun items hitems => (keeps_expectOp h).bind fun _ _ => .pure hitems

theorem keeps_chain {operand : Parser Expr} {operator? : TokenKind → Option (Nat → Expr → Expr → Expr)}
    (hoperand : Keeps G operand E)
    (hcombine : ∀ kind combine, operator? kind = some combine →
      ∀ l a b, G l → E a → E b → E (combine l a b)) :
    Keeps G (chain operand operator?) E := by
  refine (keeps_current h).bind fun token hline => hoperand.bind fun first hfirst => ?_
  refine .repeating (I := E) (fun left hleft => ?_) hfirst
  refine (keeps_current h).bind fun k _ => ?_
  split
  · exact .pure hleft
  · rename_i combine hop
    refine (keeps_next h).bind fun _ _ => hoperand.bind fun right hright => .pure ?_
    exact hcombine _ _ hop _ _ _ hline hleft hright

theorem keeps_stringRun {first : Text} : Keeps G (stringRun first) fun _ => True := by
  refine .repeating (I := fun _ => True) (fun value _ => ?_) trivial
  refine (keeps_current h).bind fun k _ => ?_
  split
  · exact (keeps_next h).bind fun _ _ => .pure trivial
  · exact .pure trivial

section

variable (hn : ∀ e, Keeps G (nested e) E)
include hn

theorem keeps_primary : Keeps G (primary nested) E := by
  refine (keeps_current h).bind fun token hline => ?_
  dsimp only
  split
  · refine (keeps_next h).bind fun _ _ => ?_
    split
    · exact .pure (h.const hline)
    · exact .pure (h.name hline)
  · exact (keeps_next h).bind fun _ _ => (keeps_stringRun h).bind fun _ _ => .pure (h.const hline)
  · exact (keeps_next h).bind fun _ _ => .pure (h.const hline)
  · exact (keeps_next h).bind fun _ _ => .pure (h.const hline)
  · refine (keeps_next h).bind fun _ _ => (hn _).bind fun inner hinner => ?_
    exact (keeps_expectOp h).bind fun _ _ => .pure hinner
  · refine (keeps_next h).bind fun _ _ => ?_
    exact (keeps_bracketed h fun _ _ => hn _).bind fun items hitems => .pure (h.list hline hitems)
  · refine (keeps_next h).bind fun _ _ => ?_
    refine (keeps_bracketed (P := fun p => E p.1 ∧ E p.2) h fun _ _ => ?_).bind fun entries hentries =>
      .pure (h.dict hline hentries)
    refine (hn _).bind fun key hkey => (keeps_expectOp h).bind fun _ _ => ?_
    exact (hn _).bind fun value hvalue => .pure ⟨hkey, hvalue⟩
  · exact keeps_fail h

theorem keeps_argument {earlier : List (Option Text × Expr)} :
    Keeps G (argument nested earlier) fun a => E a.2 := by
  refine (keeps_current h).bind fun token _ => Keeps.following.bind fun after _ => ?_
  split
  · refine (keeps_next h).bind fun _ _ => (keeps_next h).bind fun _ _ => ?_
    exact (hn _).bind fun e he => .pure he
  · exact .refuse (keeps_fail h) fun _ => (hn _).bind fun e he => .pure he

/-- Arguments are made of the expressions read for them. -/
theorem keeps_arguments :
    Keeps G (arguments nested) fun a => (∀ e ∈ a.1, E e) ∧ ∀ p ∈ a.2, E p.2 := by
  refine (keeps_expectOp h).bind fun _ _ => ?_
  refine (keeps_bracketed (P := fun a => E a.2) h fun _ _ => keeps_argument h hn).bind fun all hall => .pure ?_
  constructor
  · intro e he
    obtain ⟨⟨word, e'⟩, hmem, hsome⟩ := List.mem_filterMap.mp he
    dsimp only at hsome
    split at hsome
    · cases hsome
      exact hall _ hmem
    · cases hsome
  · intro p hp
    obtain ⟨⟨word, e⟩, hmem, hsome⟩ := List.mem_filterMap.mp hp
    obtain ⟨w, -, rfl⟩ := Option.map_eq_some_iff.mp hsome
    exact hall _ hmem

theorem keeps_optionalArguments :
    Keeps G (optionalArguments nested) fun a => (∀ e ∈ a.1, E e) ∧ ∀ p ∈ a.2, E p.2 := by
  refine Keeps.seesOp.bind fun seen _ => ?_
  split
  · exact keeps_arguments h hn
  · exact .pure ⟨by simp, by simp⟩

theorem keeps_callOf {callee : Expr} (hc : E callee) : Keeps G (callOf nested callee) E := by
  refine (keeps_current h).bind fun token hline => ?_
  exact (keeps_arguments h hn).bind fun a ha => .pure (h.call hline hc ha.1 ha.2)

omit h in
theorem keeps_sliceBound : Keeps G (sliceBound nested) fun bound => ∀ e ∈ bound, E e := by
  refine Keeps.seesOp.bind fun _ _ => Keeps.seesOp.bind fun _ _ => ?_
  split
  · exact .pure (by simp)
  · exact (hn _).bind fun e he => .pure (by simpa using he)

omit h in
theorem keeps_firstBound : Keeps G (firstBound nested) fun bound => ∀ e ∈ bound, E e := by
  refine Keeps.seesOp.bind fun _ _ => ?_
  split
  · exact .pure (by simp)
  · exact (hn _).map fun e he => by simpa using he

theorem keeps_lastBound : Keeps G (lastBound nested) fun bound => ∀ e ∈ bound, E e := by
  refine (keeps_skipIf h).bind fun _ _ => ?_
  split
  · exact keeps_sliceBound hn
  · exact .pure (by simp)

theorem keeps_subscript {line : Nat} {target : Expr} (hline : G line) (ht : E target) :
    Keeps G (subscript nested line target) E := by
  rw [subscript_eq]
  refine (keeps_firstBound hn).bind fun start hstart => Keeps.seesOp.bind fun _ _ => ?_
  split
  · refine (keeps_next h).bind fun _ _ => (keeps_sliceBound hn).bind fun stop hstop => ?_
    exact (keeps_lastBound h hn).bind fun step hstep => .pure (h.slice hline ht hstart hstop hstep)
  · cases start with
    | some key => exact .pure (h.item hline ht (hstart key rfl))
    | none => exact .pure ht

omit hn in
theorem keeps_memberOf {line : Nat} {target : Expr} (hline : G line) (ht : E target) :
    Keeps G (memberOf line target) E := by
  refine (keeps_next h).bind fun token htoken => ?_
  split
  · exact .pure (h.member hline ht)
  · exact .pure (h.item hline ht (h.const htoken))
  · exact .failAt htoken

theorem keeps_postfixed {first : Expr} (hfirst : E first) : Keeps G (postfixed nested first) E := by
  refine .repeating (I := E) (fun target ht => ?_) hfirst
  refine (keeps_current h).bind fun token hline => ?_
  split
  · exact (keeps_next h).bind fun _ _ => (keeps_memberOf h hline ht).bind fun e he => .pure he
  · refine (keeps_next h).bind fun _ _ => (keeps_subscript h hn hline ht).bind fun e he => ?_
    exact (keeps_expectOp h).bind fun _ _ => .pure he
  · exact (keeps_callOf h hn ht).bind fun e he => .pure he
  · exact .pure ht

theorem keeps_filterOf {target : Expr} (ht : E target) : Keeps G (filterOf dialect nested target) E := by
  refine (keeps_expectOp h).bind fun token hline => (keeps_expectName h).bind fun name _ => ?_
  refine .refuse (.failAt hline) fun hknown => ?_
  refine (keeps_optionalArguments h hn).bind fun a ha => .pure ?_
  exact h.filter (by simpa using hknown) hline ht ha.1 ha.2

theorem keeps_testOf {target : Expr} (ht : E target) : Keeps G (testOf dialect nested target) E := by
  refine (keeps_expectWord h).bind fun token hline => (keeps_skipIf h).bind fun negated _ => ?_
  refine (keeps_expectName h).bind fun name _ => ?_
  refine .refuse (.failAt hline) fun hknown => ?_
  have whole : ∀ a : List Expr × List (Text × Expr), ((∀ e ∈ a.1, E e) ∧ ∀ p ∈ a.2, E p.2) →
      E (.test token.line target name.text a.1 a.2 negated) :=
    fun a ha => h.test (by simpa using hknown) hline ht ha.1 ha.2
  refine Keeps.seesOp.bind fun paren _ => (keeps_current h).bind fun k _ => ?_
  split
  · exact (keeps_arguments h hn).bind fun a ha => .pure (whole a ha)
  · split
    · refine (keeps_primary h hn).bind fun first hfirst => ?_
      refine (keeps_postfixed h hn hfirst).bind fun e he => .pure ?_
      exact whole ([e], []) ⟨by simpa using he, by simp⟩
    · exact .pure (whole ([], []) ⟨by simp, by simp⟩)

theorem keeps_filtered {first : Expr} (hfirst : E first) : Keeps G (filtered dialect nested first) E := by
  refine .repeating (I := E) (fun target ht => ?_) hfirst
  refine Keeps.seesOp.bind fun pipe _ => ?_
  split
  · exact (keeps_filterOf h hn ht).bind fun e he => .pure he
  · refine Keeps.sees.bind fun word _ => ?_
    split
    · exact (keeps_testOf h hn ht).bind fun e he => .pure he
    · refine Keeps.seesOp.bind fun paren _ => ?_
      split
      · exact (keeps_callOf h hn ht).bind fun e he => .pure he
      · exact .pure ht

theorem keeps_unary {withFilter : Bool} : Keeps G (unary dialect nested withFilter) E := by
  have rest : ∀ first, E first → Keeps G (do
      let e ← postfixed nested first
      if withFilter then filtered dialect nested e else return e) E := by
    intro first hfirst
    refine (keeps_postfixed h hn hfirst).bind fun e he => ?_
    split
    · exact keeps_filtered h hn he
    · exact .pure he
  have signed : ∀ sign line, G line → Keeps G (do
      let _ ← next
      let first ← pure (Expr.signed line sign (← nested .signed))
      let e ← postfixed nested first
      if withFilter then filtered dialect nested e else return e) E :=
    fun sign line hline => (keeps_next h).bind fun _ _ => (hn _).bind fun e he => rest _ (h.signed hline he)
  refine (keeps_current h).bind fun token hline => ?_
  dsimp only
  split
  · exact signed .minus _ hline
  · exact signed .plus _ hline
  · exact (keeps_primary h hn).bind rest

theorem keeps_power : Keeps G (power dialect nested) E := by
  refine keeps_chain h (keeps_unary h hn) fun kind combine hop l a b => ?_
  split at hop <;> cases hop
  exact h.binary

theorem keeps_product : Keeps G (product dialect nested) E := by
  refine keeps_chain h (keeps_power h hn) fun kind combine hop l a b => ?_
  split at hop <;> cases hop <;> exact h.binary

theorem keeps_concatenation : Keeps G (concatenation dialect nested) E := by
  refine keeps_chain h (keeps_product h hn) fun kind combine hop l a b => ?_
  split at hop <;> cases hop
  exact h.binary

theorem keeps_sum : Keeps G (sum dialect nested) E := by
  refine keeps_chain h (keeps_concatenation h hn) fun kind combine hop l a b => ?_
  split at hop <;> cases hop <;> exact h.binary

omit hn in
theorem keeps_comparison? : Keeps G comparison? fun _ => True := by
  have rest : ∀ op? : Option CompareOp, True → Keeps G (do
      if op?.isSome then
        let _ ← next
      return op?) fun _ => True := fun op? _ => .stepIf (keeps_next h) (.pure trivial)
  refine (keeps_current h).bind fun k _ => Keeps.following.bind fun k' _ => ?_
  dsimp only
  split
  case h_7 =>
    split
    · exact .bind (.pure trivial) rest
    · split
      · exact (keeps_next h).bind fun _ _ => .bind (.pure trivial) rest
      · exact .bind (.pure trivial) rest
  all_goals exact .bind (.pure trivial) rest

theorem keeps_compared : Keeps G (compared dialect nested) E := by
  refine (keeps_current h).bind fun token hline => (keeps_sum h hn).bind fun first hfirst => ?_
  refine (Keeps.repeating (I := fun rest => ∀ p ∈ rest, E p.2) (R := fun rest => ∀ p ∈ rest, E p.2) ?_
    (by simp)).bind ?_
  · intro rest hrest
    refine (keeps_comparison? h).bind fun op? _ => ?_
    split
    · exact .pure fun p hp => hrest p (List.mem_reverse.mp hp)
    · exact (keeps_sum h hn).bind fun e he => .pure (List.forall_mem_cons.mpr ⟨he, hrest⟩)
  · intro rest hrest
    refine .pure ?_
    split
    · exact hfirst
    · rename_i hne
      exact h.compare hline hfirst (by simpa using hne) hrest

theorem keeps_negated : Keeps G (negated dialect nested) E := by
  refine (keeps_current h).bind fun token hline => (keeps_skipIf h).bind fun word _ => ?_
  split
  · exact (hn _).bind fun e he => .pure (h.not hline he)
  · exact keeps_compared h hn

theorem keeps_conjunction : Keeps G (conjunction dialect nested) E := by
  refine keeps_chain h (keeps_negated h hn) fun kind combine hop l a b => ?_
  split at hop
  · split at hop <;> cases hop
    exact h.logical
  · cases hop

theorem keeps_disjunction : Keeps G (disjunction dialect nested) E := by
  refine keeps_chain h (keeps_conjunction h hn) fun kind combine hop l a b => ?_
  split at hop
  · split at hop <;> cases hop
    exact h.logical
  · cases hop

theorem keeps_conditional : Keeps G (conditional dialect nested) E := by
  refine (keeps_current h).bind fun token hline => (keeps_disjunction h hn).bind fun first hfirst => ?_
  refine .repeating (I := E) (fun value hvalue => ?_) hfirst
  refine (keeps_skipIf h).bind fun word _ => ?_
  split
  · refine (keeps_disjunction h hn).bind fun test htest => (keeps_skipIf h).bind fun word _ => ?_
    refine .optionally (P := fun otherwise => ∀ e ∈ otherwise, E e) ((hn _).map fun e he => by simpa using he) nofun ?_
    exact fun otherwise ho => .pure (h.cond hline hvalue htest ho)
  · exact .pure hvalue

omit hn in
theorem keeps_tuple {item : Parser Expr} {endWords : List Text} {parenthesized : Bool} (hitem : Keeps G item E) :
    Keeps G (tuple item endWords parenthesized) E := by
  refine (keeps_current h).bind fun token hline => ?_
  refine (Keeps.repeating (I := fun items => ∀ e ∈ items, E e) (R := fun r => ∀ e ∈ r.1, E e) ?_ (by simp)).bind ?_
  · intro items hitems
    have back : ∀ {es : List Expr}, (∀ e ∈ es, E e) → ∀ e ∈ es.reverse, E e :=
      fun hes e he => hes e (List.mem_reverse.mp he)
    refine .stepIf (keeps_expectOp h) ((keeps_current h).bind fun k _ => ?_)
    split
    · exact .pure (back hitems)
    · refine hitem.bind fun e he => Keeps.seesOp.bind fun comma _ => ?_
      have hmore : ∀ x ∈ e :: items, E x := List.forall_mem_cons.mpr ⟨he, hitems⟩
      split
      · exact .pure hmore
      · exact .pure (back hmore)
  · rintro ⟨items, comma⟩ hitems
    dsimp only at hitems ⊢
    split
    · exact .pure (hitems _ List.mem_cons_self)
    · split
      · exact (keeps_current h).bind fun _ _ => (keeps_fail (P := fun _ => False) h).bind fun _ hf => hf.elim
      · exact .pure (h.tuple hline hitems)
    · exact .pure (h.tuple hline hitems)

theorem keeps_production (e : Entry) : Keeps G (production dialect nested e) E := by
  cases e with
  | parenthesized => exact keeps_tuple h (keeps_conditional h hn)
  | conditional => exact keeps_conditional h hn
  | negation => exact keeps_negated h hn
  | signed => exact keeps_unary h hn

end

theorem keeps_entryWithin (depth : Nat) (e : Entry) : Keeps G (entryWithin dialect depth e) E := by
  induction depth generalizing e with
  | zero => exact .exhausted
  | succ depth ih =>
    refine Keeps.tick.bind fun _ _ => ?_
    exact keeps_production h ih e

theorem keeps_entry (e : Entry) : Keeps G (entry dialect e) E :=
  .get fun s => keeps_entryWithin h (s.total + 1) e

/-! Statements. -/

theorem keeps_nameOf {e : Expr} (he : E e) : Keeps G (nameOf e) fun n => G n.line := by
  unfold nameOf
  split
  · exact .pure (h.line he)
  · exact .failAt (h.line he)

theorem keeps_target {endWords : List Text} :
    Keeps G (target dialect endWords) fun target => ∀ l ∈ target.lines, G l := by
  refine (keeps_tuple h (keeps_primary h (keeps_entry h))).bind fun e he => ?_
  split
  · exact .pure (by simpa [Target.lines, Expr.line] using h.line he)
  · refine (Keeps.mapM fun e' he' => keeps_nameOf h (h.items he e' he')).bind fun names hnames => .pure ?_
    have hline := h.line he
    simpa [Target.lines] using ⟨hline, hnames⟩
  · exact .failAt (h.line he)

variable (hb : ∀ words, Keeps G (body words) fun stmts => ∀ s ∈ stmts, S s)
include hb

theorem keeps_bodyUntil {words : List String} :
    Keeps G (bodyUntil body words) fun stmts => ∀ s ∈ stmts, S s := by
  refine (keeps_expectTagEnd h).bind fun _ _ => (hb _).bind fun stmts hstmts => ?_
  exact Keeps.sees.bind fun ended _ => .refuse (keeps_fail h) fun _ => .pure hstmts

theorem keeps_lastBody {word : String} : Keeps G (lastBody body word) fun stmts => ∀ s ∈ stmts, S s :=
  (keeps_bodyUntil h hb).bind fun _ hstmts => (keeps_next h).bind fun _ _ => .pure hstmts

theorem keeps_branches {line : Nat} (hline : G line) : Keeps G (branches dialect body line) S := by
  refine .repeating (I := fun done => ∀ b ∈ done, E b.1 ∧ ∀ s ∈ b.2, S s) (fun done hdone => ?_) (by simp)
  refine (keeps_tuple h (keeps_disjunction h (keeps_entry h))).bind fun test htest => ?_
  refine (keeps_bodyUntil h hb).bind fun stmts hstmts => (keeps_next h).bind fun word _ => ?_
  have hall : ∀ b ∈ (test, stmts) :: done, E b.1 ∧ ∀ s ∈ b.2, S s :=
    List.forall_mem_cons.mpr ⟨⟨htest, hstmts⟩, hdone⟩
  have whole : ∀ otherwise, (∀ s ∈ otherwise, S s) → S (.branches line ((test, stmts) :: done).reverse otherwise) :=
    fun otherwise ho => h.branches hline (by simp) (fun b hb => hall b (List.mem_reverse.mp hb)) ho
  dsimp only
  split
  · exact .pure hall
  · split
    · exact (keeps_lastBody h hb).bind fun otherwise ho => .pure (whole otherwise ho)
    · exact .pure (whole [] (by simp))

theorem keeps_loop {line : Nat} (hline : G line) : Keeps G (loop dialect body line) S := by
  refine (keeps_target h).bind fun target htarget => (keeps_expectWord h).bind fun _ _ => ?_
  refine (keeps_tuple h (keeps_disjunction h (keeps_entry h))).bind fun iter hiter => ?_
  refine (keeps_skipIf h).bind fun word _ => ?_
  have filtered : Keeps G (some <$> conditional dialect (entry dialect)) fun filter => ∀ e ∈ filter, E e :=
    (keeps_conditional h (keeps_entry h)).map fun e he => by simpa using he
  refine .optionally filtered nofun fun filter hfilter => ?_
  refine (keeps_bodyUntil h hb).bind fun stmts hstmts => (keeps_next h).bind fun k _ => ?_
  exact .optionally (keeps_lastBody h hb) (by simp) fun otherwise ho =>
    .pure (h.loop hline htarget hiter hfilter hstmts ho)

theorem keeps_assignment {line : Nat} (hline : G line) : Keeps G (assignment dialect body line) S := by
  refine (keeps_target h).bind fun target htarget => (keeps_skipIf h).bind fun equals _ => ?_
  split
  · refine (keeps_tuple h (keeps_conditional h (keeps_entry h))).bind fun e he => .pure ?_
    exact h.assign hline htarget he
  · exact (keeps_lastBody h hb).bind fun stmts hstmts => .pure (h.capture hline htarget hstmts)

omit hb in
/-- There are no more defaults than parameters. -/
theorem keeps_parameters : Keeps G (parameters dialect) fun p =>
    (∀ n ∈ p.1, G n.line) ∧ p.2.length ≤ p.1.length ∧ ∀ e ∈ p.2, E e := by
  let I : List Name × List Expr → Prop := fun p =>
    (∀ n ∈ p.1, G n.line) ∧ p.2.length ≤ p.1.length ∧ ∀ e ∈ p.2, E e
  refine (keeps_expectOp h).bind fun _ _ => (Keeps.repeating (I := I) (R := I) (a := ([], [])) ?_ ?_).bind ?_
  · rintro ⟨params, defaults⟩ ⟨hparams, hle, hdefaults⟩
    refine Keeps.seesOp.bind fun closed _ => ?_
    split
    · exact .pure ⟨by simpa using hparams, by simpa using hle, by simpa using hdefaults⟩
    · refine .stepIf (keeps_expectOp h) ?_
      refine (keeps_expectName h).bind fun param hparam => (keeps_skipIf h).bind fun equals _ => ?_
      have hmore : ∀ n ∈ param :: params, G n.line := List.forall_mem_cons.mpr ⟨hparam, hparams⟩
      split
      · refine (keeps_conditional h (keeps_entry h)).bind fun e he => .pure ⟨hmore, ?_, ?_⟩
        · simpa using hle
        · exact List.forall_mem_cons.mpr ⟨he, hdefaults⟩
      · exact .refuse (keeps_fail h) fun _ => .pure ⟨hmore, Nat.le_succ_of_le hle, hdefaults⟩
  · exact ⟨by simp, Nat.le_refl _, by simp⟩
  · exact fun p hp => (keeps_expectOp h).bind fun _ _ => .pure hp

theorem keeps_definition {line : Nat} (hline : G line) : Keeps G (definition dialect body line) S := by
  refine (keeps_expectName h).bind fun name _ => (keeps_parameters h).bind fun p hp => ?_
  refine (keeps_lastBody h hb).bind fun stmts hstmts => .pure ?_
  exact h.define hline hp.1 hp.2.1 hp.2.2 hstmts

theorem keeps_statement : Keeps G (statement dialect body) S := by
  have after : ∀ {x : Parser Stmt}, Keeps G x S → Keeps G (do let _ ← next; x) S :=
    fun hx => (keeps_next h).bind fun _ _ => hx
  refine (keeps_current h).bind fun token hline => ?_
  dsimp only
  split
  · split
    · exact after (keeps_branches h hb hline)
    · split
      · exact after (keeps_loop h hb hline)
      · split
        · exact after (keeps_assignment h hb hline)
        · split
          · exact after (keeps_definition h hb hline)
          · split
            · rename_i hdo
              have hperforms : dialect.performs := (Bool.and_eq_true_iff.mp hdo).2
              exact after ((keeps_tuple h (keeps_conditional h (keeps_entry h))).bind
                fun e he => .pure (h.perform hperforms hline he))
            · exact keeps_fail h
  · exact keeps_fail h

theorem keeps_statements {endWords : List Text} :
    Keeps G (statements dialect body endWords) fun stmts => ∀ s ∈ stmts, S s := by
  refine .repeating (I := fun done => ∀ s ∈ done, S s) (fun done hdone => ?_) (by simp)
  have finish : ∀ s ∈ done.reverse, S s := fun s hs => hdone s (List.mem_reverse.mp hs)
  have stmtAfter : Keeps G (do
      let stmt ← statement dialect body
      expectTagEnd .statement
      return .inl (stmt :: done) : Parser (List Stmt ⊕ List Stmt))
      (Sum.elim (fun done => ∀ s ∈ done, S s) fun stmts => ∀ s ∈ stmts, S s) := by
    refine (keeps_statement h hb).bind fun stmt hstmt => (keeps_expectTagEnd h).bind fun _ _ => .pure ?_
    exact List.forall_mem_cons.mpr ⟨hstmt, hdone⟩
  refine (keeps_current h).bind fun token hline => ?_
  dsimp only
  split
  · exact .pure finish
  · exact (keeps_next h).bind fun _ _ => .pure (List.forall_mem_cons.mpr ⟨h.text hline, hdone⟩)
  · refine (keeps_next h).bind fun _ _ => ?_
    refine (keeps_tuple h (keeps_conditional h (keeps_entry h))).bind fun e he => ?_
    refine (keeps_expectTagEnd h).bind fun _ _ => .pure ?_
    exact List.forall_mem_cons.mpr ⟨h.output hline he, hdone⟩
  · refine (keeps_next h).bind fun _ _ => (keeps_current h).bind fun k _ => ?_
    split
    · split
      · exact .pure finish
      · exact stmtAfter
    · exact stmtAfter
  · exact keeps_fail h

omit hb in
theorem keeps_bodyWithin (depth : Nat) (endWords : List Text) :
    Keeps G (bodyWithin dialect depth endWords) fun stmts => ∀ s ∈ stmts, S s := by
  induction depth generalizing endWords with
  | zero => exact .exhausted
  | succ depth ih =>
    refine Keeps.tick.bind fun _ _ => ?_
    exact keeps_statements h ih

omit hb in
/-- What every construction keeps is true of the trees of all token lists, and errors name lines of
tokens. -/
theorem parse_of_construction {tokens : List Token} (ht : ∀ k ∈ tokens, G k.line) :
    match parse dialect tokens with
    | .ok stmts => ∀ s ∈ stmts, S s
    | .error (.malformed e) => G e.line
    | .error .exhausted => True := by
  have hend := keeps_bodyWithin h (tokens.length + 1) [] ⟨tokens, tokens.length, 0⟩ ht
  unfold parse
  cases hrun : (bodyWithin dialect (tokens.length + 1) []).run ⟨tokens, tokens.length, 0⟩ with
  | ok stmts s =>
    rw [hrun] at hend
    exact hend.2
  | error e s =>
    rw [hrun] at hend
    cases e with
    | malformed e => exact hend
    | exhausted => trivial

end

end Parser
end Stencil
