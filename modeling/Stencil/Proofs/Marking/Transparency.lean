import Stencil.Proofs.Marking.Loosened
import Stencil.Render.Environment

/-! Where a template runs to its end, so does its loosened form, and writes the same. -/
namespace Stencil.Marking

variable {features : Features} {L : Leeway} {n k : Nat} {scope : ScopeId} {e e' : Expr} {v w : Value} {s u : Store}

/-- Evaluation to a depth is followed by the evaluation of loosened forms, to the same depth and deeper. -/
structure Transparent (L : Leeway) (n : Nat) : Prop where
  evaluate {k : Nat} {scope : ScopeId} {e e' : Expr} (hk : n ≤ k) (he : Loosened L e e') :
    Follows L.terms (Eval.evaluate L.features n scope e) (Eval.evaluate L.features k scope e') L.terms.Same
  arguments {k : Nat} {scope : ScopeId} {args args' : List Expr} {named named' : List (Text × Expr)} (hk : n ≤ k)
    (hargs : List.Forall₂ (Loosened L) args args') (hnames : named.map (·.1) = named'.map (·.1))
    (hnamed : List.Forall₂ (Loosened L) (named.map (·.2)) (named'.map (·.2))) :
    Follows L.terms (Eval.arguments L.features n scope args named)
      (Eval.arguments L.features k scope args' named') L.terms.SameArguments
  call {k : Nat} {v w : Value} {a b : Arguments} (hk : n ≤ k) (h : L.terms.Same v w) (ha : L.terms.SameArguments a b) :
    Follows L.terms (Eval.call L.features n v a) (Eval.call L.features k w b) L.terms.Same
  render {k : Nat} {scope : ScopeId} {body body' : List Stmt} (hk : n ≤ k)
    (hbody : List.Forall₂ (LoosenedStmt L) body body') :
    Follows L.terms (Eval.render L.features n scope body) (Eval.render L.features k scope body') Eq
  execute {k : Nat} {scope : ScopeId} {stmt stmt' : Stmt} (hk : n ≤ k) (h : LoosenedStmt L stmt stmt') :
    Follows L.terms (Eval.execute L.features n scope stmt) (Eval.execute L.features k scope stmt') Eq

theorem Transparent.zero : Transparent L 0 where
  evaluate _ _ := by
    unfold Eval.evaluate
    exact .throw
  arguments _ _ _ _ := by
    unfold Eval.arguments
    exact .throw
  call _ _ _ := by
    unfold Eval.call
    exact .throw
  render _ _ := by
    unfold Eval.render
    exact .throw
  execute _ _ := by
    unfold Eval.execute
    exact .throw

/-! ## Checks -/

/-- Nothing has a value at no depth. -/
theorem exists_of_evaluate (h : Eval.evaluate features n scope e s = .ok v u) : ∃ m, n = m + 1 := by
  cases n with
  | zero =>
    unfold Eval.evaluate at h
    cases h
  | succ m => exact ⟨m, rfl⟩

theorem evaluate_const (l : Nat) (c : Constant) : Eval.evaluate features (n + 1) scope (.const l c) = pure c.value := by
  simp only [Eval.evaluate]

/-- Adding the empty text lets texts pass, and nothing else. -/
theorem binary_add_empty : Eval.binary .add v (.text []) s = .ok w u ↔ ∃ t, v.text? = some t ∧ w = .text t ∧ u = s := by
  have htext : ∀ t, v.text? = some t → Eval.binary .add v (.text []) s = .ok (.text t) s := by
    intro t ht
    have hadd : Eval.binary .add v (.text []) s = .ok (.text (t ++ [])) s := by
      cases v <;> cases ht <;> rfl
    rwa [List.append_nil] at hadd
  constructor
  · intro h
    cases ht : v.text? with
    | some t =>
      rw [htext t ht] at h
      cases h
      exact ⟨t, rfl, rfl, rfl⟩
    | none => cases v <;> cases ht <;> cases h
  · rintro ⟨t, ht, rfl, rfl⟩
    exact htext t ht

theorem textual_ok {l l' : Nat} (h : Eval.evaluate features (n + 1) scope (textual l l' e) s = .ok v u) :
    ∃ w t, Eval.evaluate features n scope e s = .ok w u ∧ w.text? = some t ∧ v = .text t := by
  unfold textual at h
  simp only [Eval.evaluate] at h
  obtain ⟨w, s', hw, h⟩ := exists_of_bind_ok h
  obtain ⟨m, rfl⟩ := exists_of_evaluate hw
  rw [evaluate_const, pure_bind] at h
  obtain ⟨t, ht, rfl, rfl⟩ := binary_add_empty.mp h
  exact ⟨w, t, hw, ht, rfl⟩

theorem display_of_text {t : Text} (ht : v.text? = some t) : Eval.display v s = .ok t s := by
  apply readDeep_eq
  cases v <;> cases ht <;> rfl

theorem arguments_nil : Eval.arguments features (n + 1) scope [] [] = pure ⟨[], []⟩ := by
  simp only [Eval.arguments, List.mapM_nil, pure_bind]
  rfl

theorem evaluate_markedSafe {l : Nat} (hsafe : features.filters.lookup (Text.ofString "safe") = some .safe) :
    Eval.evaluate features (n + 2) scope (markedSafe l e) =
      Eval.evaluate features (n + 1) scope e >>= fun v => do return .safe (← Eval.display v) := by
  unfold markedSafe
  rw [Eval.evaluate]
  simp only [hsafe, arguments_nil, pure_bind]
  rfl

/-- The values of the parts are told of what their expressions are told of. -/
theorem Follows.told {R : Terms}
    (h : Follows R (Eval.evaluate L.features n scope e) (Eval.evaluate L.features k scope e') R.Same) :
    Follows R (Eval.evaluate L.features n scope e) (Eval.evaluate L.features k scope e') fun v w =>
      R.Same v w ∧ (∀ p, Never L.features p e → ¬ p v) ∧ ∀ p, Never L.features p e' → ¬ p w := by
  intro s t hst v u hx
  rcases h s t hst v u hx with ⟨w, u', hy, huw, hvw⟩ | hstops
  · exact .inl ⟨w, u', hy, huw, hvw, fun p hp => hp n scope s v u hx, fun p hp => hp k scope t w u' hy⟩
  · exact .inr hstops

theorem eq_or_of_clear (h : Clear L e e') (hvw : L.terms.Same v w) (hv : ∀ p, Never L.features p e → ¬ p v)
    (hw : ∀ p, Never L.features p e' → ¬ p w) : v = w ∨ v.text? = none := by
  rcases h with h | h | ⟨h, h'⟩
  · exact .inl (hvw.strict h)
  · exact .inr (not_not.mp (hv IsText h))
  · cases hvw.form with
    | refl => exact .inl rfl
    | marked t => exact absurd ⟨t, rfl⟩ (hw IsMarked h')
    | unmarked t => exact absurd ⟨t, rfl⟩ (hv IsMarked h)
    | undefined r r' => exact .inr rfl

/-! ## Expressions -/

section steps

variable (ih : Transparent L n) (hk : n ≤ k)
include ih hk

theorem follows_textual {l l' : Nat} (hmarks : ¬ L.strict) (he : Loosened L e e') :
    Follows L.terms (Eval.evaluate L.features (n + 1) scope (textual l l' e))
      (Eval.evaluate L.features (k + 1) scope e') L.terms.Same := by
  intro s t hst v u hx
  obtain ⟨w, text, hw, htext, rfl⟩ := textual_ok hx
  rcases ih.evaluate (Nat.le_succ_of_le hk) he s t hst w u hw with ⟨w', u', hw', huu, hsame⟩ | hstops
  · refine .inl ⟨w', u', hw', huu, ?_, fun hstrict => absurd hstrict hmarks⟩
    have htext' := hsame.text?_eq.symm.trans htext
    cases w' <;> cases htext' <;> rfl
  · exact .inr hstops

theorem follows_marked {l l' l'' : Nat} (hsafe : L.features.filters.lookup (Text.ofString "safe") = some .safe)
    (hmarks : ¬ L.strict) (he : Loosened L e e') :
    Follows L.terms (Eval.evaluate L.features (n + 1) scope (textual l l' e))
      (Eval.evaluate L.features (k + 1) scope (markedSafe l'' e')) L.terms.Same := by
  intro s t hst v u hx
  obtain ⟨w, text, hw, htext, rfl⟩ := textual_ok hx
  obtain ⟨m, rfl⟩ := exists_of_evaluate hw
  obtain ⟨k, rfl⟩ : ∃ j, k = j + 1 := ⟨k - 1, by omega⟩
  rw [evaluate_markedSafe hsafe]
  rcases ih.evaluate hk he s t hst w u hw with ⟨w', u', hw', huu, hsame⟩ | hstops
  · have hdisplay : Eval.display w' u' = .ok text u' := display_of_text (hsame.text?_eq.symm.trans htext)
    exact .inl ⟨.safe text, u', (bind_ok hw').trans (bind_ok hdisplay), huu, rfl, fun hstrict => absurd hstrict hmarks⟩
  · exact .inr (hstops.bind _)

theorem follows_guarded {l : Nat} {test failing : Expr} (he : Loosened L e e') (htest : Still L.features test)
    (hfailing : Never L.features (fun _ => True) failing) :
    Follows L.terms (Eval.evaluate L.features (n + 1) scope (.cond l e test (some failing)))
      (Eval.evaluate L.features (k + 1) scope e') L.terms.Same := by
  intro s t hst v u hx
  simp only [Eval.evaluate] at hx
  obtain ⟨c, s', hc, hx⟩ := exists_of_bind_ok hx
  cases htest n scope s c s' hc
  obtain ⟨holds, s'', hholds, hx⟩ := exists_of_bind_ok hx
  cases hholds
  by_cases hc : s.isTruthy c = true
  · rw [if_pos hc] at hx
    exact ih.evaluate (Nat.le_succ_of_le hk) he s t hst v u hx
  · rw [if_neg hc] at hx
    exact absurd trivial (hfailing n scope s v u hx)

theorem follows_optional {e? e'? : Option Expr} : Option.Rel (Loosened L) e? e'? →
    Follows L.terms
      (match e? with
        | some e => Eval.evaluate L.features n scope e
        | none => return .none)
      (match e'? with
        | some e => Eval.evaluate L.features k scope e
        | none => return .none) L.terms.Same := by
  intro h
  cases h with
  | some he => exact ih.evaluate hk he
  | none => exact .pure (.refl _)

theorem follows_all {es es' : List Expr} (hes : List.Forall₂ (Loosened L) es es') :
    Follows L.terms (es.mapM (Eval.evaluate L.features n scope)) (es'.mapM (Eval.evaluate L.features k scope))
      (List.Forall₂ L.terms.Same) :=
  .mapM hes fun _ _ he => ih.evaluate hk he

theorem follows_entries {ps ps' : List (Expr × Expr)}
    (hkeys : List.Forall₂ (Loosened L) (ps.map (·.1)) (ps'.map (·.1)))
    (hvalues : List.Forall₂ (Loosened L) (ps.map (·.2)) (ps'.map (·.2))) :
    Follows L.terms
      (ps.mapM fun (key, value) => do
        let key ← Eval.display (← Eval.evaluate L.features n scope key)
        return (key, ← Eval.evaluate L.features n scope value))
      (ps'.mapM fun (key, value) => do
        let key ← Eval.display (← Eval.evaluate L.features k scope key)
        return (key, ← Eval.evaluate L.features k scope value)) (List.Forall₂ L.terms.SameEntry) := by
  refine .mapM (forall₂_pairs hkeys hvalues) fun p q hpq => ?_
  refine (ih.evaluate hk hpq.1).bind fun _ _ hvw => (follows_display hvw).bind_same fun key => ?_
  exact (ih.evaluate hk hpq.2).bind fun _ _ hvw => .pure (.of hvw)

theorem follows_named {named named' : List (Text × Expr)} (hnames : named.map (·.1) = named'.map (·.1))
    (hnamed : List.Forall₂ (Loosened L) (named.map (·.2)) (named'.map (·.2))) :
    Follows L.terms
      (named.mapM fun (name, e) => return (name, ← Eval.evaluate L.features n scope e))
      (named'.mapM fun (name, e) => return (name, ← Eval.evaluate L.features k scope e))
      (List.Forall₂ L.terms.SameEntry) := by
  refine .mapM (forall₂_pairs (forall₂_of_eq hnames) hnamed) ?_
  rintro ⟨name, e⟩ ⟨_, e'⟩ ⟨rfl, he⟩
  exact (ih.evaluate hk he).bind fun _ _ hvw => .pure (.of hvw)

theorem follows_compared {rest rest' : List (CompareOp × Expr)} (hops : rest.map (·.1) = rest'.map (·.1))
    (hrest : List.Forall₂ (Loosened L) (rest.map (·.2)) (rest'.map (·.2))) (h : L.terms.Same v w) :
    Follows L.terms
      (rest.foldlM (fun (state : Bool × Value) (op, operand) => do
        if !state.1 then return state
        let right ← Eval.evaluate L.features n scope operand
        return (← Eval.compare op state.2 right, right)) (true, v))
      (rest'.foldlM (fun (state : Bool × Value) (op, operand) => do
        if !state.1 then return state
        let right ← Eval.evaluate L.features k scope operand
        return (← Eval.compare op state.2 right, right)) (true, w)) fun p q => p.1 = q.1 ∧ L.terms.Same p.2 q.2 := by
  refine .foldlM (forall₂_pairs (forall₂_of_eq hops) hrest) ⟨rfl, h⟩ ?_
  rintro ⟨holds, x⟩ ⟨_, y⟩ ⟨op, operand⟩ ⟨_, operand'⟩ ⟨rfl, hxy⟩ ⟨rfl, hoperand⟩
  cases holds with
  | false => exact .pure ⟨rfl, hxy⟩
  | true =>
    refine (ih.evaluate hk hoperand).bind fun x' y' hxy' => ?_
    exact (follows_compare op hxy hxy').bind_same fun _ => .pure ⟨rfl, hxy'⟩

theorem follows_evaluate (hsafe : L.features.filters.lookup (Text.ofString "safe") = some .safe)
    (he : Loosened L e e') :
    Follows L.terms (Eval.evaluate L.features (n + 1) scope e) (Eval.evaluate L.features (k + 1) scope e')
      L.terms.Same := by
  cases he with
  | textual hmarks he => exact follows_textual ih hk hmarks he
  | marked hmarks he => exact follows_marked ih hk hsafe hmarks he
  | guarded he htest hfailing => exact follows_guarded ih hk he htest hfailing
  | @name name name' hname =>
    simp only [Eval.evaluate]
    rw [hname]
    exact .read fun _ _ hst => hst.resolve scope name'.text
  | const c =>
    simp only [Eval.evaluate]
    exact .pure (.refl _)
  | list hes | tuple hes =>
    simp only [Eval.evaluate]
    exact (follows_all ih hk hes).bind fun _ _ hxs => follows_newList hxs
  | dict hkeys hvalues =>
    simp only [Eval.evaluate]
    exact (follows_entries ih hk hkeys hvalues).bind fun _ _ hps => follows_mappingOf hps
  | member he attr =>
    simp only [Eval.evaluate]
    exact (ih.evaluate hk he).bind fun _ _ hvw => follows_member hvw attr
  | item he hkey htarget hclear =>
    simp only [Eval.evaluate]
    refine (ih.evaluate hk he).told.bind ?_
    rintro v v' ⟨hv, htold, htold'⟩
    refine (ih.evaluate hk hkey).told.bind ?_
    rintro w w' ⟨hw, hkeyTold, hkeyTold'⟩
    apply follows_item hv hw
    · rcases htarget with h | h
      · exact (eq_or_of_clear h hv htold htold').imp id .inl
      · exact .inr (.inr fun x hx => hkeyTold IsNumber h ⟨x, hx⟩)
    · rcases hclear with h | h
      · refine (eq_or_of_clear h hw hkeyTold hkeyTold').imp id fun hnone name hname => ?_
        rw [hnone] at hname
        cases hname
      · right
        intro name hname
        exact Bool.eq_false_iff.mpr fun hreserved => hkeyTold IsReserved h ⟨name, hname, hreserved⟩
  | slice he hstart hstop hstep htarget =>
    simp only [Eval.evaluate]
    refine (ih.evaluate hk he).told.bind ?_
    rintro v v' ⟨hv, htold, htold'⟩
    refine (follows_optional ih hk hstart).bind fun _ _ hfrom => (follows_optional ih hk hstop).bind fun _ _ hto => ?_
    refine (follows_optional ih hk hstep).bind fun _ _ hby => ?_
    exact follows_slice hv (htarget.imp id fun h => eq_or_of_clear h hv htold htold') hfrom hto hby
  | call he hargs hnames hnamed =>
    simp only [Eval.evaluate]
    refine (ih.evaluate hk he).bind fun _ _ hvw => ?_
    exact (ih.arguments hk hargs hnames hnamed).bind fun _ _ ha => ih.call hk hvw ha
  | @filter l l' e e' name args args' named named' he hargs hnames hnamed htarget =>
    simp only [Eval.evaluate]
    cases hf : L.features.filters.lookup name with
    | none => exact .throw
    | some f =>
      refine (ih.evaluate hk he).told.bind ?_
      rintro v v' ⟨hv, htold, htold'⟩
      refine (ih.arguments hk hargs hnames hnamed).bind fun _ _ ha => follows_applyFilter f hv ha ?_
      rintro rfl
      exact eq_or_of_clear (htarget hf) hv htold htold'
  | @test l l' e e' name args args' named named' negated he hargs hnames hnamed =>
    simp only [Eval.evaluate]
    cases L.features.tests.lookup name with
    | none => exact .throw
    | some t =>
      refine (ih.evaluate hk he).bind fun _ _ hvw => (ih.arguments hk hargs hnames hnamed).bind fun _ _ ha => ?_
      exact (follows_applyTest t hvw ha).bind_same fun _ => .pure (.refl _)
  | not he =>
    simp only [Eval.evaluate]
    exact (ih.evaluate hk he).bind fun _ _ hvw => (follows_truthy hvw).bind_same fun _ => .pure (.refl _)
  | @signed l l' sign e e' he =>
    simp only [Eval.evaluate]
    exact (ih.evaluate hk he).bind fun _ _ hvw => follows_signed sign hvw
  | @binary l l' op left left' right right' hleft hright =>
    simp only [Eval.evaluate]
    refine (ih.evaluate hk hleft).bind fun _ _ hvw => ?_
    exact (ih.evaluate hk hright).bind fun _ _ hxy => follows_binary op hvw hxy
  | logical hleft hright =>
    simp only [Eval.evaluate]
    refine (ih.evaluate hk hleft).bind fun _ _ hvw => (follows_truthy hvw).bind_same fun holds => ?_
    split
    · exact ih.evaluate hk hright
    · exact .pure hvw
  | compare hfirst hops hrest =>
    simp only [Eval.evaluate]
    refine (ih.evaluate hk hfirst).bind fun _ _ hvw => (follows_compared ih hk hops hrest hvw).bind fun p q hpq => ?_
    rw [hpq.1]
    exact .pure (.refl _)
  | cond hvalue htest hotherwise =>
    cases hotherwise with
    | none =>
      simp only [Eval.evaluate]
      refine (ih.evaluate hk htest).bind fun _ _ hvw => (follows_truthy hvw).bind_same fun holds => ?_
      cases holds with
      | true => exact ih.evaluate hk hvalue
      | false => exact .pure (.refl _)
    | some hother =>
      simp only [Eval.evaluate]
      refine (ih.evaluate hk htest).bind fun _ _ hvw => (follows_truthy hvw).bind_same fun holds => ?_
      cases holds with
      | true => exact ih.evaluate hk hvalue
      | false => exact ih.evaluate hk hother

theorem follows_arguments {args args' : List Expr} {named named' : List (Text × Expr)}
    (hargs : List.Forall₂ (Loosened L) args args') (hnames : named.map (·.1) = named'.map (·.1))
    (hnamed : List.Forall₂ (Loosened L) (named.map (·.2)) (named'.map (·.2))) :
    Follows L.terms (Eval.arguments L.features (n + 1) scope args named)
      (Eval.arguments L.features (k + 1) scope args' named') L.terms.SameArguments := by
  simp only [Eval.arguments]
  refine (follows_all ih hk hargs).bind fun _ _ hxs => (follows_named ih hk hnames hnamed).bind fun _ _ hps => ?_
  exact .pure ⟨hxs, forall₂_byKeyword hps⟩

/-! ## Calls -/

/-- A macro runs in a new scope inside that of its definition. -/
theorem follows_callMacro {m m' : Macro} {a b : Arguments} (hm : LoosenedMacro L m m')
    (ha : L.terms.SameArguments a b) :
    Follows L.terms
      (do
        let scope ← Eval.newScope m.scope
        let named ← Eval.bindParams m a scope (Eval.evaluate L.features n scope)
        Eval.setVar scope (Text.ofString "varargs") (← Eval.newList (a.args.drop m.params.length))
        Eval.setVar scope (Text.ofString "kwargs") (← Eval.mappingOf named)
        return Eval.captured L.features (← Eval.render L.features n scope m.body))
      (do
        let scope ← Eval.newScope m'.scope
        let named ← Eval.bindParams m' b scope (Eval.evaluate L.features k scope)
        Eval.setVar scope (Text.ofString "varargs") (← Eval.newList (b.args.drop m'.params.length))
        Eval.setVar scope (Text.ofString "kwargs") (← Eval.mappingOf named)
        return Eval.captured L.features (← Eval.render L.features k scope m'.body)) L.terms.Same := by
  rw [scope_eq_of_signature hm.signature, params_eq_of_signature hm.signature]
  refine (follows_newScope m'.scope).bind_same fun scope => ?_
  refine (follows_bindParams ha (fun _ _ he => ih.evaluate hk he) hm.signature hm.defaults).bind fun ps qs hps => ?_
  refine (follows_newList (List.forall₂_drop _ ha.args)).bind fun _ _ hvw => ?_
  refine (follows_setVar scope _ hvw).bind fun _ _ _ => (follows_mappingOf hps).bind fun _ _ hvw => ?_
  refine (follows_setVar scope _ hvw).bind fun _ _ _ => ?_
  exact (ih.render hk hm.body).bind_same fun _ => .pure (.refl _)

theorem follows_call {a b : Arguments} (h : L.terms.Same v w) (ha : L.terms.SameArguments a b) :
    Follows L.terms (Eval.call L.features (n + 1) v a) (Eval.call L.features (k + 1) w b) L.terms.Same := by
  cases h.form with
  | refl =>
    cases v with
    | native serial f =>
      simp only [Eval.call]
      exact follows_callNative ha f
    | ofMacro id =>
      simp only [Eval.call]
      refine .get_bind fun s t hst => ?_
      rcases rel_cases (hst.macros id) with ⟨hx, hy⟩ | ⟨m, m', hx, hy, hm⟩ <;> rw [hx, hy]
      · exact .pure (.refl _)
      · exact follows_callMacro ih hk hm ha
    | _ =>
      simp only [Eval.call]
      exact .throw
  | _ =>
    simp only [Eval.call]
    exact .throw

/-! ## Statements -/

theorem follows_render {body body' : List Stmt} (hbody : List.Forall₂ (LoosenedStmt L) body body') :
    Follows L.terms (Eval.render L.features (n + 1) scope body) (Eval.render L.features (k + 1) scope body')
      Eq := by
  simp only [Eval.render]
  refine Follows.bind_same ?_ fun _ => .pure rfl
  refine (Follows.mapM hbody fun _ _ h => ih.execute hk h).mono fun ts us hts => ?_
  rwa [List.forall₂_eq_eq_eq] at hts

/-- The branch that is taken stands at the same place. -/
theorem follows_taken {bs bs' : List (Expr × List Stmt)}
    (htests : List.Forall₂ (Loosened L) (bs.map (·.1)) (bs'.map (·.1)))
    (hbodies : List.Forall₂ (List.Forall₂ (LoosenedStmt L)) (bs.map (·.2)) (bs'.map (·.2))) :
    Follows L.terms
      (bs.foldlM (fun (taken : Option (List Stmt)) (test, body) => do
        if taken.isSome then return taken
        return if ← Eval.truthy (← Eval.evaluate L.features n scope test) then some body else none) none)
      (bs'.foldlM (fun (taken : Option (List Stmt)) (test, body) => do
        if taken.isSome then return taken
        return if ← Eval.truthy (← Eval.evaluate L.features k scope test) then some body else none) none)
      (Option.Rel (List.Forall₂ (LoosenedStmt L))) := by
  refine .foldlM (forall₂_pairs htests hbodies) .none ?_
  rintro taken taken' ⟨test, body⟩ ⟨test', body'⟩ htaken ⟨htest, hbody⟩
  cases htaken with
  | some h => exact .pure (.some h)
  | none =>
    refine (ih.evaluate hk htest).bind fun _ _ hvw => (follows_truthy hvw).bind_same fun holds => ?_
    cases holds with
    | true => exact .pure (.some hbody)
    | false => exact .pure .none

/-- The filter of a loop sees its targets. -/
theorem follows_keep {target target' : Target} (htarget : SameTarget target target') (he : Loosened L e e')
    (h : L.terms.Same v w) :
    Follows L.terms
      (do
        let inner ← Eval.newScope scope
        Eval.assign target v inner
        Eval.truthy (← Eval.evaluate L.features n inner e))
      (do
        let inner ← Eval.newScope scope
        Eval.assign target' w inner
        Eval.truthy (← Eval.evaluate L.features k inner e')) Eq := by
  refine (follows_newScope scope).bind_same fun inner => (follows_assign htarget h inner).bind fun _ _ _ => ?_
  exact (ih.evaluate hk he).bind fun _ _ hxy => follows_truthy hxy

/-- The turns of a loop. -/
theorem follows_turns {target target' : Target} {body body' : List Stmt} {xs ys : List Value}
    (htarget : SameTarget target target') (hbody : List.Forall₂ (LoosenedStmt L) body body')
    (hxs : List.Forall₂ L.terms.Same xs ys) :
    Follows L.terms
      (xs.zipIdx.mapM fun (item, i) => do
        let inner ← Eval.newScope scope
        Eval.setVar inner (Text.ofString "loop") (← Eval.loopContext xs.toArray i)
        Eval.assign target item inner
        Eval.render L.features n inner body)
      (ys.zipIdx.mapM fun (item, i) => do
        let inner ← Eval.newScope scope
        Eval.setVar inner (Text.ofString "loop") (← Eval.loopContext ys.toArray i)
        Eval.assign target' item inner
        Eval.render L.features k inner body') Eq := by
  refine Follows.mono (P := List.Forall₂ fun t u => t = u) ?_ fun ts us hts => by rwa [List.forall₂_eq_eq_eq] at hts
  refine .mapM (forall₂_zipIdx hxs 0) ?_
  rintro ⟨x, i⟩ ⟨y, _⟩ ⟨hxy, rfl⟩
  refine (follows_newScope scope).bind_same fun inner => (follows_loopContext hxs i).bind fun _ _ hvw => ?_
  refine (follows_setVar inner _ hvw).bind fun _ _ _ => (follows_assign htarget hxy inner).bind fun _ _ _ => ?_
  exact ih.render hk hbody

theorem follows_laps {target target' : Target} {body body' otherwise otherwise' : List Stmt} {xs ys : List Value}
    (htarget : SameTarget target target') (hbody : List.Forall₂ (LoosenedStmt L) body body')
    (hother : List.Forall₂ (LoosenedStmt L) otherwise otherwise') (hxs : List.Forall₂ L.terms.Same xs ys) :
    Follows L.terms
      (if xs.isEmpty then do
        Eval.render L.features n (← Eval.newScope scope) otherwise
      else do
        let parts ← xs.zipIdx.mapM fun (item, i) => do
          let inner ← Eval.newScope scope
          Eval.setVar inner (Text.ofString "loop") (← Eval.loopContext xs.toArray i)
          Eval.assign target item inner
          Eval.render L.features n inner body
        return parts.flatten)
      (if ys.isEmpty then do
        Eval.render L.features k (← Eval.newScope scope) otherwise'
      else do
        let parts ← ys.zipIdx.mapM fun (item, i) => do
          let inner ← Eval.newScope scope
          Eval.setVar inner (Text.ofString "loop") (← Eval.loopContext ys.toArray i)
          Eval.assign target' item inner
          Eval.render L.features k inner body'
        return parts.flatten) Eq := by
  rw [isEmpty_eq_of_forall₂ hxs]
  split
  · exact (follows_newScope scope).bind_same fun inner => ih.render hk hother
  · exact (follows_turns ih hk htarget hbody hxs).bind_same fun _ => .pure rfl

theorem follows_execute (hoff : L.features.autoescape = false) {stmt stmt' : Stmt} (h : LoosenedStmt L stmt stmt') :
    Follows L.terms (Eval.execute L.features (n + 1) scope stmt) (Eval.execute L.features (k + 1) scope stmt')
      Eq := by
  cases h with
  | text value =>
    simp only [Eval.execute]
    exact .pure rfl
  | output he =>
    simp only [Eval.execute]
    exact (ih.evaluate hk he).bind fun _ _ hvw => follows_written hoff hvw
  | branches htests hbodies hotherwise =>
    simp only [Eval.execute]
    exact (follows_taken ih hk htests hbodies).bind fun _ _ htaken => ih.render hk (rel_getD htaken hotherwise)
  | loop htarget hiter hfilter hbody hotherwise =>
    cases hfilter with
    | none =>
      simp only [Eval.execute]
      refine (ih.evaluate hk hiter).bind fun _ _ hvw => (follows_items hvw).bind fun _ _ hxs => ?_
      exact follows_laps ih hk htarget hbody hotherwise hxs
    | some he =>
      simp only [Eval.execute]
      refine (ih.evaluate hk hiter).bind fun _ _ hvw => ?_
      refine (follows_keptItems hvw fun x y hxy => follows_keep ih hk htarget he hxy).bind fun _ _ hxs => ?_
      exact follows_laps ih hk htarget hbody hotherwise hxs
  | assign htarget he =>
    simp only [Eval.execute]
    exact (ih.evaluate hk he).bind fun _ _ hvw => (follows_assign htarget hvw scope).bind fun _ _ _ => .pure rfl
  | capture htarget hbody =>
    simp only [Eval.execute]
    refine (follows_newScope scope).bind_same fun inner => (ih.render hk hbody).bind_same fun t => ?_
    exact (follows_assign htarget (Terms.Same.refl _) scope).bind fun _ _ _ => .pure rfl
  | @define l l' name params params' defaults defaults' body body' hparams hdefaults hbody =>
    have hm : LoosenedMacro L ⟨name, params.map (·.text), defaults, body, scope⟩
        ⟨name, params'.map (·.text), defaults', body', scope⟩ :=
      ⟨congrArg (fun ps => Macro.mk name ps [] [] scope) hparams, hdefaults, hbody⟩
    simp only [Eval.execute]
    refine (Follows.alloc fun s t hst => hst.newMacro hm.signature hm).bind fun _ _ hvw => ?_
    exact (follows_setVar scope name hvw).bind fun _ _ _ => .pure rfl
  | perform he =>
    simp only [Eval.execute]
    exact (ih.evaluate hk he).bind fun _ _ _ => .pure rfl

end steps

theorem Transparent.succ (hoff : L.features.autoescape = false)
    (hsafe : L.features.filters.lookup (Text.ofString "safe") = some .safe) (ih : Transparent L n) :
    Transparent L (n + 1) where
  evaluate hk he := by
    obtain ⟨k, rfl⟩ := Nat.exists_eq_add_of_le' hk
    exact follows_evaluate ih (Nat.le_add_left n k) hsafe he
  arguments hk hargs hnames hnamed := by
    obtain ⟨k, rfl⟩ := Nat.exists_eq_add_of_le' hk
    exact follows_arguments ih (Nat.le_add_left n k) hargs hnames hnamed
  call hk h ha := by
    obtain ⟨k, rfl⟩ := Nat.exists_eq_add_of_le' hk
    exact follows_call ih (Nat.le_add_left n k) h ha
  render hk hbody := by
    obtain ⟨k, rfl⟩ := Nat.exists_eq_add_of_le' hk
    exact follows_render ih (Nat.le_add_left n k) hbody
  execute hk h := by
    obtain ⟨k, rfl⟩ := Nat.exists_eq_add_of_le' hk
    exact follows_execute ih (Nat.le_add_left n k) hoff h

theorem transparent (hoff : L.features.autoescape = false)
    (hsafe : L.features.filters.lookup (Text.ofString "safe") = some .safe) : ∀ n, Transparent L n
  | 0 => .zero
  | n + 1 => (transparent hoff hsafe n).succ hoff hsafe

end Stencil.Marking
