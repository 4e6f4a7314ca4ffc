import Stencil.Proofs.Marking.Transparency

/-!
Watches. A watch gives the value of an expression, but stops where it is a marked text: it cuts a slice from it. What is
watched is clear of marks; a run that was watched and did not stop goes on as well without its watches.
-/
namespace Stencil.Marking

variable {features : Features} {L : Leeway} {f : ScopeId → Store → Value} {n line line' : Nat} {scope : ScopeId}
  {e e' : Expr} {v w a b : Value} {s u : Store}

/-- The value of the expression depends on the scope and the store only, and the store stays as it is. -/
def Reads (features : Features) (f : ScopeId → Store → Value) (e : Expr) : Prop :=
  ∀ n scope s v t, Eval.evaluate features n scope e s = .ok v t → v = f scope s ∧ t = s

theorem reads_name (name : Name) : Reads features (fun scope s => s.resolve scope name.text) (.name name) := by
  intro n scope s v t h
  obtain ⟨m, rfl⟩ := exists_of_evaluate h
  simp only [Eval.evaluate] at h
  cases h
  exact ⟨rfl, rfl⟩

/-- A slice of no length. -/
def emptySlice (line : Nat) (e : Expr) : Expr :=
  .slice line e (some (.const line (.number 0))) (some (.const line (.number 0))) none

/-- The test that the value is no text, or that a slice can be cut from it. -/
def unmarkedTest (line : Nat) (e : Expr) : Expr :=
  .logical line .or (.test line e (Text.ofString "string") [] [] true) (.not line (emptySlice line e))

/-- An expression that fails. -/
def failing (line : Nat) : Expr := .slice line (.const line .none) none none none

/-- The expression, unless its value is a marked text. -/
def watch (line : Nat) (e : Expr) : Expr := .cond line e (unmarkedTest line e) (some (failing line))

theorem never_const {p : Value → Prop} {c : Constant} (h : ¬ p c.value) : Never features p (.const line c) := by
  intro n scope s v t hv
  obtain ⟨m, rfl⟩ := exists_of_evaluate hv
  rw [evaluate_const] at hv
  cases hv
  exact h

theorem never_failing : Never features (fun _ => True) (failing line) := by
  intro n scope s v t h
  obtain ⟨m, rfl⟩ := exists_of_evaluate h
  unfold failing at h
  simp only [Eval.evaluate] at h
  obtain ⟨v, s', hv, hslice⟩ := exists_of_bind_ok h
  obtain ⟨k, rfl⟩ := exists_of_evaluate hv
  rw [evaluate_const] at hv
  cases hv
  cases hslice

theorem sliceBound_ok {i : Option Int} (h : Eval.sliceBound v s = .ok i u) : u = s := by
  cases v with
  | none | absent =>
    cases h
    rfl
  | number x =>
    unfold Eval.sliceBound at h
    dsimp only at h
    cases hint : x.toInt? with
    | none =>
      rw [hint] at h
      cases h
    | some j =>
      rw [hint] at h
      cases h
      rfl
  | _ => cases h

theorem slice_text (t : Text) : Eval.slice (.text t) a b .none s = (do
    let start ← Eval.sliceBound a
    let stop ← Eval.sliceBound b
    let cells := (t.points.map Value.text).toArray
    let picked := (slicePositions (t.points.map Value.text).length start stop 1).filterMap (cells[·]?)
    return Value.text (picked.flatMap fun (c : Value) => (c.text?).getD [])) s := rfl

/-- Of all texts, slices are cut from those without a mark only. -/
theorem slice_ok {t : Text} (ht : v.text? = some t) (h : Eval.slice v a b .none s = .ok w u) : v = .text t ∧ u = s := by
  cases v with
  | text t' =>
    cases ht
    rw [slice_text] at h
    obtain ⟨start, s', hstart, h⟩ := exists_of_bind_ok h
    obtain ⟨stop, s'', hstop, h⟩ := exists_of_bind_ok h
    cases h
    rw [sliceBound_ok hstop, sliceBound_ok hstart]
    exact ⟨rfl, rfl⟩
  | safe t' =>
    rw [slice_safe] at h
    cases h
  | _ => cases ht

section watching

variable (hreads : Reads features f e)
include hreads

theorem isString_ok (hstring : features.tests.lookup (Text.ofString "string") = some .string)
    (h : Eval.evaluate features n scope (.test line e (Text.ofString "string") [] [] true) s = .ok w u) :
    w = .bool ((f scope s).text?.isSome != true) ∧ u = s := by
  obtain ⟨n, rfl⟩ := exists_of_evaluate h
  simp only [Eval.evaluate, hstring] at h
  obtain ⟨v, s', hv, h⟩ := exists_of_bind_ok h
  obtain ⟨m, rfl⟩ := exists_of_evaluate hv
  obtain ⟨rfl, rfl⟩ := hreads _ _ _ _ _ hv
  rw [arguments_nil, pure_bind] at h
  cases h
  exact ⟨rfl, rfl⟩

theorem isCut_ok {t : Text} (ht : (f scope s).text? = some t)
    (h : Eval.evaluate features n scope (.not line (emptySlice line e)) s = .ok w u) :
    f scope s = .text t ∧ u = s := by
  obtain ⟨n, rfl⟩ := exists_of_evaluate h
  simp only [Eval.evaluate] at h
  obtain ⟨x, s', hx, htruthy⟩ := exists_of_bind_ok h
  obtain ⟨m, rfl⟩ := exists_of_evaluate hx
  unfold emptySlice at hx
  simp only [Eval.evaluate] at hx
  obtain ⟨v, s'', hv, hslice⟩ := exists_of_bind_ok hx
  obtain ⟨k, rfl⟩ := exists_of_evaluate hv
  obtain ⟨rfl, rfl⟩ := hreads _ _ _ _ _ hv
  simp only [evaluate_const, pure_bind] at hslice
  obtain ⟨htext, rfl⟩ := slice_ok ht hslice
  cases htruthy
  exact ⟨htext, rfl⟩

/-- Where the test has a value, there is no marked text. -/
theorem unmarkedTest_ok (hstring : features.tests.lookup (Text.ofString "string") = some .string)
    (h : Eval.evaluate features n scope (unmarkedTest line e) s = .ok w u) : ¬ IsMarked (f scope s) ∧ u = s := by
  obtain ⟨n, rfl⟩ := exists_of_evaluate h
  unfold unmarkedTest at h
  simp only [Eval.evaluate] at h
  obtain ⟨v, s', hv, h⟩ := exists_of_bind_ok h
  obtain ⟨rfl, rfl⟩ := isString_ok hreads hstring hv
  obtain ⟨holds, s'', hholds, h⟩ := exists_of_bind_ok h
  cases hholds
  cases ht : (f scope s').text? with
  | none =>
    rw [ht] at h
    cases h
    refine ⟨?_, rfl⟩
    rintro ⟨t, hmarked⟩
    rw [hmarked] at ht
    cases ht
  | some t =>
    rw [ht] at h
    obtain ⟨htext, rfl⟩ := isCut_ok hreads ht h
    refine ⟨?_, rfl⟩
    rintro ⟨t, hmarked⟩
    rw [hmarked] at htext
    cases htext

theorem still_unmarkedTest (hstring : features.tests.lookup (Text.ofString "string") = some .string) :
    Still features (unmarkedTest line e) := fun _ _ _ _ _ h => (unmarkedTest_ok hreads hstring h).2

theorem never_marked_watch (hstring : features.tests.lookup (Text.ofString "string") = some .string) :
    Never features IsMarked (watch line e) := by
  intro n scope s v t h
  obtain ⟨n, rfl⟩ := exists_of_evaluate h
  unfold watch at h
  simp only [Eval.evaluate] at h
  obtain ⟨c, s', hc, hbranch⟩ := exists_of_bind_ok h
  obtain ⟨hmarked, rfl⟩ := unmarkedTest_ok hreads hstring hc
  obtain ⟨holds, s'', htruthy, hvalue⟩ := exists_of_bind_ok hbranch
  cases htruthy
  by_cases hholds : s'.isTruthy c = true
  · rw [if_pos hholds] at hvalue
    rw [(hreads _ _ _ _ _ hvalue).1]
    exact hmarked
  · rw [if_neg hholds] at hvalue
    exact absurd trivial (never_failing _ _ _ _ _ hvalue)

end watching

/-- What is watched on both sides is clear of marks. -/
theorem clear_watch {f' : ScopeId → Store → Value}
    (hstring : L.features.tests.lookup (Text.ofString "string") = some .string) (hreads : Reads L.features f e)
    (hreads' : Reads L.features f' e') : Clear L (watch line e) (watch line' e') :=
  .inr (.inr ⟨never_marked_watch hreads hstring, never_marked_watch hreads' hstring⟩)

/-- A watch may be loosened along with the expression. -/
theorem Loosened.watch (hwatched : L.watched) (he : Loosened L e e') : Loosened L (watch line e) (watch line' e') := by
  have hzero : Option.Rel (Loosened L) (some (.const line (.number 0))) (some (.const line' (.number 0))) :=
    .some (.const _)
  have hslice : Loosened L (emptySlice line e) (emptySlice line' e') := .slice he hzero hzero .none (.inl hwatched)
  have hstring : Loosened L (.test line e (Text.ofString "string") [] [] true)
      (.test line' e' (Text.ofString "string") [] [] true) := .test he .nil rfl .nil
  have hfailing : Loosened L (failing line) (failing line') := .slice (.const _) .none .none .none (.inl hwatched)
  exact .cond he (.logical hstring (.not hslice)) (.some hfailing)

/-- A run that did not stop needs no watch. -/
theorem Loosened.unwatch (hstring : L.features.tests.lookup (Text.ofString "string") = some .string)
    (hreads : Reads L.features f e) (he : Loosened L e e') : Loosened L (Marking.watch line e) e' :=
  .guarded he (still_unmarkedTest hreads hstring) never_failing

/-! ## Templates that stop -/

/-- The free template is the checked one without its checks, and with marks on texts that were checked. The stopping one
has watches besides, where items are taken or `reverse` works on what may be a marked text. -/
structure FormOf (features : Features) (watched : Prop) (checked stopping free : List Stmt) : Prop where
  watching : List.Forall₂ (LoosenedStmt ⟨features, False, watched⟩) checked stopping
  freeing : List.Forall₂ (LoosenedStmt ⟨features, True, False⟩) stopping free

theorem follows_renderTemplate {env : Environment} (hoff : env.autoescape = false)
    (hsafe : env.filters.lookup (Text.ofString "safe") = some .safe) {L : Leeway}
    (hfeatures : L.features = env.features) {body body' : List Stmt} (hbody : List.Forall₂ (LoosenedStmt L) body body')
    (context : Value) :
    Follows L.terms (Eval.renderTemplate env body context) (Eval.renderTemplate env body' context) Eq := by
  have hoff' : L.features.autoescape = false := by rwa [hfeatures]
  have hsafe' : L.features.filters.lookup (Text.ofString "safe") = some .safe := by rwa [hfeatures]
  refine (Follows.read fun _ _ hst => hst.contextVars (.refl context)).bind fun ps qs hps => ?_
  refine Follows.bind (P := fun p q => p.1 = q.1) ?_ fun p q hpq => .pure hpq
  refine (Follows.alloc fun _ _ hst => hst.newScope (some env.globals) hps).bind_same fun outer => ?_
  refine (follows_newScope outer).bind_same fun scope => ?_
  rw [← hfeatures]
  exact ((transparent hoff' hsafe' depthLimit).render (Nat.le_refl _) hbody).bind_same fun _ => .pure rfl

/-- A template that checks texts is followed by its free forms, unless a watch stops. -/
theorem FormOf.renders {env : Environment} (hoff : env.autoescape = false)
    (hsafe : env.filters.lookup (Text.ofString "safe") = some .safe) {watched : Prop}
    {checked stopping free : List Stmt} (hform : FormOf env.features watched checked stopping free) {context : Value}
    {s u : Store} (hmacros : ∀ m ∈ s.macros, LoosenedMacro ⟨env.features, False, watched⟩ m m) {t : Text}
    (h : Eval.renderTemplate env checked context s = .ok t u) :
    (∃ v, Eval.renderTemplate env free context s = .ok t v) ∨
      watched ∧ ∃ w, Eval.renderTemplate env stopping context s = .error (.notSliceable .text) w := by
  have hself : ∀ L : Leeway, (∀ m ∈ s.macros, LoosenedMacro L m m) → Alike L.terms s s := by
    refine fun L hL => ⟨rfl, fun _ => rfl, fun id => ?_⟩
    cases hm : s.macros[id]? with
    | none => exact .none
    | some m => exact .some (hL m (Array.mem_of_getElem? hm))
  rcases follows_renderTemplate hoff hsafe rfl hform.watching context s s (hself _ hmacros) t u h with
    ⟨_, v, hv, -, rfl⟩ | hstops
  · have hstrict : Alike (Leeway.terms ⟨env.features, True, False⟩) s s := hself _ fun m _ => .self trivial m
    rcases follows_renderTemplate hoff hsafe rfl hform.freeing context s s hstrict t v hv with
      ⟨_, w, hw, -, rfl⟩ | ⟨hnever, _⟩
    · exact .inl ⟨w, hw⟩
    · exact absurd hnever id
  · exact .inr hstops

end Stencil.Marking
