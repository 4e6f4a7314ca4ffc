import Stencil.Proofs.Correspondence.Scopes

/-! Templates run alike on stores that correspond. -/
namespace Stencil.Correspondence

variable {σ : Correspondence} {κ : Known} {K : Set Text} {i j : ScopeId} {n : Nat} {a b : Arguments}

/-- Evaluation to a depth keeps two stores in correspondence. -/
structure Simulates (σ : Correspondence) (n : Nat) : Prop where
  evaluate {κ : Known} {K : Set Text} {i j : ScopeId} {e : Expr} (h : σ.At κ K i j)
    (he : e.Allowed σ.toPolicy K) :
    σ.Sim κ (Eval.evaluate σ.features n i e) (Eval.evaluate σ.features n j e) fun _ => σ.Alike
  arguments {κ : Known} {K : Set Text} {i j : ScopeId} {args : List Expr} {named : List (Text × Expr)}
    (h : σ.At κ K i j) (hargs : ∀ e ∈ args, e.Allowed σ.toPolicy K)
    (hnamed : ∀ p ∈ named, p.2.Allowed σ.toPolicy K) :
    σ.Sim κ (Eval.arguments σ.features n i args named) (Eval.arguments σ.features n j args named)
      fun _ => σ.ArgumentsAlike
  call {κ : Known} {v w : Value} {a b : Arguments} (h : σ.Alike v w) (ha : σ.ArgumentsAlike a b) :
    σ.Sim κ (Eval.call σ.features n v a) (Eval.call σ.features n w b) fun _ => σ.Alike
  render {κ : Known} {K : Set Text} {i j : ScopeId} {body : List Stmt} (h : σ.At κ K i j)
    (hbody : bodyAllowed σ.toPolicy K body) :
    σ.Sim κ (Eval.render σ.features n i body) (Eval.render σ.features n j body) fun _ => σ.Written
  execute {κ : Known} {K : Set Text} {i j : ScopeId} {s : Stmt} (h : σ.At κ K i j)
    (hs : s.Allowed σ.toPolicy K) :
    σ.Sim κ (Eval.execute σ.features n i s) (Eval.execute σ.features n j s) fun μ t u =>
      σ.Written t u ∧ namesOf s.declares ⊆ μ.names i

theorem Simulates.zero : σ.Simulates 0 where
  evaluate _ _ := by
    unfold Eval.evaluate
    exact .throw
  arguments _ _ _ := by
    unfold Eval.arguments
    exact .throw
  call _ _ := by
    unfold Eval.call
    exact .throw
  render _ _ := by
    unfold Eval.render
    exact .throw
  execute _ _ := by
    unfold Eval.execute
    exact .throw

theorem sim_constant (c : Constant) : σ.Sim κ (pure c.value : Eval Value) (pure c.value) fun _ => σ.Alike := by
  refine .pure ?_
  cases c with
  | none => exact .none
  | bool b => exact .bool b
  | number x => exact .number x
  | text t => exact .text t

section steps

variable (ih : σ.Simulates n)
include ih

theorem sim_optional (h : σ.At κ K i j) {e? : Option Expr} : (∀ e ∈ e?, e.Allowed σ.toPolicy K) →
    σ.Sim κ
      (match e? with
        | some e => Eval.evaluate σ.features n i e
        | none => return .none)
      (match e? with
        | some e => Eval.evaluate σ.features n j e
        | none => return .none) fun _ => σ.Alike := by
  intro he
  cases e? with
  | some e => exact ih.evaluate h (he e rfl)
  | none => exact .pure .none

theorem sim_all (h : σ.At κ K i j) {es : List Expr} (hes : ∀ e ∈ es, e.Allowed σ.toPolicy K) :
    σ.Sim κ (es.mapM (Eval.evaluate σ.features n i)) (es.mapM (Eval.evaluate σ.features n j))
      fun _ => List.Forall₂ σ.Alike :=
  .mapM_same fun _ hμ e he => ih.evaluate (h.mono hμ) (hes e he)

theorem sim_entries (h : σ.At κ K i j) {entries : List (Expr × Expr)}
    (hes : ∀ p ∈ entries, p.1.Allowed σ.toPolicy K ∧ p.2.Allowed σ.toPolicy K) :
    σ.Sim κ
      (entries.mapM fun (key, value) => do
        let key ← Eval.display (← Eval.evaluate σ.features n i key)
        return (key, ← Eval.evaluate σ.features n i value))
      (entries.mapM fun (key, value) => do
        let key ← Eval.display (← Eval.evaluate σ.features n j key)
        return (key, ← Eval.evaluate σ.features n j value)) fun _ => List.Forall₂ σ.NamedAlike := by
  refine .mapM_same fun μ hμ p hp => ?_
  obtain ⟨hkey, hvalue⟩ := hes p hp
  refine (ih.evaluate (h.mono hμ) hkey).bind fun ν hν _ _ hvw => (sim_display hvw).bind_same fun ξ hξ key => ?_
  exact (ih.evaluate (h.mono (hμ.trans (hν.trans hξ))) hvalue).bind fun _ _ _ _ hvw => .pure ⟨rfl, hvw⟩

theorem sim_compared (h : σ.At κ K i j) {rest : List (CompareOp × Expr)}
    (hes : ∀ p ∈ rest, p.2.Allowed σ.toPolicy K) {v w : Value} (hvw : σ.Alike v w) :
    σ.Sim κ
      (rest.foldlM (fun (state : Bool × Value) (op, operand) => do
        if !state.1 then return state
        let right ← Eval.evaluate σ.features n i operand
        return (← Eval.compare op state.2 right, right)) (true, v))
      (rest.foldlM (fun (state : Bool × Value) (op, operand) => do
        if !state.1 then return state
        let right ← Eval.evaluate σ.features n j operand
        return (← Eval.compare op state.2 right, right)) (true, w))
      fun _ p q => p.1 = q.1 ∧ σ.Alike p.2 q.2 := by
  refine .foldlM_same ⟨rfl, hvw⟩ ?_
  rintro μ hμ ⟨holds, x⟩ ⟨_, y⟩ ⟨rfl, hxy⟩ ⟨op, operand⟩ hp
  cases holds with
  | false => exact .pure ⟨rfl, hxy⟩
  | true =>
    refine (ih.evaluate (h.mono hμ) (hes _ hp)).bind fun ν _ x' y' hxy' => ?_
    exact (sim_compare op hxy hxy').bind_same fun _ _ _ => .pure ⟨rfl, hxy'⟩

theorem sim_evaluate {e : Expr} (h : σ.At κ K i j) (he : e.Allowed σ.toPolicy K) :
    σ.Sim κ (Eval.evaluate σ.features (n + 1) i e) (Eval.evaluate σ.features (n + 1) j e)
      fun _ => σ.Alike := by
  cases e with
  | name name =>
    have hread : ∀ s t, σ.Agree κ s t → σ.Alike (s.resolve i name.text) (t.resolve j name.text) :=
      fun _ _ hagree => hagree.resolve_alike h.rel (h.known he.name)
    simp only [Eval.evaluate]
    exact .get_bind fun s t hagree => .pure (hread s t hagree)
  | const line c =>
    simp only [Eval.evaluate]
    exact sim_constant c
  | list line es | tuple line es =>
    have hes : ∀ e ∈ es, e.Allowed σ.toPolicy K := fun e hes => he.part hes
    simp only [Eval.evaluate]
    exact (sim_all ih h hes).bind fun _ _ _ _ hxs => sim_newList hxs
  | dict line entries =>
    have hes : ∀ p ∈ entries, p.1.Allowed σ.toPolicy K ∧ p.2.Allowed σ.toPolicy K := fun p hp =>
      ⟨he.part (List.mem_flatMap.mpr ⟨p, hp, by simp⟩), he.part (List.mem_flatMap.mpr ⟨p, hp, by simp⟩)⟩
    simp only [Eval.evaluate]
    exact (sim_entries ih h hes).bind fun _ _ _ _ hxs => sim_mappingOf hxs
  | member line target name =>
    have htarget : target.Allowed σ.toPolicy K := he.part (by simp [Expr.parts])
    simp only [Eval.evaluate]
    exact (ih.evaluate h htarget).bind fun _ _ _ _ hvw => sim_member hvw name
  | item line target key =>
    have htarget : target.Allowed σ.toPolicy K := he.part (by simp [Expr.parts])
    have hkey : key.Allowed σ.toPolicy K := he.part (by simp [Expr.parts])
    simp only [Eval.evaluate]
    refine (ih.evaluate h htarget).bind fun μ hμ _ _ hvw => ?_
    exact (ih.evaluate (h.mono hμ) hkey).bind fun _ _ _ _ hxy => sim_item hvw hxy
  | slice line target start stop step =>
    have htarget : target.Allowed σ.toPolicy K := he.part (by simp [Expr.parts])
    have hstart : ∀ e ∈ start, e.Allowed σ.toPolicy K := fun e hes => he.part (by simp_all [Expr.parts])
    have hstop : ∀ e ∈ stop, e.Allowed σ.toPolicy K := fun e hes => he.part (by simp_all [Expr.parts])
    have hstep : ∀ e ∈ step, e.Allowed σ.toPolicy K := fun e hes => he.part (by simp_all [Expr.parts])
    simp only [Eval.evaluate]
    refine (ih.evaluate h htarget).bind fun μ hμ _ _ hvw => ?_
    replace h := h.mono hμ
    refine (sim_optional ih h hstart).bind fun ν hν _ _ hfrom => ?_
    replace h := h.mono hν
    refine (sim_optional ih h hstop).bind fun ξ hξ _ _ hto => ?_
    exact (sim_optional ih (h.mono hξ) hstep).bind fun _ _ _ _ hby => sim_slice hvw hfrom hto hby
  | call line callee args named =>
    have hcallee : callee.Allowed σ.toPolicy K := he.part (by simp [Expr.parts])
    have hargs : ∀ e ∈ args, e.Allowed σ.toPolicy K := fun e hes => he.part (by simp [Expr.parts, hes])
    have hnamed : ∀ p ∈ named, p.2.Allowed σ.toPolicy K := fun p hp =>
      he.part (List.mem_cons_of_mem _ (List.mem_append_right _ (List.mem_map_of_mem hp)))
    simp only [Eval.evaluate]
    refine (ih.evaluate h hcallee).bind fun μ hμ _ _ hvw => ?_
    exact (ih.arguments (h.mono hμ) hargs hnamed).bind fun _ _ _ _ ha => ih.call hvw ha
  | filter line target name args named =>
    have htarget : target.Allowed σ.toPolicy K := he.part (by simp [Expr.parts])
    have hargs : ∀ e ∈ args, e.Allowed σ.toPolicy K := fun e hes => he.part (by simp [Expr.parts, hes])
    have hnamed : ∀ p ∈ named, p.2.Allowed σ.toPolicy K := fun p hp =>
      he.part (List.mem_cons_of_mem _ (List.mem_append_right _ (List.mem_map_of_mem hp)))
    simp only [Eval.evaluate]
    cases hf : σ.features.filters.lookup name with
    | none => exact .throw
    | some f =>
      have hsafe : f = .safe → ∀ t, t ∈ σ.good := by
        rintro rfl
        exact he.filter hf
      refine (ih.evaluate h htarget).bind fun μ hμ _ _ hvw => ?_
      exact (ih.arguments (h.mono hμ) hargs hnamed).bind fun _ _ _ _ ha => sim_applyFilter f hsafe hvw ha
  | test line target name args named negated =>
    have htarget : target.Allowed σ.toPolicy K := he.part (by simp [Expr.parts])
    have hargs : ∀ e ∈ args, e.Allowed σ.toPolicy K := fun e hes => he.part (by simp [Expr.parts, hes])
    have hnamed : ∀ p ∈ named, p.2.Allowed σ.toPolicy K := fun p hp =>
      he.part (List.mem_cons_of_mem _ (List.mem_append_right _ (List.mem_map_of_mem hp)))
    simp only [Eval.evaluate]
    cases ht : σ.features.tests.lookup name with
    | none => exact .throw
    | some f =>
      refine (ih.evaluate h htarget).bind fun μ hμ _ _ hvw => ?_
      refine (ih.arguments (h.mono hμ) hargs hnamed).bind fun _ _ _ _ ha => ?_
      exact (sim_applyTest f hvw ha).bind_same fun _ _ _ => .pure (.bool _)
  | not line operand =>
    have hoperand : operand.Allowed σ.toPolicy K := he.part (by simp [Expr.parts])
    simp only [Eval.evaluate]
    refine (ih.evaluate h hoperand).bind fun _ _ _ _ hvw => ?_
    exact (sim_truthy hvw).bind_same fun _ _ _ => .pure (.bool _)
  | signed line sign operand =>
    have hoperand : operand.Allowed σ.toPolicy K := he.part (by simp [Expr.parts])
    simp only [Eval.evaluate]
    exact (ih.evaluate h hoperand).bind fun _ _ _ _ hvw => sim_signed sign hvw
  | binary line op left right =>
    have hleft : left.Allowed σ.toPolicy K := he.part (by simp [Expr.parts])
    have hright : right.Allowed σ.toPolicy K := he.part (by simp [Expr.parts])
    simp only [Eval.evaluate]
    refine (ih.evaluate h hleft).bind fun μ hμ _ _ hvw => ?_
    exact (ih.evaluate (h.mono hμ) hright).bind fun _ _ _ _ hxy => sim_binary op hvw hxy
  | logical line op left right =>
    have hleft : left.Allowed σ.toPolicy K := he.part (by simp [Expr.parts])
    have hright : right.Allowed σ.toPolicy K := he.part (by simp [Expr.parts])
    simp only [Eval.evaluate]
    refine (ih.evaluate h hleft).bind fun μ hμ _ _ hvw => ?_
    refine (sim_truthy hvw).bind_same fun ν hν holds => ?_
    split
    · exact ih.evaluate (h.mono (hμ.trans hν)) hright
    · exact .pure hvw
  | compare line first rest =>
    have hfirst : first.Allowed σ.toPolicy K := he.part (by simp [Expr.parts])
    have hrest : ∀ p ∈ rest, p.2.Allowed σ.toPolicy K := fun p hp =>
      he.part (List.mem_cons_of_mem _ (List.mem_map_of_mem hp))
    simp only [Eval.evaluate]
    refine (ih.evaluate h hfirst).bind fun μ hμ _ _ hvw => ?_
    refine (sim_compared ih (h.mono hμ) hrest hvw).bind fun _ _ p q hpq => ?_
    rw [hpq.1]
    exact .pure (.bool _)
  | cond line value test otherwise =>
    have hvalue : value.Allowed σ.toPolicy K := he.part (by simp [Expr.parts])
    have htest : test.Allowed σ.toPolicy K := he.part (by simp [Expr.parts])
    have hother : ∀ e ∈ otherwise, e.Allowed σ.toPolicy K := fun e hes => he.part (by simp_all [Expr.parts])
    cases otherwise <;> simp only [Eval.evaluate] <;>
      refine (ih.evaluate h htest).bind fun μ hμ _ _ hvw => (sim_truthy hvw).bind_same fun ν hν holds => ?_ <;>
      cases holds
    case none.true | some.true => exact ih.evaluate (h.mono (hμ.trans hν)) hvalue
    case none.false => exact .pure (.undefined _)
    case some.false => exact ih.evaluate (h.mono (hμ.trans hν)) (hother _ rfl)

theorem sim_named (h : σ.At κ K i j) {named : List (Text × Expr)}
    (hnamed : ∀ p ∈ named, p.2.Allowed σ.toPolicy K) :
    σ.Sim κ
      (named.mapM fun (name, e) => return (name, ← Eval.evaluate σ.features n i e))
      (named.mapM fun (name, e) => return (name, ← Eval.evaluate σ.features n j e))
      fun _ => List.Forall₂ σ.NamedAlike := by
  refine .mapM_same fun μ hμ p hp => ?_
  exact (ih.evaluate (h.mono hμ) (hnamed p hp)).bind fun _ _ _ _ hvw => .pure ⟨rfl, hvw⟩

omit ih in
theorem forall₂_byKeyword {ps qs : List (Text × Value)} (h : List.Forall₂ σ.NamedAlike ps qs) :
    List.Forall₂ σ.NamedAlike (Eval.byKeyword ps) (Eval.byKeyword qs) := by
  exact forall₂_assocSets h .nil

theorem sim_arguments (h : σ.At κ K i j) {args : List Expr} {named : List (Text × Expr)}
    (hargs : ∀ e ∈ args, e.Allowed σ.toPolicy K) (hnamed : ∀ p ∈ named, p.2.Allowed σ.toPolicy K) :
    σ.Sim κ (Eval.arguments σ.features (n + 1) i args named) (Eval.arguments σ.features (n + 1) j args named)
      fun _ => σ.ArgumentsAlike := by
  simp only [Eval.arguments]
  refine (sim_all ih h hargs).bind fun μ hμ _ _ hxs => ?_
  exact (sim_named ih (h.mono hμ) hnamed).bind fun _ _ _ _ hps => .pure ⟨hxs, forall₂_byKeyword hps⟩

/-- A macro runs in a new scope inside that of its definition. -/
theorem sim_callMacro {m m' : Macro} (hm : σ.MacroAlike κ m m') (ha : σ.ArgumentsAlike a b) :
    σ.Sim κ
      (do
        let scope ← Eval.newScope m.scope
        let named ← Eval.bindParams m a scope (Eval.evaluate σ.features n scope)
        Eval.setVar scope (Text.ofString "varargs") (← Eval.newList (a.args.drop m.params.length))
        Eval.setVar scope (Text.ofString "kwargs") (← Eval.mappingOf named)
        return Eval.captured σ.features (← Eval.render σ.features n scope m.body))
      (do
        let scope ← Eval.newScope m'.scope
        let named ← Eval.bindParams m' b scope (Eval.evaluate σ.features n scope)
        Eval.setVar scope (Text.ofString "varargs") (← Eval.newList (b.args.drop m'.params.length))
        Eval.setVar scope (Text.ofString "kwargs") (← Eval.mappingOf named)
        return Eval.captured σ.features (← Eval.render σ.features n scope m'.body)) fun _ => σ.Alike := by
  obtain ⟨known, hknown, hparams, hbody⟩ := hm.allowed
  have hscope : σ.At κ known m.scope m'.scope := ⟨hm.scope, hm.live, hknown⟩
  refine (sim_newScope hscope).bind fun μ hμ k l h => ?_
  have hm' := hm.mono hμ
  refine (sim_bindParams ha (fun _ h he => ih.evaluate h he) hm' h hparams).bind ?_
  rintro ν hν _ _ ⟨hnamed, hnames⟩
  replace h := h.learn hν hnames
  rw [← hm.params, ← hm.body]
  refine (sim_newList (List.forall₂_drop _ ha.args)).bind fun ξ hξ _ _ hvw => ?_
  replace h := h.mono hξ
  refine (sim_setVar h _ hvw).bind fun ο hο _ _ hnames => ?_
  replace h := h.learn hο hnames
  refine (sim_mappingOf hnamed).bind fun π hπ _ _ hvw => ?_
  replace h := h.mono hπ
  refine (sim_setVar h _ hvw).bind fun ρ hρ _ _ hnames => ?_
  replace h := h.learn hρ hnames
  exact (ih.render h hbody).bind fun _ _ _ _ htu => .pure (captured_alike htu)

theorem sim_call {v w : Value} (h : σ.Alike v w) (ha : σ.ArgumentsAlike a b) :
    σ.Sim κ (Eval.call σ.features (n + 1) v a) (Eval.call σ.features (n + 1) w b) fun _ => σ.Alike := by
  cases h with
  | native _ hfg =>
    simp only [Eval.call]
    exact sim_callNative ha hfg
  | @ofMacro k l hkl =>
    simp only [Eval.call]
    refine sim_get fun s t hagree => ?_
    rcases rel_cases (hagree.macros k l hkl) with ⟨hx, hy⟩ | ⟨m, m', hx, hy, hm⟩ <;> rw [hx, hy]
    · exact .pure (captured_alike .nil)
    · exact sim_callMacro ih hm ha
  | _ =>
    simp only [Eval.call]
    exact .throw

theorem sim_body (h : σ.At κ K i j) {body : List Stmt} (hbody : bodyAllowed σ.toPolicy K body) :
    σ.Sim κ (body.mapM (Eval.execute σ.features n i)) (body.mapM (Eval.execute σ.features n j))
      fun _ => List.Forall₂ σ.Written := by
  induction body generalizing κ K with
  | nil => exact .pure .nil
  | cons s rest ihbody =>
    rw [List.mapM_cons, List.mapM_cons]
    refine (ih.execute h hbody.1).bind ?_
    rintro μ hμ t u ⟨htu, hnames⟩
    exact (ihbody (h.learn hμ hnames) hbody.2).bind fun _ _ _ _ hts => .pure (.cons htu hts)

theorem sim_render (h : σ.At κ K i j) {body : List Stmt} (hbody : bodyAllowed σ.toPolicy K body) :
    σ.Sim κ (Eval.render σ.features (n + 1) i body) (Eval.render σ.features (n + 1) j body)
      fun _ => σ.Written := by
  simp only [Eval.render]
  exact (sim_body ih h hbody).bind fun _ _ _ _ hts => .pure (.flatten hts)

/-- The branch that is taken is the same on both sides. -/
theorem sim_taken (h : σ.At κ K i j) {bs : List (Expr × List Stmt)}
    (hbs : ∀ b ∈ bs, b.1.Allowed σ.toPolicy K) :
    σ.Sim κ
      (bs.foldlM (fun (taken : Option (List Stmt)) (test, body) => do
        if taken.isSome then return taken
        return if ← Eval.truthy (← Eval.evaluate σ.features n i test) then some body else none) none)
      (bs.foldlM (fun (taken : Option (List Stmt)) (test, body) => do
        if taken.isSome then return taken
        return if ← Eval.truthy (← Eval.evaluate σ.features n j test) then some body else none) none)
      fun _ x y => x = y ∧ ∀ body ∈ x, body ∈ bs.map (·.2) := by
  have hnone : ∀ body ∈ (none : Option (List Stmt)), body ∈ bs.map (·.2) := fun _ hbody => nomatch hbody
  refine Sim.foldlM_same (W := Store) (P := fun x y => x = y ∧ ∀ body ∈ x, body ∈ bs.map (·.2)) ⟨rfl, hnone⟩ ?_
  rintro μ hμ taken _ ⟨rfl, htaken⟩ ⟨test, body⟩ hb
  cases taken with
  | some body' => exact .pure ⟨rfl, htaken⟩
  | none =>
    refine (ih.evaluate (h.mono hμ) (hbs _ hb)).bind fun _ _ _ _ hvw => (sim_truthy hvw).bind_same fun _ _ holds => ?_
    cases holds with
    | false => exact .pure ⟨rfl, hnone⟩
    | true =>
      refine .pure ⟨rfl, fun body' hbody => ?_⟩
      cases hbody
      exact List.mem_map_of_mem hb

theorem sim_branches (h : σ.At κ K i j) {bs : List (Expr × List Stmt)} {otherwise : List Stmt}
    (hbs : ∀ b ∈ bs, b.1.Allowed σ.toPolicy K ∧ bodyAllowed σ.toPolicy K b.2)
    (hother : bodyAllowed σ.toPolicy K otherwise) {line : Nat} :
    σ.Sim κ (Eval.execute σ.features (n + 1) i (.branches line bs otherwise))
      (Eval.execute σ.features (n + 1) j (.branches line bs otherwise)) fun _ => σ.Written := by
  simp only [Eval.execute]
  refine (sim_taken ih h fun b hb => (hbs b hb).1).bind ?_
  rintro μ hμ taken _ ⟨rfl, htaken⟩
  refine ih.render (h.mono hμ) ?_
  cases taken with
  | none => exact hother
  | some body =>
    obtain ⟨b, hb, rfl⟩ := List.mem_map.mp (htaken body rfl)
    exact (hbs b hb).2

/-- The filter of a loop sees its targets. -/
theorem sim_keep (h : σ.At κ K i j) (target : Target) {e : Expr} {v w : Value}
    (he : e.Allowed σ.toPolicy (K ∪ namesOf (target.names.map (·.text)))) (hvw : σ.Alike v w) :
    σ.Sim κ
      (do
        let inner ← Eval.newScope i
        Eval.assign target v inner
        Eval.truthy (← Eval.evaluate σ.features n inner e))
      (do
        let inner ← Eval.newScope j
        Eval.assign target w inner
        Eval.truthy (← Eval.evaluate σ.features n inner e)) fun _ a b => a = b := by
  refine (sim_newScope h).bind fun ν _ k l hkl => ?_
  refine (sim_assign hkl target hvw).bind fun ξ hξ _ _ hnames => ?_
  exact (ih.evaluate (hkl.learn hξ hnames) he).bind fun _ _ _ _ hxy => sim_truthy hxy

/-- The turns of a loop. -/
theorem sim_turns (h : σ.At κ K i j) (target : Target) {body : List Stmt}
    (hbody : bodyAllowed σ.toPolicy
      (K ∪ namesOf [Text.ofString "loop"] ∪ namesOf (target.names.map (·.text))) body)
    {xs ys : List Value} (hxs : List.Forall₂ σ.Alike xs ys) :
    σ.Sim κ
      (xs.zipIdx.mapM fun (item, k) => do
        let inner ← Eval.newScope i
        Eval.setVar inner (Text.ofString "loop") (← Eval.loopContext xs.toArray k)
        Eval.assign target item inner
        Eval.render σ.features n inner body)
      (ys.zipIdx.mapM fun (item, k) => do
        let inner ← Eval.newScope j
        Eval.setVar inner (Text.ofString "loop") (← Eval.loopContext ys.toArray k)
        Eval.assign target item inner
        Eval.render σ.features n inner body) fun _ => List.Forall₂ σ.Written := by
  refine .mapM (forall₂_zipIdx hxs 0) ?_
  rintro μ hμ ⟨x, k⟩ ⟨y, _⟩ ⟨hxy, rfl⟩
  refine (sim_newScope (h.mono hμ)).bind fun ν hν _ _ hinner => ?_
  refine (sim_loopContext hxs k).bind fun ξ hξ _ _ hvw => ?_
  replace hinner := hinner.mono hξ
  refine (sim_setVar hinner _ hvw).bind fun ο hο _ _ hnames => ?_
  replace hinner := hinner.learn hο hnames
  refine (sim_assign hinner target hxy).bind fun π hπ _ _ hnames => ?_
  exact ih.render (hinner.learn hπ hnames) hbody

theorem sim_laps (h : σ.At κ K i j) (target : Target) {body otherwise : List Stmt}
    (hbody : bodyAllowed σ.toPolicy
      (K ∪ namesOf [Text.ofString "loop"] ∪ namesOf (target.names.map (·.text))) body)
    (hother : bodyAllowed σ.toPolicy K otherwise) {xs ys : List Value} (hxs : List.Forall₂ σ.Alike xs ys) :
    σ.Sim κ
      (if xs.isEmpty then do
        Eval.render σ.features n (← Eval.newScope i) otherwise
      else do
        let parts ← xs.zipIdx.mapM fun (item, k) => do
          let inner ← Eval.newScope i
          Eval.setVar inner (Text.ofString "loop") (← Eval.loopContext xs.toArray k)
          Eval.assign target item inner
          Eval.render σ.features n inner body
        return parts.flatten)
      (if ys.isEmpty then do
        Eval.render σ.features n (← Eval.newScope j) otherwise
      else do
        let parts ← ys.zipIdx.mapM fun (item, k) => do
          let inner ← Eval.newScope j
          Eval.setVar inner (Text.ofString "loop") (← Eval.loopContext ys.toArray k)
          Eval.assign target item inner
          Eval.render σ.features n inner body
        return parts.flatten) fun _ => σ.Written := by
  rw [isEmpty_eq_of_forall₂ hxs]
  split
  · exact (sim_newScope h).bind fun _ _ _ _ hinner => ih.render hinner hother
  · exact (sim_turns ih h target hbody hxs).bind fun _ _ _ _ hts => .pure (.flatten hts)

theorem sim_loop (h : σ.At κ K i j) {line : Nat} {target : Target} {iter : Expr} {filter : Option Expr}
    {body otherwise : List Stmt} (hs : (Stmt.loop line target iter filter body otherwise).Allowed σ.toPolicy K) :
    σ.Sim κ (Eval.execute σ.features (n + 1) i (.loop line target iter filter body otherwise))
      (Eval.execute σ.features (n + 1) j (.loop line target iter filter body otherwise))
      fun _ => σ.Written := by
  obtain ⟨hiter, hfilter, hbody, hother⟩ := hs
  cases filter with
  | none =>
    simp only [Eval.execute]
    refine (ih.evaluate h hiter).bind fun μ hμ _ _ hvw => (sim_items hvw).bind fun ν hν _ _ hxs => ?_
    exact sim_laps ih (h.mono (hμ.trans hν)) target hbody hother hxs
  | some e =>
    simp only [Eval.execute]
    refine (ih.evaluate h hiter).bind fun μ hμ _ _ hvw => ?_
    replace h := h.mono hμ
    have hkeep : ∀ ν ≥ μ, ∀ x y, σ.Alike x y → σ.Sim ν _ _ fun _ a b => a = b :=
      fun ν hν x y hxy => sim_keep ih (h.mono hν) target (hfilter e rfl) hxy
    exact (sim_keptItems hvw hkeep).bind fun ν hν _ _ hxs => sim_laps ih (h.mono hν) target hbody hother hxs

omit ih in
/-- The macro and the variable that holds it come into being in one step. -/
theorem sim_define (h : σ.At κ K i j) {m m' : Macro} {name : Text}
    (hm : ∀ μ, κ ≤ μ → namesOf [name] ⊆ μ.names i → σ.MacroAlike μ m m') :
    σ.Sim κ (do Eval.setVar i name (← Eval.alloc (·.newMacro m)))
      (do Eval.setVar j name (← Eval.alloc (·.newMacro m'))) fun μ _ _ => namesOf [name] ⊆ μ.names i := by
  intro s t hagree
  have hname : namesOf [name] ⊆ (κ.learn i name).names i := by
    intro n hn
    cases List.mem_singleton.mp hn
    exact Known.names_learn h.live
  have hset := hagree.setVar h.rel name (.ofMacro (hagree.fresh_id .ofMacro))
  exact ⟨_, Known.le_learn, (hset.newMacro (hm _ Known.le_learn hname)).1, hname⟩

theorem sim_execute (h : σ.At κ K i j) {s : Stmt} (hs : s.Allowed σ.toPolicy K) :
    σ.Sim κ (Eval.execute σ.features (n + 1) i s) (Eval.execute σ.features (n + 1) j s) fun μ t u =>
      σ.Written t u ∧ namesOf s.declares ⊆ μ.names i := by
  cases s with
  | text line value =>
    simp only [Eval.execute]
    exact .pure ⟨⟨rfl, hs⟩, namesOf_nil⟩
  | output line e =>
    simp only [Eval.execute]
    refine (ih.evaluate h hs).bind fun _ _ _ _ hvw => ?_
    exact (sim_written hvw).mono fun _ _ _ _ htu => ⟨htu, namesOf_nil⟩
  | branches line bs otherwise =>
    exact (sim_branches ih h (Stmt.Allowed.branch hs.1) hs.2).mono fun _ _ _ _ htu => ⟨htu, namesOf_nil⟩
  | loop line target iter filter body otherwise =>
    exact (sim_loop ih h hs).mono fun _ _ _ _ htu => ⟨htu, namesOf_nil⟩
  | assign line target e =>
    simp only [Eval.execute]
    refine (ih.evaluate h hs).bind fun μ hμ _ _ hvw => ?_
    exact (sim_assign (h.mono hμ) target hvw).bind fun _ hν _ _ hnames => .pure ⟨.nil, hnames⟩
  | capture line target body =>
    simp only [Eval.execute]
    refine (sim_newScope h).bind fun μ hμ _ _ hinner => (ih.render hinner hs).bind fun ν hν _ _ htu => ?_
    refine (sim_assign (h.mono (hμ.trans hν)) target (captured_alike htu)).bind fun _ _ _ _ hnames => ?_
    exact .pure ⟨.nil, hnames⟩
  | define line name params defaults body =>
    have hm : ∀ μ, κ ≤ μ → namesOf [name] ⊆ μ.names i →
        σ.MacroAlike μ ⟨name, params.map (·.text), defaults, body, i⟩
          ⟨name, params.map (·.text), defaults, body, j⟩ := fun μ hμ hname =>
      ⟨rfl, rfl, rfl, rfl, h.rel, hμ.2 h.live, K ∪ namesOf [name],
        Set.union_subset (h.known.trans (hμ.1 i)) hname, hs⟩
    simp only [Eval.execute]
    rw [← bind_assoc]
    exact (sim_define h hm).bind fun _ _ _ _ hnames => .pure ⟨.nil, hnames⟩
  | perform line e =>
    simp only [Eval.execute]
    exact (ih.evaluate h hs).bind fun _ _ _ _ _ => .pure ⟨.nil, namesOf_nil⟩

theorem Simulates.succ : σ.Simulates (n + 1) where
  evaluate h he := sim_evaluate ih h he
  arguments h hargs hnamed := sim_arguments ih h hargs hnamed
  call h ha := sim_call ih h ha
  render h hbody := sim_render ih h hbody
  execute h hs := sim_execute ih h hs

end steps

theorem simulates (σ : Correspondence) : ∀ n, σ.Simulates n
  | 0 => .zero
  | n + 1 => (simulates σ n).succ

end Stencil.Correspondence
