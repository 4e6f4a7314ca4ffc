import Stencil.Proofs.Footprint.Running

/-! Only calls change lists, mappings and tables. -/
namespace Stencil

open Correspondence (Keeps)

/-- No call stands in a body, at any depth. -/
def Stmt.CallFree (body : List Stmt) : Prop :=
  ∀ line callee args named, ¬ (Expr.call line callee args named).Inside body

/-- The expressions other than calls. -/
def Usage.callFree : Usage := {e | ∀ line callee args named, e ≠ .call line callee args named}

theorem Usage.not_calls : ¬ Usage.callFree.Calls := by
  rintro ⟨line, callee, args, named, h⟩
  exact h line callee args named rfl

theorem Usage.covers_callFree (s : Store) : Usage.callFree.Covers s := fun hcalls => absurd hcalls not_calls

theorem Stmt.CallFree.mem {body : List Stmt} (h : CallFree body) {x : Expr} (hx : x.Inside body) :
    x ∈ Usage.callFree := by
  rintro line callee args named rfl
  exact h line callee args named hx

/-- Computations that come by no call keep the containers. -/
theorem Runs.keeps {α : Type} {features : Features} {W : Set ScopeId} {x : Eval α}
    (h : Runs Usage.callFree features W x) (s : Store) : Keeps s (Stencil.after x s) :=
  (h.after (Usage.covers_callFree s)).containers Usage.not_calls

/-- A template without calls leaves every list, mapping and table as it was, whether it is rendered or fails; so does
each of its statements and expressions, and so does each operator, filter and test on whatever values. -/
theorem containers_kept {body : List Stmt} (h : Stmt.CallFree body) :
    (∀ (env : Environment) (context : Value) (s : Store), Keeps s (after (Eval.renderTemplate env body context) s)) ∧
    (∀ (features : Features) (depth : Nat) (scope : ScopeId) (s : Store),
      (∀ stmt : Stmt, stmt.Inside body → Keeps s (after (Eval.execute features depth scope stmt) s)) ∧
      ∀ e : Expr, e.Inside body → Keeps s (after (Eval.evaluate features depth scope e) s)) ∧
    ∀ (v w : Value) (s : Store),
      (∀ op, Keeps s (after (Eval.binary op v w) s)) ∧ (∀ sign, Keeps s (after (Eval.signed sign v) s)) ∧
      (∀ op, Keeps s (after (Eval.compare op v w) s)) ∧ Keeps s (after (Eval.item v w) s) ∧
      (∀ start stop step, Keeps s (after (Eval.slice v start stop step) s)) ∧
      (∀ f a, Keeps s (after (Eval.applyFilter f v a) s)) ∧ (∀ t a, Keeps s (after (Eval.applyTest t v a) s)) ∧
      (∀ target scope, Keeps s (after (Eval.assign target v scope) s)) ∧
      ∀ features, Keeps s (after (Eval.written features v) s) := by
  have hstmt : ∀ {stmt : Stmt}, stmt.Inside body → ∀ x : Expr, x.Inside [stmt] → x ∈ Usage.callFree :=
    fun hin x hx => h.mem (hx.of_inside hin)
  refine ⟨fun env context s => ?_, fun features depth scope s => ⟨fun stmt hin => ?_, fun e hin => ?_⟩,
    fun v w s => ?_⟩
  · have hrun : Runs Usage.callFree env.features ∅ (Eval.renderTemplate env body context) :=
      (Runs.of_quiet (.read _)).bind fun vars => (runs_run (fun x hx => h.mem hx) vars).bind fun _ => .pure _
    exact hrun.keeps s
  · have hrun : Runs Usage.callFree features {scope} (Eval.execute features depth scope stmt) :=
      (framing _ features depth).execute rfl (hstmt hin)
    exact hrun.keeps s
  · have hrun : Runs Usage.callFree features ∅ (Eval.evaluate features depth scope e) :=
      (framing _ features depth).evaluate fun x hx => h.mem (hx.inside hin)
    exact hrun.keeps s
  · have hkeeps : ∀ {α : Type} {x : Eval α}, (∀ features, Runs Usage.callFree features Set.univ x) →
        Keeps s (after x s) := fun hx => (hx ⟨false, [], []⟩).keeps s
    refine ⟨fun op => hkeeps fun _ => runs_binary v w op, fun sign => hkeeps fun _ => runs_signed v sign,
      fun op => hkeeps fun _ => .of_quiet (quiet_compare v w op), hkeeps fun _ => runs_item v w,
      fun start stop step => hkeeps fun _ => runs_slice v start stop step,
      fun f a => hkeeps fun _ => runs_applyFilter v f a,
      fun t a => hkeeps fun _ => .of_quiet (quiet_applyTest v t a),
      fun target scope => hkeeps fun _ => runs_assign v target trivial,
      fun features => hkeeps fun _ => .of_quiet (quiet_written v features)⟩

namespace Sorted

/-- A template that goes over the items of a list in order. -/
def ordering : List Stmt :=
  [.loop 1 (.name ⟨"v", 1, 7⟩) (.filter 1 (.name ⟨"x", 1, 12⟩) "sort" [] []) none
    [.output 1 (.name ⟨"v", 1, 29⟩)] []]

/-- A context with a list that is not in order. -/
def setting : Environment × Store :=
  Environment.create false false false { Store.empty with
    lists := #[[.number 2, .number 1]]
    mappings := #[[("x", .data (.list 0))]] }

end Sorted

/-- A list that is sorted for a loop stays as it was. -/
theorem containers_kept_of_sort :
    Stmt.CallFree Sorted.ordering ∧
      outcome (Eval.renderTemplate Sorted.setting.1 Sorted.ordering (.mapping 0)) Sorted.setting.2 = .ok "12" ∧
      (after (Eval.renderTemplate Sorted.setting.1 Sorted.ordering (.mapping 0)) Sorted.setting.2).lists[0]? =
        some [.number 2, .number 1] := by
  have hfree : Stmt.CallFree Sorted.ordering := by
    rintro line callee args named ⟨s, hs, e, he, hx⟩
    simp [Sorted.ordering, Stmt.inside_cons, Stmt.inside_nil, Stmt.parts] at hs
    rcases hs with rfl | rfl
    · simp [Stmt.roots] at he
      subst he
      obtain hx | ⟨y, hy, hx⟩ := Expr.within_iff.mp hx
      · cases hx
      · obtain rfl : y = .name ⟨"x", 1, 12⟩ := by simpa [Expr.parts] using hy
        simp [Expr.within_name] at hx
    · simp [Stmt.roots] at he
      subst he
      simp [Expr.within_name] at hx
  refine ⟨hfree, by decide +kernel, ?_⟩
  exact ((containers_kept hfree).1 Sorted.setting.1 (.mapping 0) Sorted.setting.2).lists rfl

end Stencil
