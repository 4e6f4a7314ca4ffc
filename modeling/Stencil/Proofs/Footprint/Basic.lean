import Stencil.Proofs.Correspondence.Change
import Stencil.Proofs.Quiet

/-!
What a computation may change of the store it starts in. The scopes that it writes to are told by a set, and what it may
do besides is told by the expressions that it may come by: only calls write to containers, and only names that are not
there make a filter or a test fail for want of it.
-/
namespace Stencil

open Correspondence (Keeps)

/-- Standing in a macro, in one of its defaults or in its body. -/
def Macro.Holds (m : Macro) (x : Expr) : Prop := (∃ e ∈ m.defaults, x.Within e) ∨ x.Inside m.body

/-- The expressions that a computation may come by. -/
abbrev Usage := Set Expr

namespace Usage

variable (U : Usage)

/-- Some of the expressions is a call. -/
def Calls : Prop := ∃ line callee args named, Expr.call line callee args named ∈ U

/-- The filters and tests that the expressions name are there. -/
structure Supplied (features : Features) : Prop where
  filters {line : Nat} {target : Expr} {name : Text} {args : List Expr} {named : List (Text × Expr)}
    (h : Expr.filter line target name args named ∈ U) : (features.filters.lookup name).isSome
  tests {line : Nat} {target : Expr} {name : Text} {args : List Expr} {named : List (Text × Expr)} {negated : Bool}
    (h : Expr.test line target name args named negated ∈ U) : (features.tests.lookup name).isSome

/-- What stands in the macros that may be called. -/
def Covers (s : Store) : Prop := U.Calls → ∀ m ∈ s.macros, ∀ x, m.Holds x → x ∈ U

theorem covers_univ (s : Store) : Covers Set.univ s := fun _ _ _ _ _ => trivial

end Usage

variable {U : Usage} {features : Features} {W W' : Set ScopeId} {s t u : Store} {α β : Type}

/-! ## Changes of a store -/

/-- Of the scopes that were there, only some are changed; containers are changed by calls only. -/
structure Touches (U : Usage) (W : Set ScopeId) (s t : Store) : Prop where
  size : s.scopes.size ≤ t.scopes.size
  scopes : ∀ i < s.scopes.size, i ∉ W → t.scope i = s.scope i
  containers : ¬ U.Calls → Keeps s t
  covers : U.Covers s → U.Covers t

namespace Touches

theorem refl (s : Store) : Touches U W s s := ⟨le_refl _, fun _ _ _ => rfl, fun _ => .refl s, id⟩

theorem trans (h : Touches U W s t) (h' : Touches U W t u) : Touches U W s u where
  size := h.size.trans h'.size
  scopes := by
    intro i hi hW
    rw [h'.scopes i (hi.trans_le h.size) hW]
    exact h.scopes i hi hW
  containers hcalls := (h.containers hcalls).trans (h'.containers hcalls)
  covers hs := h'.covers (h.covers hs)

/-- A scope that was not there at the start may be written to. -/
theorem absorb {i : ScopeId} (h : Touches U ∅ s t) (h' : Touches U (insert i W) t u) (hi : s.scopes.size ≤ i) :
    Touches U W s u where
  size := h.size.trans h'.size
  scopes := by
    intro k hk hW
    have hne : k ≠ i := by omega
    have hout : k ∉ insert i W := by
      rintro (hki | hkW)
      · exact hne hki
      · exact hW hkW
    rw [h'.scopes k (hk.trans_le h.size) hout]
    exact h.scopes k hk (Set.notMem_empty k)
  containers hcalls := (h.containers hcalls).trans (h'.containers hcalls)
  covers hs := h'.covers (h.covers hs)

/-- A change of data. -/
theorem of_scopes_eq (hscopes : t.scopes = s.scopes) (hmacros : t.macros = s.macros) (h : ¬ U.Calls → Keeps s t) :
    Touches U W s t where
  size := by rw [hscopes]
  scopes i _ _ := by
    unfold Store.scope
    rw [hscopes]
  containers := h
  covers hs := by
    unfold Usage.Covers
    rw [hmacros]
    exact hs

theorem newScope (parent : Option ScopeId) (vars : List (Text × Value)) :
    Touches U W s (s.newScope parent vars).2 where
  size := by simp [Store.newScope]
  scopes _ hi _ := Store.scope_newScope hi
  containers _ := { Keeps.refl s with }
  covers := id

theorem newMacro {m : Macro} (hm : ∀ x, m.Holds x → x ∈ U) : Touches U W s (s.newMacro m).2 where
  size := le_refl _
  scopes _ _ _ := rfl
  containers _ := { Keeps.refl s with }
  covers hs hcalls m' hm' := by
    rcases Array.mem_push.mp hm' with hold | rfl
    · exact hs hcalls m' hold
    · exact hm

theorem setVar {i : ScopeId} (hi : i ∈ W) (name : Text) (v : Value) : Touches U W s (s.setVar i name v) where
  size := by simp [Store.setVar]
  scopes k _ hk := by
    have hne : i ≠ k := by
      rintro rfl
      exact hk hi
    exact Store.scope_setVar_ne hne
  containers _ := { Keeps.refl s with }
  covers := id

end Touches

/-! ## Computations -/

/-- However it ends, a computation changes only what it may, and it misses no filter or test where all are there. -/
structure Runs (U : Usage) (features : Features) (W : Set ScopeId) (x : Eval α) : Prop where
  ok {s t : Store} {a : α} (hs : U.Covers s) (h : x s = .ok a t) : Touches U W s t
  error {s t : Store} {e : Fault} (hs : U.Covers s) (h : x s = .error e t) :
    Touches U W s t ∧ (U.Supplied features → e.isUnknownName = false)

namespace Runs

variable {x : Eval α}

theorem after (h : Runs U features W x) (hs : U.Covers s) : Touches U W s (after x s) := by
  unfold Stencil.after
  cases hx : x s with
  | ok a t => exact h.ok hs hx
  | error e t => exact (h.error hs hx).1

theorem of_quiet (h : Quiet x) : Runs U features W x where
  ok _ hx := by
    rw [h.ok hx]
    exact .refl _
  error _ hx := by
    obtain ⟨ht, he⟩ := h.error hx
    rw [ht]
    exact ⟨.refl _, fun _ => he⟩

theorem pure (a : α) : Runs U features W (pure a) := .of_quiet (.pure a)

/-- A filter or a test that must be there is missing. -/
theorem throw_of_not {e : Fault} (he : ¬ U.Supplied features) : Runs U features W (throw e : Eval α) where
  ok _ h := nomatch h
  error _ h := by
    cases h
    exact ⟨.refl _, fun hsupplied => absurd hsupplied he⟩

theorem throw {e : Fault} (he : e.isUnknownName = false) : Runs U features W (throw e : Eval α) :=
  .of_quiet (.throw he)

/-- Before a computation that depends on what is given. -/
theorem bind_of {P : α → Prop} {f : α → Eval β} (h : Runs U features W x)
    (hP : ∀ {s a t}, x s = .ok a t → P a) (hf : ∀ a, P a → Runs U features W (f a)) :
    Runs U features W (x >>= f) where
  ok hs hx := by
    obtain ⟨a, v, hv, ht⟩ := exists_of_bind_ok hx
    have hsv := h.ok hs hv
    exact hsv.trans ((hf a (hP hv)).ok (hsv.covers hs) ht)
  error hs hx := by
    rcases exists_of_bind_error hx with hv | ⟨a, v, hv, ht⟩
    · exact h.error hs hv
    · have hsv := h.ok hs hv
      obtain ⟨hvt, he⟩ := (hf a (hP hv)).error (hsv.covers hs) ht
      exact ⟨hsv.trans hvt, he⟩

theorem bind {f : α → Eval β} (h : Runs U features W x) (hf : ∀ a, Runs U features W (f a)) :
    Runs U features W (x >>= f) :=
  h.bind_of (P := fun _ => True) (fun _ => trivial) fun a _ => hf a

theorem get_bind {f : Store → Eval β} (hf : ∀ s, U.Covers s → Runs U features W (f s)) :
    Runs U features W (get >>= f) where
  ok hs hx := (hf _ hs).ok hs hx
  error hs hx := (hf _ hs).error hs hx

theorem alloc {f : Store → α × Store} (h : ∀ s, Touches U W s (f s).2) : Runs U features W (Eval.alloc f) where
  ok _ hx := by
    cases hx
    exact h _
  error _ hx := nomatch hx

theorem modify {f : Store → Store} (h : ∀ s, Touches U W s (f s)) : Runs U features W (modify f : Eval Unit) where
  ok _ hx := by
    cases hx
    exact h _
  error _ hx := nomatch hx

/-- Inside of a new scope, which may be written to. -/
theorem enter {i : ScopeId} {f : ScopeId → Eval β} (hf : ∀ inner, Runs U features (insert inner W) (f inner)) :
    Runs U features W (Eval.newScope i >>= f) where
  ok {s _ _} hs hx := by
    have hnew : Touches U ∅ s (s.newScope (some i) []).2 := .newScope _ _
    exact hnew.absorb ((hf s.scopes.size).ok (hnew.covers hs) hx) (le_refl _)
  error {s _ _} hs hx := by
    have hnew : Touches U ∅ s (s.newScope (some i) []).2 := .newScope _ _
    obtain ⟨ht, he⟩ := (hf s.scopes.size).error (hnew.covers hs) hx
    exact ⟨hnew.absorb ht (le_refl _), he⟩

theorem mapM {l : List α} {f : α → Eval β} (hf : ∀ a ∈ l, Runs U features W (f a)) : Runs U features W (l.mapM f) := by
  induction l with
  | nil => exact .pure []
  | cons a l ih =>
    obtain ⟨ha, hl⟩ := List.forall_mem_cons.mp hf
    rw [List.mapM_cons]
    exact ha.bind fun b => (ih hl).bind fun bs => .pure (b :: bs)

theorem foldlM {l : List α} {f : β → α → Eval β} (hf : ∀ b, ∀ a ∈ l, Runs U features W (f b a)) (b : β) :
    Runs U features W (l.foldlM f b) := by
  induction l generalizing b with
  | nil => exact .pure b
  | cons a l ih =>
    rw [List.foldlM_cons]
    refine (hf b a List.mem_cons_self).bind fun c => ih (fun d a' ha' => ?_) c
    exact hf d a' (List.mem_cons_of_mem a ha')

theorem forIn {l : List α} {f : α → β → Eval (ForInStep β)} (hf : ∀ a b, Runs U features W (f a b)) (b : β) :
    Runs U features W (forIn l b f) := by
  induction l generalizing b with
  | nil => exact .pure b
  | cons a l ih =>
    rw [List.forIn_cons]
    refine (hf a b).bind fun step => ?_
    cases step with
    | done c => exact .pure c
    | yield c => exact ih c

theorem filterM {l : List α} {f : α → Eval Bool} (hf : ∀ a, Runs U features W (f a)) :
    Runs U features W (l.filterM f) := by
  have haux : ∀ rest done : List α, Runs U features W (rest.filterAuxM f done) := by
    intro rest
    induction rest with
    | nil => exact fun done => .pure done
    | cons a rest ih => exact fun done => (hf a).bind fun keep => ih _
  exact (haux l []).bind fun kept => .pure kept.reverse

end Runs

/-! ## New things -/

theorem runs_newList (vs : List Value) : Runs U features W (Eval.newList vs) :=
  .alloc fun s => .of_scopes_eq rfl rfl fun _ => (Keeps.refl s).newList vs

theorem runs_mappingOf (entries : List (Text × Value)) : Runs U features W (Eval.mappingOf entries) :=
  .alloc fun s => .of_scopes_eq rfl rfl fun _ => (Keeps.refl s).newMapping _

theorem runs_newNative (f : Native) : Runs U features W (Eval.newNative f) :=
  .alloc fun s => .of_scopes_eq rfl rfl fun _ => (Keeps.refl s).nextSerial

theorem runs_setVar {i : ScopeId} (hi : i ∈ W) (name : Text) (v : Value) :
    Runs U features W (Eval.setVar i name v) :=
  .modify fun _ => .setVar hi name v

/-- A change of containers, which only a call makes. -/
theorem runs_write {f : Store → Store} (hcalls : U.Calls) (hscopes : ∀ s, (f s).scopes = s.scopes)
    (hmacros : ∀ s, (f s).macros = s.macros) : Runs U features W (modify f : Eval Unit) :=
  .modify fun s => .of_scopes_eq (hscopes s) (hmacros s) fun h => absurd hcalls h

end Stencil
