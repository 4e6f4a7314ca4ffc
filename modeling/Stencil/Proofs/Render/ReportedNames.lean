import Stencil.Proofs.Correspondence.Paired
import Stencil.Proofs.Template.Declared

/-! What a template gives depends on its context only through the names that are reported for it. -/
namespace Stencil

open Correspondence

variable {env : Environment} {body : List Stmt} {s : Store}

/-- A run gives the same on variables that are alike in the reported names. -/
theorem outcome_run_eq {R : Pairing} {xs ys : List (Text × Value)} (hbody : Stmt.PlainBranches body)
    (hs : env.Lives s) (hR : R.OneToOne) (h : s.Pairs R)
    (hglobals : R .scope env.globals env.globals)
    (hvars : ∀ n ∈ undeclaredNames body, Option.Rel (Value.Alike R Set.univ) (xs.lookup n) (ys.lookup n)) :
    outcome (do return (← Eval.run env body xs).1) s = outcome (do return (← Eval.run env body ys).1) s := by
  have hallowed : bodyAllowed (.free env.features) (namesOf (undeclaredNames body)) body :=
    bodyAllowed_of_plainBranches (p := .free env.features) Set.mem_univ hbody
  exact (ends_run hs hR h hglobals hallowed hvars).settled.outcome_eq

namespace Store

/-- The objects in an entry of a context are in no other entry, and in no global variable. -/
structure Separate (s : Store) (env : Environment) (context : Value) : Prop where
  entries : ∀ m n, m ≠ n → ∀ v ∈ (s.contextVars context).lookup m, ∀ w ∈ (s.contextVars context).lookup n,
    s.Apart v w
  globals : ∀ n, ∀ v ∈ (s.contextVars context).lookup n, ∀ k, s.Encloses env.globals k →
    ∀ p ∈ (s.scope k).vars, s.Apart v p.2

/-- What is seen from an entry of a context or, without a name, from the global variables. -/
def SeenFrom (s : Store) (env : Environment) (context : Value) (a : Area) (i : Nat) : Option Text → Prop
  | some n => ∃ v ∈ (s.contextVars context).lookup n, s.Seen v a i i
  | none => s.SeenAround env.globals a i i

theorem Separate.not_isObject {context : Value} {a : Area} {i : Nat} (h : s.Separate env context) :
    {x y : Option Text} → x ≠ y → s.SeenFrom env context a i x → s.SeenFrom env context a i y → ¬ a.IsObject
  | some m, some n, hxy, ⟨v, hv, hvi⟩, ⟨w, hw, hwi⟩ =>
    hvi.not_isObject hwi (h.entries m n (fun hmn => hxy (congrArg some hmn)) v hv w hw)
  | some n, none, _, ⟨v, hv, hvi⟩, hy => by
    cases hy with
    | scope => exact id
    | value hk hp hpi => exact hvi.not_isObject hpi (h.globals n v hv _ hk _ hp)
  | none, some n, _, hx, ⟨v, hv, hvi⟩ => by
    cases hx with
    | scope => exact id
    | value hk hp hpi => exact hvi.not_isObject hpi (h.globals n v hv _ hk _ hp)
  | none, none, hxy, _, _ => absurd rfl hxy

end Store

/-- Where two contexts give values of one shape to the reported names, and their entries share no objects, a
template gives the same on both. -/
theorem renderTemplate_congr {c d : Value} (hbody : Stmt.PlainBranches body) (hs : env.Lives s)
    (hc : s.Separate env c) (hd : s.Separate env d)
    (hcd : ∀ n ∈ undeclaredNames body,
      Option.Rel s.Isomorphic ((s.contextVars c).lookup n) ((s.contextVars d).lookup n)) :
    outcome (Eval.renderTemplate env body c) s = outcome (Eval.renderTemplate env body d) s := by
  -- a pairing for each name, which pairs only what is seen from its values
  have hpairing : ∀ n, ∃ R : Pairing, R.OneToOne ∧ s.Pairs R ∧
      (n ∈ undeclaredNames body → Option.Rel (Value.Alike R Set.univ) ((s.contextVars c).lookup n)
        ((s.contextVars d).lookup n)) ∧
      ∀ a i j, R a i j → s.SeenFrom env c a i (some n) ∧ s.SeenFrom env d a j (some n) := by
    intro n
    have hnone : ∀ a i j, False → s.SeenFrom env c a i (some n) ∧ s.SeenFrom env d a j (some n) :=
      fun _ _ _ h => h.elim
    have hempty : Pairing.OneToOne fun _ _ _ => False := ⟨fun _ _ _ _ h => h.elim, fun _ _ _ _ h => h.elim⟩
    by_cases hn : n ∈ undeclaredNames body
    · rcases rel_cases (hcd n hn) with ⟨hx, hy⟩ | ⟨v, w, hx, hy, hvw⟩
      · refine ⟨_, hempty, .empty, fun _ => ?_, hnone⟩
        rw [hx, hy]
        exact .none
      · obtain ⟨R, hR, hpairs, halike, hseen⟩ := hvw.seen
        refine ⟨R, hR, hpairs, fun _ => ?_, fun a i j hij => ?_⟩
        · rw [hx, hy]
          exact .some halike
        · exact ⟨⟨v, hx, (hseen a i j hij).1⟩, ⟨w, hy, (hseen a i j hij).2⟩⟩
    · exact ⟨_, hempty, .empty, fun h => absurd h hn, hnone⟩
  choose R hR hpairs halike hseen using hpairing
  -- together with the global variables, each paired with itself
  let P : Option Text → Pairing := fun x => x.elim (s.SeenAround env.globals) R
  have hfrom : ∀ x a i j, P x a i j → s.SeenFrom env c a i x ∧ s.SeenFrom env d a j x := by
    rintro (_ | n) a i j hij
    · cases (show s.SeenAround env.globals a i j from hij).eq
      exact ⟨hij, hij⟩
    · exact hseen n a i j hij
  have hP : ∀ x, s.Pairs (P x) := by
    rintro (_ | n)
    · exact Store.pairs_seenAround
    · exact hpairs n
  have hone : Pairing.OneToOne fun a i j => ∃ x, P x a i j := by
    refine .union ?_ ?_ ?_
    · rintro (_ | n)
      · exact Store.SeenAround.oneToOne
      · exact hR n
    · intro x y a i j k hxy hj hk
      have ha := hc.not_isObject hxy (hfrom x a i j hj).1 (hfrom y a i k hk).1
      exact ((hP x).same ha hj).symm.trans ((hP y).same ha hk)
    · intro x y a i j k hxy hi hj
      have ha := hd.not_isObject hxy (hfrom x a i k hi).2 (hfrom y a j k hj).2
      exact ((hP x).same ha hi).trans ((hP y).same ha hj).symm
  refine outcome_run_eq hbody hs hone (.union hP) ⟨none, .scope .here⟩ fun n hn => ?_
  rcases rel_cases (halike n hn) with ⟨hx, hy⟩ | ⟨v, w, hx, hy, hvw⟩ <;> rw [hx, hy]
  · exact .none
  · exact .some (hvw.mono fun _ _ _ hij => ⟨some n, hij⟩)

namespace Shared

/-- A template that changes the first item of a list. -/
def appending : List Stmt :=
  [.perform 1 (.call 1 (.member 1 (.item 1 (.name ⟨"x", 1, 6⟩) (.const 1 (.number 0))) "append")
    [.const 1 (.text "b")] []), .output 1 (.name ⟨"x", 1, 29⟩)]

/-- Three contexts with a list of two lists: one list twice, two lists, and again one list twice. -/
def setting : Environment × Store :=
  Environment.create false false true { Store.empty with
    lists := #[[.text "a"], [.list 0, .list 0], [.text "a"], [.text "a"], [.list 2, .list 3], [.text "a"],
      [.list 5, .list 5]]
    mappings := #[[("x", .data (.list 1))], [("x", .data (.list 4))],
      [("x", .data (.list 6)), ("y", .data (.text "c"))]] }

theorem plain : Stmt.PlainBranches appending := by
  intro line bs otherwise hb
  simp [appending, Stmt.inside_cons, Stmt.inside_nil, Stmt.parts] at hb

theorem lives : setting.1.Lives setting.2 := by
  refine .create ⟨fun i k hk => ?_, fun m hm => ?_⟩ false false true rfl
  · cases i <;> cases hk
  · simp [Store.empty] at hm

theorem reported : undeclaredNames appending = [Text.ofString "x"] := by decide +kernel

theorem vars_first : setting.2.contextVars (.mapping 0) = [(Text.ofString "x", .list 1)] := rfl

theorem vars_second : setting.2.contextVars (.mapping 1) = [(Text.ofString "x", .list 4)] := rfl

theorem vars_third : setting.2.contextVars (.mapping 2) =
    [(Text.ofString "x", .list 6), (Text.ofString "y", .text "c")] := rfl

/-- The global variables are functions, which hold nothing. -/
theorem apart_globals (v : Value) {k : ScopeId} (hk : setting.2.Encloses setting.1.globals k) {p : Text × Value}
    (hp : p ∈ (setting.2.scope k).vars) : setting.2.Apart v p.2 := by
  rw [hk.eq_of_parent rfl] at hp
  rcases hp with _ | ⟨_, _ | ⟨_, ⟨⟩⟩⟩ <;> exact .of_contents rfl nofun id

/-- Entries are separate where all but one are texts. -/
theorem separate_of_texts {c : Value} (m : Text) (v : Value)
    (hc : ∀ n, ∀ w ∈ (setting.2.contextVars c).lookup n, n = m ∧ w = v ∨ ∃ t, w = .text t) :
    setting.2.Separate setting.1 c where
  entries k l hkl w hw x hx := by
    rcases hc k w hw with ⟨rfl, _⟩ | ⟨t, rfl⟩
    · rcases hc l x hx with ⟨rfl, _⟩ | ⟨t, rfl⟩
      · exact absurd rfl hkl
      · exact .of_contents rfl nofun id
    · exact .symm (.of_contents rfl nofun id)
  globals _ w _ _ hk _ hp := apart_globals w hk hp

theorem separate_single {c v : Value} {m : Text} (hc : setting.2.contextVars c = [(m, v)]) :
    setting.2.Separate setting.1 c := by
  refine separate_of_texts m v fun n w hw => ?_
  rw [hc, Option.mem_def, lookup_cons_eq] at hw
  split at hw
  · cases hw
    exact .inl ⟨‹_›, rfl⟩
  · cases hw

theorem separate_third : setting.2.Separate setting.1 (.mapping 2) := by
  refine separate_of_texts "x" (.list 6) fun n w hw => ?_
  rw [vars_third, Option.mem_def, lookup_cons_eq, lookup_cons_eq] at hw
  split at hw
  · cases hw
    exact .inl ⟨‹_›, rfl⟩
  · split at hw
    · cases hw
      exact .inr ⟨_, rfl⟩
    · cases hw

/-- Lists that are paired one by one. -/
def lists (l : List (ListId × ListId)) : Pairing := fun a i j => a = .list ∧ (i, j) ∈ l

theorem alike_lists {l : List (ListId × ListId)} {i j : ListId} (h : (i, j) ∈ l) :
    Value.Alike (lists l) Set.univ (.list i) (.list j) :=
  .list ⟨rfl, h⟩

theorem pairs_lists {s : Store} {l : List (ListId × ListId)}
    (h : ∀ p ∈ l, p.1 < s.lists.size ∧ p.2 < s.lists.size ∧
      List.Forall₂ (Value.Alike (lists l) Set.univ) (s.list p.1) (s.list p.2)) : s.Pairs (lists l) where
  taken := by
    rintro _ i j ⟨rfl, hij⟩
    exact .inr ⟨(h _ hij).1, (h _ hij).2.1⟩
  list := by
    rintro i j ⟨_, hij⟩
    exact (h _ hij).2.2
  mapping h := nomatch h.1
  table h := nomatch h.1
  same := by
    rintro _ _ _ ha ⟨rfl, _⟩
    exact absurd trivial ha
  scope h := nomatch h.1
  ofMacro h := nomatch h.1

theorem similar : setting.2.Similar (.list 1) (.list 4) := by
  refine ⟨lists [(1, 4), (0, 2), (0, 3)], pairs_lists ?_, alike_lists (by simp)⟩
  rintro p (_ | ⟨_, _ | ⟨_, _ | ⟨_, ⟨⟩⟩⟩⟩)
  · exact ⟨by decide, by decide, .cons (alike_lists (by simp)) (.cons (alike_lists (by simp)) .nil)⟩
  · exact ⟨by decide, by decide, .cons (.text _) .nil⟩
  · exact ⟨by decide, by decide, .cons (.text _) .nil⟩

theorem isomorphic : setting.2.Isomorphic (.list 1) (.list 6) := by
  refine ⟨lists [(1, 6), (0, 5)], ⟨?_, ?_⟩, pairs_lists ?_, alike_lists (by simp)⟩
  · rintro a i j k ⟨_, hj⟩ ⟨_, hk⟩
    simp at hj hk
    omega
  · rintro a i j k ⟨_, hi⟩ ⟨_, hj⟩
    simp at hi hj
    omega
  · rintro p (_ | ⟨_, _ | ⟨_, ⟨⟩⟩⟩)
    · exact ⟨by decide, by decide, .cons (alike_lists (by simp)) (.cons (alike_lists (by simp)) .nil)⟩
    · exact ⟨by decide, by decide, .cons (.text _) .nil⟩

theorem outcome_first : outcome (Eval.renderTemplate setting.1 appending (.mapping 0)) setting.2 =
    .ok "[['a', 'b'], ['a', 'b']]" := by decide +kernel

theorem outcome_second : outcome (Eval.renderTemplate setting.1 appending (.mapping 1)) setting.2 =
    .ok "[['a', 'b'], ['a']]" := by decide +kernel

end Shared

/-- A third entry that is not reported changes nothing. -/
theorem renderTemplate_congr_of_shared :
    outcome (Eval.renderTemplate Shared.setting.1 Shared.appending (.mapping 2)) Shared.setting.2 =
      .ok "[['a', 'b'], ['a', 'b']]" := by
  have hnames : ∀ n ∈ undeclaredNames Shared.appending, Option.Rel Shared.setting.2.Isomorphic
      ((Shared.setting.2.contextVars (.mapping 0)).lookup n) ((Shared.setting.2.contextVars (.mapping 2)).lookup n) := by
    rw [Shared.reported]
    rintro n (_ | ⟨_, ⟨⟩⟩)
    exact .some Shared.isomorphic
  rw [← renderTemplate_congr Shared.plain Shared.lives (Shared.separate_single Shared.vars_first)
    Shared.separate_third hnames]
  exact Shared.outcome_first

/-- Equal contents are not enough: one list in two places is changed in both, two equal lists are not. -/
theorem renderTemplate_ne_of_similar :
    (Stmt.PlainBranches Shared.appending ∧ Shared.setting.1.Lives Shared.setting.2 ∧
      Shared.setting.2.Separate Shared.setting.1 (.mapping 0) ∧
      Shared.setting.2.Separate Shared.setting.1 (.mapping 1) ∧
      ∀ n ∈ undeclaredNames Shared.appending, Option.Rel Shared.setting.2.Similar
        ((Shared.setting.2.contextVars (.mapping 0)).lookup n) ((Shared.setting.2.contextVars (.mapping 1)).lookup n)) ∧
    outcome (Eval.renderTemplate Shared.setting.1 Shared.appending (.mapping 0)) Shared.setting.2 ≠
      outcome (Eval.renderTemplate Shared.setting.1 Shared.appending (.mapping 1)) Shared.setting.2 := by
  refine ⟨⟨Shared.plain, Shared.lives, Shared.separate_single Shared.vars_first,
    Shared.separate_single Shared.vars_second, ?_⟩, ?_⟩
  · rw [Shared.reported]
    rintro n (_ | ⟨_, ⟨⟩⟩)
    exact .some Shared.similar
  · rw [Shared.outcome_first, Shared.outcome_second]
    decide

end Stencil
