import Stencil.Proofs.Correspondence.Identity

/-! Where markup is escaped, output is put together from the texts of templates and from escaped texts. -/
namespace Stencil

/-- A text that may stand in output as it is. -/
inductive Fragment (templates : Set (List Stmt)) : Text → Prop where
  | text {body : List Stmt} {line : Nat} {t : Text} (hbody : body ∈ templates)
    (h : Stmt.Inside (.text line t) body) : Fragment templates t
  | escaped (u : Text) : Fragment templates (escapeMarkup u)

/-- The texts that are fragments one after another. -/
def Composed (templates : Set (List Stmt)) : Set Text :=
  {t | ∃ pieces : List Text, (∀ p ∈ pieces, Fragment templates p) ∧ t = pieces.flatten}

/-- Not marked as safe. -/
def Value.Unmarked (v : Value) : Prop := ∀ t, v ≠ .safe t

/-- One store differs from another in data that holds no text marked as safe. -/
structure Store.Provides (s s' : Store) : Prop where
  scopes : s'.scopes = s.scopes
  macros : s'.macros = s.macros
  lists {i : ListId} {xs : List Value} : s'.lists[i]? = some xs →
    s.lists[i]? = some xs ∨ ∀ v ∈ xs, v.Unmarked
  mappings {i : MappingId} {ps : Properties} : s'.mappings[i]? = some ps →
    s.mappings[i]? = some ps ∨ ∀ p ∈ ps, p.2.value.Unmarked
  tables {i : TableId} {es : List (Value × Value)} : s'.tables[i]? = some es →
    s.tables[i]? = some es ∨ ∀ e ∈ es, e.1.Unmarked ∧ e.2.Unmarked

/-- A body uses a filter that marks text as safe. -/
def Environment.MarksText (env : Environment) (body : List Stmt) : Prop :=
  ∃ line target name args named, Expr.Inside (.filter line target name args named) body ∧
    env.filters.lookup name = some .safe

/-- The stores of an environment whose global variables are the built-in ones and macros of some
templates. Templates are rendered, their macros are installed and called, and callers change their data. -/
inductive Environment.Prepared (env : Environment) (templates : Set (List Stmt)) : Store → Prop where
  | create {s : Store} (keep auto performs : Bool) (h : Store.empty.Provides s)
    (hglobals : env.globals = (create keep auto performs s).1.globals) :
    Prepared env templates (create keep auto performs s).2
  | provide {s s' : Store} (h : Prepared env templates s) (hs : s.Provides s') : Prepared env templates s'
  | render {s : Store} (h : Prepared env templates s) {body : List Stmt} (hbody : body ∈ templates)
    {context : Value} (hcontext : ∀ p ∈ s.contextVars context, p.2.Unmarked) :
    Prepared env templates (after (Eval.renderTemplate env body context) s)
  | exports {s : Store} (h : Prepared env templates s) {body : List Stmt} (hbody : body ∈ templates) :
    Prepared env templates (after (Eval.exports env body) s)
  | install {s : Store} (h : Prepared env templates s) {body : List Stmt} (hbody : body ∈ templates) :
    Prepared env templates (after (do Eval.setGlobals env (← Eval.macros env body)) s)
  | call {s : Store} (h : Prepared env templates s) {v : Value} {a : Arguments} (hv : v.Unmarked)
    (hargs : ∀ w ∈ a.args, w.Unmarked) (hnamed : ∀ p ∈ a.named, p.2.Unmarked) :
    Prepared env templates (after (Eval.call env.features depthLimit v a) s)

namespace Escaping

open Correspondence

variable {templates : Set (List Stmt)} {env : Environment} {s s' : Store} {κ : Known}

/-- The features of an environment; good text is composed. -/
def composing (env : Environment) (templates : Set (List Stmt)) : Policy where
  features := env.features
  good := Composed templates
  good_nil := ⟨[], by simp⟩
  good_append := by
    rintro t u ⟨ps, hps, rfl⟩ ⟨qs, hqs, rfl⟩
    refine ⟨ps ++ qs, fun p hp => ?_, List.flatten_append.symm⟩
    exact (List.mem_append.mp hp).elim (hps p) (hqs p)
  good_escape u := ⟨[escapeMarkup u], by simp [Fragment.escaped], by simp⟩

theorem accepts_of_unmarked {p : Policy} {v : Value} (h : v.Unmarked) : p.Accepts v := fun t ht => absurd ht (h t)

/-- Data without marked text corresponds to itself. -/
theorem agree_provide (h : (identity (composing env templates)).Agree κ s s) (hs : s.Provides s') :
    (identity (composing env templates)).Agree κ s' s' where
  fresh _ _ := rfl
  lists := by
    rintro i _ rfl
    have hi := h.lists i i rfl
    cases hx : s'.lists[i]? with
    | none => exact .none
    | some xs =>
      rcases hs.lists hx with hold | hnew
      · rwa [hold] at hi
      · exact .some (items_self fun v hv => accepts_of_unmarked (hnew v hv))
  mappings := by
    rintro i _ rfl
    have hi := h.mappings i i rfl
    cases hx : s'.mappings[i]? with
    | none => exact .none
    | some ps =>
      rcases hs.mappings hx with hold | hnew
      · rwa [hold] at hi
      · exact .some (properties_self fun q hq => accepts_of_unmarked (hnew q hq))
  tables := by
    rintro i _ rfl
    have hi := h.tables i i rfl
    cases hx : s'.tables[i]? with
    | none => exact .none
    | some es =>
      rcases hs.tables hx with hold | hnew
      · rwa [hold] at hi
      · exact .some (entries_self fun e he =>
        ⟨accepts_of_unmarked (hnew e he).1, accepts_of_unmarked (hnew e he).2⟩)
  scopes := by
    rw [hs.scopes]
    exact h.scopes
  macros := by
    rw [hs.macros]
    exact h.macros
  known _ _ _ := .inl trivial
  live := by
    rw [hs.scopes]
    exact h.live
  outer _ ho := nomatch ho
  left := .empty s'
  right := .empty s'
  still := Store.keepsOutside_empty s'

theorem agree_empty : (identity (composing env templates)).Agree ⟨fun _ => Set.univ, ∅⟩ .empty .empty where
  fresh _ _ := rfl
  lists _ _ _ := .none
  mappings _ _ _ := .none
  tables _ _ _ := .none
  scopes _ _ _ := .none
  macros _ _ _ := .none
  known _ _ _ := .inl trivial
  live _ hi := nomatch hi
  outer _ ho := nomatch ho
  left := .empty .empty
  right := .empty .empty
  still := Store.keepsOutside_empty .empty

/-- A template whose texts are fragments and that marks nothing as safe is allowed. -/
theorem allowed_of_unmarked {body : List Stmt} (hbody : body ∈ templates) (hsafe : ¬ env.MarksText body) :
    bodyAllowed (composing env templates) Set.univ body := by
  refine bodyAllowed_of_admits ⟨fun line t ht _ => ?_, fun line target name args named he hmarks => ?_⟩
  · exact ⟨[t], by simpa using Fragment.text hbody ht, by simp⟩
  · exact absurd ⟨line, target, name, args, named, he, hmarks⟩ hsafe

/-- What is safe in a prepared store is composed, and its macros contain what templates may contain. -/
theorem tame_of_prepared (hsafe : ∀ body ∈ templates, ¬ env.MarksText body) (h : env.Prepared templates s) :
    env.Tame (composing env templates) s := by
  have hallowed : ∀ body ∈ templates, bodyAllowed (composing env templates) Set.univ body :=
    fun body hbody => allowed_of_unmarked hbody (hsafe body hbody)
  induction h with
  | create keep auto performs h hglobals =>
    exact .create (agree_provide agree_empty h) rfl keep auto performs hglobals
  | provide _ hs ih =>
    obtain ⟨κ, hagree, hglobals⟩ := ih
    exact ⟨κ, agree_provide hagree hs, hglobals⟩
  | render _ hbody hcontext ih =>
    exact ih.render (hallowed _ hbody) fun q hq => accepts_of_unmarked (hcontext q hq)
  | exports _ hbody ih => exact ih.exports (hallowed _ hbody)
  | install _ hbody ih => exact ih.install (hallowed _ hbody)
  | call _ hv hargs hnamed ih =>
    exact ih.call (accepts_of_unmarked hv) (fun w hw => accepts_of_unmarked (hargs w hw))
      fun q hq => accepts_of_unmarked (hnamed q hq)

end Escaping

/-- Where markup is escaped and nothing is marked as safe, output is made of the texts of templates and
of escaped texts. -/
theorem Environment.Prepared.rendered_composed {env : Environment} {templates : Set (List Stmt)} {s t : Store}
    {body : List Stmt} {context : Value} {output : Text} (hauto : env.autoescape = true)
    (hsafe : ∀ body ∈ templates, ¬ env.MarksText body)
    (h : env.Prepared templates s) (hbody : body ∈ templates)
    (hcontext : ∀ p ∈ s.contextVars context, p.2.Unmarked)
    (hrun : Eval.renderTemplate env body context s = .ok output t) :
    ∃ pieces : List Text, (∀ p ∈ pieces, Fragment templates p) ∧ output = pieces.flatten := by
  obtain ⟨κ, hagree, hglobals⟩ := Escaping.tame_of_prepared hsafe h
  have hallowed := Escaping.allowed_of_unmarked hbody (hsafe body hbody)
  have haccepts := fun q hq => Escaping.accepts_of_unmarked (p := Escaping.composing env templates) (hcontext q hq)
  have hends := Tame.sim_template hglobals hallowed haccepts s s hagree
  change Correspondence.Ends _ _ _ (Eval.renderTemplate env body context s)
    (Eval.renderTemplate env body context s) at hends
  rw [hrun] at hends
  obtain ⟨_, _, _, hwritten⟩ := hends
  exact hwritten.2 hauto

namespace Escaping

/-- A macro that writes its argument between brackets. -/
def brackets : List Stmt :=
  [.define 1 "m" [⟨"a", 1, 0⟩] [] [.text 1 "[", .output 1 (.name ⟨"a", 1, 0⟩), .text 1 "]"]]

/-- A template that calls the macro. -/
def page : List Stmt := [.output 1 (.call 1 (.name ⟨"m", 1, 0⟩) [.name ⟨"x", 1, 0⟩] [])]

/-- An environment in a store with a context. -/
def setting : Environment × Store :=
  Environment.create false true true (Store.empty.newMapping [("x", .data (.text "<b>"))]).2

/-- The store after the macro was installed. -/
def installed : Store := after (do Eval.setGlobals setting.1 (← Eval.macros setting.1 brackets)) setting.2

theorem setting_provided : Store.empty.Provides (Store.empty.newMapping [("x", .data (.text "<b>"))]).2 where
  scopes := rfl
  macros := rfl
  lists h := nomatch h
  mappings {i ps} h := by
    refine .inr ?_
    cases i with
    | zero =>
      cases h
      rintro p (_ | ⟨_, ⟨⟩⟩)
      exact fun t h => nomatch h
    | succ i => cases h
  tables h := nomatch h

theorem not_marksText : ∀ body ∈ ({brackets, page} : Set (List Stmt)), ¬ setting.1.MarksText body := by
  rintro body hbody ⟨line, target, name, args, named, ⟨s, hs, e, he, hwithin⟩, _⟩
  rcases hbody with rfl | rfl
  · simp only [brackets, Stmt.inside_cons, Stmt.inside_nil, Stmt.parts, or_false, false_or] at hs
    rcases hs with rfl | rfl | rfl | rfl <;> simp only [Stmt.roots, List.mem_singleton, List.not_mem_nil] at he
    subst he
    exact nomatch Expr.within_name.mp hwithin
  · simp only [page, Stmt.inside_cons, Stmt.inside_nil, Stmt.parts, or_false] at hs
    subst hs
    simp only [Stmt.roots, List.mem_singleton] at he
    subst he
    rw [Expr.within_iff] at hwithin
    simp [Expr.parts, Expr.within_name] at hwithin

end Escaping

theorem Environment.Prepared.rendered_composed_of_macro : ∃ (t : Store) (pieces : List Text),
    Eval.renderTemplate Escaping.setting.1 Escaping.page (.mapping 0) Escaping.installed =
      .ok "[&lt;b&gt;]" t ∧
    (∀ p ∈ pieces, Fragment {Escaping.brackets, Escaping.page} p) ∧ "[&lt;b&gt;]" = pieces.flatten := by
  have hrun : (match Eval.renderTemplate Escaping.setting.1 Escaping.page (.mapping 0) Escaping.installed with
      | .ok output _ => decide (output = "[&lt;b&gt;]")
      | .error _ _ => false) = true := by decide +kernel
  have hvars : Escaping.installed.contextVars (.mapping 0) = [(Text.ofString "x", .text "<b>")] := by
    decide +kernel
  have hcontext : ∀ p ∈ Escaping.installed.contextVars (.mapping 0), p.2.Unmarked := by
    rw [hvars]
    simp [Value.Unmarked]
  have hprepared : Escaping.setting.1.Prepared {Escaping.brackets, Escaping.page} Escaping.installed :=
    .install (.create false true true Escaping.setting_provided rfl) (.inl rfl)
  split at hrun
  · rename_i output t h
    cases of_decide_eq_true hrun
    obtain ⟨pieces, hpieces, hflat⟩ :=
      rendered_composed rfl Escaping.not_marksText hprepared (.inr rfl) hcontext h
    exact ⟨t, pieces, h, hpieces, hflat⟩
  · cases hrun

end Stencil
