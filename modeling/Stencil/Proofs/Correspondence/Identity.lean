import Stencil.Proofs.Correspondence.Run
import Stencil.Proofs.Running

/-! Every store corresponds to itself, and what this says about the scopes that a run leaves. -/
namespace Stencil

/-- A value that is good text, if it is marked as safe. -/
def Policy.Accepts (p : Policy) (v : Value) : Prop := ∀ t, v = .safe t → t ∈ p.good

namespace Correspondence

/-- The correspondence of a store with itself. -/
def identity (p : Policy) : Correspondence where
  toPolicy := p
  rel _ i j := i = j
  functional := by rintro a i j k rfl h; exact h
  injective := by rintro a i j k h rfl; exact h
  base := .empty
  frozen := ∅
  frozen_lt h := nomatch h
  closed h := nomatch h
  apart := by rintro (_ | _) <;> simp [Store.taken, Store.empty]
  origin := .empty
  shown := Set.univ
  outer := ∅

variable {p : Policy} {v : Value}

theorem alike_self (hv : p.Accepts v) : (identity p).Alike v v := .self (fun _ _ => rfl) hv

theorem slot_self {x : Slot} (hx : p.Accepts x.value) : Slot.Alike (identity p).rel (identity p).good x x := by
  cases x with
  | data v => exact .data (alike_self hx)
  | computed v => exact .computed (alike_self hx)

theorem items_self {xs : List Value} (h : ∀ v ∈ xs, p.Accepts v) : List.Forall₂ (identity p).Alike xs xs :=
  List.forall₂_same.mpr fun v hv => alike_self (h v hv)

theorem named_self {xs : List (Text × Value)} (h : ∀ q ∈ xs, p.Accepts q.2) :
    List.Forall₂ (identity p).NamedAlike xs xs :=
  List.forall₂_same.mpr fun q hq => ⟨rfl, alike_self (h q hq)⟩

theorem properties_self {ps : Properties} (h : ∀ q ∈ ps, p.Accepts q.2.value) :
    List.Forall₂ (PropertyAlike (identity p).rel (identity p).good) ps ps :=
  List.forall₂_same.mpr fun q hq => ⟨rfl, slot_self (h q hq)⟩

theorem entries_self {es : List (Value × Value)} (h : ∀ e ∈ es, p.Accepts e.1 ∧ p.Accepts e.2) :
    List.Forall₂ (identity p).EntryAlike es es :=
  List.forall₂_same.mpr fun e he => ⟨.inl (alike_self (h e he).1), alike_self (h e he).2⟩

end Correspondence

open Correspondence

/-- An environment in a store that corresponds to itself under a policy. -/
def Environment.Tame (p : Policy) (env : Environment) (s : Store) : Prop :=
  ∃ κ, (identity p).Agree κ s s ∧ (identity p).Environments κ Set.univ env env

namespace Environment.Tame

variable {p : Policy} {env : Environment} {s : Store} {body : List Stmt}

theorem create {κ : Known} (h : (identity p).Agree κ s s) (hfeatures : env.features = p.features)
    (keep auto performs : Bool) (hglobals : env.globals = (Environment.create keep auto performs s).1.globals) :
    env.Tame p (Environment.create keep auto performs s).2 := by
  obtain ⟨μ, _, hagree, hat⟩ := h.create rfl keep auto performs
  rw [← hglobals] at hat
  exact ⟨μ, hagree, hfeatures, hfeatures, hat⟩

/-- A computation that corresponds to itself leaves a tame store. -/
theorem after {α : Type} {x : Eval α} {Q : Known → α → α → Prop} (h : env.Tame p s)
    (hx : ∀ κ, (identity p).Environments κ Set.univ env env → (identity p).Sim κ x x Q) :
    env.Tame p (after x s) := by
  obtain ⟨κ, hagree, hglobals⟩ := h
  have hends := hx κ hglobals s s hagree
  unfold Stencil.after
  cases hr : x s with
  | ok a t =>
    rw [hr] at hends
    obtain ⟨μ, hμ, hagree', _⟩ := hends
    exact ⟨μ, hagree', hglobals.mono hμ⟩
  | error e t =>
    rw [hr] at hends
    obtain ⟨_, μ, hμ, hagree'⟩ := hends
    exact ⟨μ, hagree', hglobals.mono hμ⟩

theorem sim_template {κ : Known} {vars : List (Text × Value)}
    (h : (identity p).Environments κ Set.univ env env) (hbody : bodyAllowed p Set.univ body)
    (hvars : ∀ q ∈ vars, p.Accepts q.2) :
    (identity p).Sim κ (do return (← Eval.run env body vars).1) (do return (← Eval.run env body vars).1)
      fun _ => (identity p).Written :=
  (sim_run h (named_self hvars) hbody).bind fun _ _ _ _ hpq => .pure hpq.1

section operations

variable (h : env.Tame p s)
include h

theorem render (hbody : bodyAllowed p Set.univ body) {context : Value}
    (hcontext : ∀ q ∈ s.contextVars context, p.Accepts q.2) :
    env.Tame p (Stencil.after (Eval.renderTemplate env body context) s) := by
  have hrun : env.Tame p (Stencil.after (do return (← Eval.run env body (s.contextVars context)).1) s) :=
    h.after fun κ hglobals => sim_template hglobals hbody hcontext
  exact hrun

theorem exports (hbody : bodyAllowed p Set.univ body) : env.Tame p (Stencil.after (Eval.exports env body) s) :=
  h.after fun _ hglobals => sim_exports hglobals.left hglobals.right hglobals.globals.hosts hbody

theorem install (hbody : bodyAllowed p Set.univ body) :
    env.Tame p (Stencil.after (do Eval.setGlobals env (← Eval.macros env body)) s) :=
  h.after fun _ hglobals => (sim_macros hglobals.left hglobals.right hglobals.globals.hosts hbody).bind
    fun _ hμ _ _ hps => sim_setGlobals (hglobals.mono hμ) hps

theorem call {v : Value} {a : Arguments} (hv : p.Accepts v) (hargs : ∀ w ∈ a.args, p.Accepts w)
    (hnamed : ∀ q ∈ a.named, p.Accepts q.2) : env.Tame p (Stencil.after (Eval.call p.features depthLimit v a) s) :=
  h.after fun _ _ => (simulates (identity p) depthLimit).call (alike_self hv) ⟨items_self hargs, named_self hnamed⟩

end operations
end Environment.Tame

/-- Scopes are younger than what surrounds them, and macros were defined in scopes. -/
structure Store.Layered (s : Store) : Prop where
  parents : ∀ i, ∀ k ∈ (s.scope i).parent, k < i
  macros : ∀ m ∈ s.macros, m.scope < s.scopes.size

theorem Correspondence.Agree.layered {p : Policy} {κ : Known} {s t : Store} (h : (identity p).Agree κ s t) :
    s.Layered where
  parents i k hk := by
    unfold Store.scope at hk
    rcases rel_cases (h.scopes i i rfl) with ⟨hx, _⟩ | ⟨q, _, hx, _, hq⟩ <;> rw [hx] at hk
    · cases hk
    · exact hq.older_left k hk
  macros m hm := by
    obtain ⟨i, hi⟩ := Array.getElem?_of_mem hm
    rcases rel_cases (h.macros i i rfl) with ⟨hx, _⟩ | ⟨n, _, hx, _, hn⟩ <;> rw [hi] at hx <;> cases hx
    exact h.live _ hn.live

/-- What is known in a layered store: all names, in all its scopes. -/
def Store.allKnown (s : Store) : Known := ⟨fun _ => Set.univ, {i | i < s.scopes.size}⟩

theorem Store.Layered.agree {s : Store} (h : s.Layered) (features : Features) :
    (identity (.free features)).Agree s.allKnown s s where
  fresh _ _ := rfl
  lists := by
    rintro i _ rfl
    cases s.lists[i]? with
    | none => exact .none
    | some xs => exact .some (items_self fun _ _ _ _ => trivial)
  mappings := by
    rintro i _ rfl
    cases s.mappings[i]? with
    | none => exact .none
    | some ps => exact .some (properties_self fun _ _ _ _ => trivial)
  tables := by
    rintro i _ rfl
    cases s.tables[i]? with
    | none => exact .none
    | some es => exact .some (entries_self fun _ _ => ⟨fun _ _ => trivial, fun _ _ => trivial⟩)
  scopes := by
    rintro i _ rfl
    have hparents := h.parents i
    unfold Store.scope at hparents
    cases hx : s.scopes[i]? with
    | none => exact .none
    | some q =>
      rw [hx] at hparents
      have hvars : List.Forall₂ (identity (.free features)).NamedAlike q.vars q.vars :=
        named_self fun _ _ _ _ => trivial
      refine .some ⟨?_, hparents, hparents, fun _ => hvars, fun n _ => rel_lookup hvars n⟩
      cases q.parent with
      | none => exact .none
      | some k => exact .some rfl
  macros := by
    rintro i _ rfl
    cases hx : s.macros[i]? with
    | none => exact .none
    | some m =>
      have hlive := h.macros m (Array.mem_of_getElem? hx)
      exact .some ⟨rfl, rfl, rfl, rfl, rfl, hlive, Set.univ, subset_rfl, m.allowed_free features⟩
  known _ _ _ := .inl trivial
  live _ hi := hi
  outer _ ho := nomatch ho
  left := .empty s
  right := .empty s
  still := Store.keepsOutside_empty s

/-- An environment that was created in a store. -/
structure Environment.Lives (env : Environment) (s : Store) : Prop where
  layered : s.Layered
  globals : env.globals < s.scopes.size

namespace Environment.Lives

variable {env : Environment} {s : Store}

theorem of_tame {p : Policy} (h : env.Tame p s) : env.Lives s := by
  obtain ⟨κ, hagree, henv⟩ := h
  exact ⟨hagree.layered, hagree.live _ henv.globals.live⟩

theorem tame (h : env.Lives s) : env.Tame (.free env.features) s :=
  ⟨s.allKnown, h.layered.agree env.features, rfl, rfl, rfl, h.globals, subset_rfl⟩

theorem create (h : s.Layered) (keep auto performs : Bool)
    (hglobals : env.globals = (Environment.create keep auto performs s).1.globals) :
    env.Lives (Environment.create keep auto performs s).2 :=
  of_tame (Tame.create (h.agree env.features) rfl keep auto performs hglobals)

section operations

variable (h : env.Lives s) (body : List Stmt)
include h

theorem render (context : Value) : env.Lives (after (Eval.renderTemplate env body context) s) :=
  of_tame (h.tame.render (bodyAllowed_of_admits (.free _ body)) fun _ _ _ _ => trivial)

theorem exports : env.Lives (after (Eval.exports env body) s) :=
  of_tame (h.tame.exports (bodyAllowed_of_admits (.free _ body)))

theorem install : env.Lives (after (do Eval.setGlobals env (← Eval.macros env body)) s) :=
  of_tame (h.tame.install (bodyAllowed_of_admits (.free _ body)))

omit body in
theorem call (v : Value) (a : Arguments) : env.Lives (after (Eval.call env.features depthLimit v a) s) :=
  of_tame (h.tame.call (fun _ _ => trivial) (fun _ _ _ _ => trivial) fun _ _ _ _ => trivial)

end operations
end Environment.Lives
end Stencil
