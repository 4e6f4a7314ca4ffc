import Stencil.Proofs.Correspondence.Change
import Stencil.Proofs.Correspondence.Simulation
import Stencil.Proofs.Running
import Stencil.Proofs.Value.PropertyOrder

/-! Computations that give a result and let the store grow only, so that what was there before stands. -/
namespace Stencil

open Correspondence (Keeps)

variable {ε W α β γ : Type} [Stored W] {P : Store → α → Prop} {Q : Store → β → Prop} {w : W}

/-- A computation gives a result of `P` and lets the store grow only. -/
def Gives (w : W) (x : EStateM ε W α) (P : Store → α → Prop) : Prop :=
  ∃ a v, x w = .ok a v ∧ Keeps (Stored.store w) (Stored.store v) ∧ P (Stored.store v) a

theorem Gives.pure {a : α} (h : P (Stored.store w) a) : Gives w (Pure.pure a : EStateM ε W α) P :=
  ⟨a, w, rfl, .refl _, h⟩

theorem Gives.mono {Q : Store → α → Prop} {x : EStateM ε W α} (h : Gives w x P) (hPQ : ∀ s a, P s a → Q s a) :
    Gives w x Q := by
  obtain ⟨a, v, hx, hkeeps, hP⟩ := h
  exact ⟨a, v, hx, hkeeps, hPQ _ a hP⟩

theorem Gives.bind {x : EStateM ε W α} {f : α → EStateM ε W β} (h : Gives w x P)
    (hf : ∀ a v, Keeps (Stored.store w) (Stored.store v) → P (Stored.store v) a → Gives v (f a) Q) :
    Gives w (x >>= f) Q := by
  obtain ⟨a, v, hx, hkeeps, hP⟩ := h
  obtain ⟨b, u, hb, hkeeps', hQ⟩ := hf a v hkeeps hP
  exact ⟨b, u, (bind_ok hx).trans hb, hkeeps.trans hkeeps', hQ⟩

/-- What one computation gives stands while the others follow. -/
theorem Gives.mapM {f : α → EStateM ε W β} {R : Store → β → γ → Prop}
    (hR : ∀ {s t b c}, Keeps s t → R s b c → R t b c) {as : List α} {cs : List γ}
    (h : List.Forall₂ (fun a c => ∀ v, Keeps (Stored.store w) (Stored.store v) → Gives v (f a) fun s b => R s b c)
      as cs) :
    Gives w (as.mapM f) fun s bs => List.Forall₂ (R s) bs cs := by
  have hlater : ∀ v, Keeps (Stored.store w) (Stored.store v) →
      Gives v (as.mapM f) fun s bs => List.Forall₂ (R s) bs cs := by
    induction h with
    | nil => exact fun v _ => .pure .nil
    | cons hac _ ih =>
      intro v hv
      rw [List.mapM_cons]
      refine (hac v hv).bind fun b u hu hb => (ih u (hv.trans hu)).bind fun bs _ hkeeps hbs => .pure ?_
      exact .cons (hR hkeeps hb) hbs
  exact hlater w (.refl _)

/-- What is in a store that is kept is read from every store that keeps it. -/
theorem Gives.read_bind {base s : Store} {f : Store → α} {a : α} {g : α → Eval β} (hs : Keeps base s)
    (hf : ∀ s, Keeps base s → f s = a) (hg : Gives s (g a) Q) : Gives s (Eval.read f >>= g) Q := by
  change Gives s (g (f s)) Q
  rwa [hf s hs]

/-- A computation over the store, as an action. -/
theorem Gives.evaluate {x : Eval α} {w : World} (h : Gives w.store x P) : Gives w (Action.evaluate x) P := by
  obtain ⟨a, s, hx, hkeeps, hP⟩ := h
  refine ⟨a, { w with store := s }, ?_, hkeeps, hP⟩
  rw [Action.evaluate_eq, hx]

namespace Eval

variable {s : Store}

/-! New containers, and what they hold. -/

theorem gives_newList (vs : List Value) : Gives s (newList vs) fun t v =>
    ∃ i, v = .list i ∧ i < t.lists.size ∧ t.list i = vs ∧ Keeps s t := by
  have hkeeps : Keeps s (s.newList vs).2 := (Keeps.refl s).newList vs
  have hitems : (s.newList vs).2.list s.lists.size = vs := by simp [Store.newList, Store.list]
  have hsize : s.lists.size < (s.newList vs).2.lists.size := by simp [Store.newList]
  exact ⟨.list s.lists.size, (s.newList vs).2, rfl, hkeeps, s.lists.size, rfl, hsize, hitems, hkeeps⟩

theorem gives_newMapping (ps : Properties) : Gives s (newMapping ps) fun t v =>
    ∃ i, v = .mapping i ∧ i < t.mappings.size ∧ t.mapping i = ps ∧ Keeps s t := by
  have hkeeps : Keeps s (s.newMapping ps).2 := (Keeps.refl s).newMapping ps
  have hentries : (s.newMapping ps).2.mapping s.mappings.size = ps := by simp [Store.newMapping, Store.mapping]
  have hsize : s.mappings.size < (s.newMapping ps).2.mappings.size := by simp [Store.newMapping]
  exact ⟨.mapping s.mappings.size, (s.newMapping ps).2, rfl, hkeeps, s.mappings.size, rfl, hsize, hentries, hkeeps⟩

theorem gives_newTable (entries : List (Value × Value)) : Gives s (alloc (·.newTable entries)) fun t v =>
    ∃ i, v = .table i ∧ i < t.tables.size ∧ t.table i = entries ∧ Keeps s t := by
  have hkeeps : Keeps s (s.newTable entries).2 := (Keeps.refl s).newTable entries
  have hentries : (s.newTable entries).2.table s.tables.size = entries := by simp [Store.newTable, Store.table]
  have hsize : s.tables.size < (s.newTable entries).2.tables.size := by simp [Store.newTable]
  exact ⟨.table s.tables.size, (s.newTable entries).2, rfl, hkeeps, s.tables.size, rfl, hsize, hentries, hkeeps⟩

/-- Properties in order become a mapping as they are. -/
theorem gives_mappingOf {entries : List (Text × Value)} (hkeys : KeysInOrder (entries.map (·.1))) :
    Gives s (mappingOf entries) fun t v => ∃ i, v = .mapping i ∧ i < t.mappings.size ∧
      t.mapping i = (entries.map fun p => (p.1, .data p.2)) ∧ Keeps s t := by
  have hordered : Properties.ofList (entries.map fun p => (p.1, .data p.2)) = entries.map fun p => (p.1, .data p.2) :=
    Properties.ofList_eq (by rwa [List.map_map])
  change Gives s (newMapping (Properties.ofList (entries.map fun p => (p.1, .data p.2)))) _
  rw [hordered]
  exact gives_newMapping _

end Eval

end Stencil
