import Stencil.Proofs.Realm.Exchange
import Stencil.Proofs.Templater.Outcomes

/-!
Macro sources share only the global variables of their document, which none of them changes. Two sources that change
places make the same things in other places of the store.
-/

namespace Stencil.Templater

open Correspondence Realm

/-! ## Sources in a realm -/

section within

variable {ρ : Realm} {g : ScopeId} {w v : World}

/-- A source that is loaded leaves the realm in order, and its macros are of the realm. -/
theorem sourceMacros_within {source : Text} {found : List (Text × Value)} (hg : ρ.Has w.store (.scope, g))
    (hw : ρ.Rules w.store) (h : sourceMacros (documentEnvironment g) source w = .ok found v) :
    ρ.Rules v.store ∧ w.store.Grows v.store ∧ ∀ p ∈ found, ρ.Owns v.store p.2 := by
  obtain ⟨body, u, hread, hrun⟩ := exists_of_bind_ok h
  obtain ⟨rfl, -⟩ := (readTemplate_ends (documentEnvironment g) source w).ok hread
  rw [Action.evaluate_eq] at hrun
  split at hrun
  · rename_i found' s hmacros
    cases hrun
    exact yields_macros hg body hw _ _ hmacros
  · cases hrun

theorem mapM_within {sources : List Text} {found : List (List (Text × Value))} (hg : ρ.Has w.store (.scope, g))
    (hw : ρ.Rules w.store) (h : sources.mapM (sourceMacros (documentEnvironment g)) w = .ok found v) :
    ρ.Rules v.store ∧ w.store.Grows v.store ∧ ∀ xs ∈ found, ∀ p ∈ xs, ρ.Owns v.store p.2 := by
  induction sources generalizing w found with
  | nil =>
    cases h
    exact ⟨hw, .refl _, fun _ hxs => nomatch hxs⟩
  | cons source sources ih =>
    rw [List.mapM_cons] at h
    obtain ⟨xs, u, hu, h⟩ := exists_of_bind_ok h
    obtain ⟨more, u', hu', h⟩ := exists_of_bind_ok h
    cases h
    obtain ⟨hrules, hgrows, hxs⟩ := sourceMacros_within hg hw hu
    obtain ⟨hrules', hgrows', hmore⟩ := ih (hg.mono hgrows) hrules hu'
    refine ⟨hrules', hgrows.trans hgrows', List.forall_mem_cons.mpr ⟨fun p hp => (hxs p hp).mono hgrows', hmore⟩⟩

end within

/-! ## Two sources that change places -/

section crossing

variable {ρ : Realm} {g : ScopeId} (hg : (.scope, g) ∈ ρ.shared)
include hg

theorem at_shift {u v : Store} (hu : ρ.start.Extends u) (hv : ρ.start.Extends v) :
    (ρ.shift documentFeatures hu hv).At ρ.known Set.univ g g :=
  ⟨.inr ⟨hg, rfl⟩, hg, subset_rfl⟩

/-- A source that can be loaded in one store of the realm can be loaded in another, and its macros correspond. -/
theorem sourceMacros_shift {u v : World} (hu : ρ.start.Extends u.store) (hv : ρ.start.Extends v.store) {source : Text}
    {found : List (Text × Value)} {s : World} (h : sourceMacros (documentEnvironment g) source u = .ok found s) :
    ∃ found' t κ, sourceMacros (documentEnvironment g) source v = .ok found' t ∧
      (ρ.shift documentFeatures hu hv).Agree κ s.store t.store ∧
      List.Forall₂ (ρ.shift documentFeatures hu hv).NamedAlike found found' := by
  obtain ⟨found', t, ht, κ, -, hagree, hfound⟩ :=
    (sim_sourceMacros rfl (at_shift hg hu hv).hosts source).exists_of_ok agree_shift h
  exact ⟨found', t, κ, ht, hagree, hfound⟩

/-- Two sources that can be loaded one after the other can be loaded the other way round, with macros that correspond. -/
theorem exists_crossing {v a s : World} (hv : ρ.Rules v.store) (hclosed : whole.Rules v.store)
    (hapart : ∀ m ∈ v.store.macros, (.scope, m.scope) ∉ ρ.shared) {first second : Text} {xs ys : List (Text × Value)}
    (hfirst : sourceMacros (documentEnvironment g) first v = .ok xs a)
    (hsecond : sourceMacros (documentEnvironment g) second a = .ok ys s) :
    ∃ ys' b xs' t, sourceMacros (documentEnvironment g) second v = .ok ys' b ∧
      sourceMacros (documentEnvironment g) first b = .ok xs' t ∧
      ∃ h : (ρ.later hv.kept).Crossing documentFeatures a.store b.store s.store t.store,
        List.Forall₂ h.correspondence.NamedAlike xs xs' ∧ List.Forall₂ h.correspondence.NamedAlike ys ys' := by
  -- the realm from `v` on, and that from `a` on
  obtain ⟨hrules, -, hxs⟩ := sourceMacros_within (ρ := ρ.later hv.kept) (.inr hg) (rules_start _) hfirst
  obtain ⟨hrules', -, hys⟩ :=
    sourceMacros_within (ρ := (ρ.later hv.kept).later hrules.kept) (.inr hg) (rules_start _) hsecond
  obtain ⟨ys', b, κ, hb, hagree, hys'⟩ :=
    sourceMacros_shift (ρ := ρ.later hv.kept) hg hrules.kept (.refl _) hsecond
  obtain ⟨hrulesb, -, -⟩ := sourceMacros_within (ρ := ρ.later hv.kept) (.inr hg) (rules_start _) hb
  obtain ⟨xs', t, μ, ht, hagree', hxs'⟩ :=
    sourceMacros_shift (ρ := ρ.later hv.kept) hg (.refl _) hrulesb.kept hfirst
  obtain ⟨hrulest, -, -⟩ :=
    sourceMacros_within (ρ := (ρ.later hv.kept).later hrulesb.kept) (.inr hg) (rules_start _) ht
  have hcrossing : (ρ.later hv.kept).Crossing documentFeatures a.store b.store s.store t.store :=
    { closed := hclosed
      apart := hapart
      first := hrules
      then_second := hrules'
      second := hrulesb.kept
      then_first := hrulest.kept
      firstAlike := ⟨μ, hagree'⟩
      secondAlike := ⟨κ, hagree⟩ }
  exact ⟨ys', b, xs', t, hb, ht, hcrossing, hcrossing.refines_first.named hxs hxs',
    hcrossing.refines_second.named hys hys'⟩

end crossing

/-! ## Documents -/

section documents

theorem opening_grows (w : World) : w.store.Grows (opening w).2.store := by
  intro x
  cases x with
  | scope => exact (Rules.lt_size_push w.store.scopes _).le
  | native | foreign => exact Nat.le_add_right w.store.serial 2
  | _ => exact le_refl _

theorem whole_opening {w : World} (h : whole.Rules w.store) : whole.Rules (opening w).2.store := by
  obtain ⟨hrange, -, hown⟩ := h.newNative (f := .range) nofun
  obtain ⟨hdict, hst, hown'⟩ := hrange.newNative (f := .dict) nofun
  refine (hdict.newScope (fun _ hk => absurd hk (Option.not_mem_none _)) fun p hp => ?_).1
  rcases List.mem_cons.mp hp with rfl | hp
  · exact hown.mono hst
  · cases List.mem_singleton.mp hp
    exact hown'

/-- The realm of the macro sources of a document: they share its global variables. -/
def sourceRealm (w : World) : Realm where
  start := (opening w).2.store
  shared := {(.scope, w.store.scopes.size), (.native, w.store.serial), (.native, w.store.serial + 1)}
  fixed := by rintro p (rfl | rfl | rfl) <;> simp
  taken := by
    rintro p (rfl | rfl | rfl)
    · exact Rules.lt_size_push w.store.scopes _
    · exact Nat.lt_add_of_pos_right Nat.zero_lt_two
    · exact Nat.lt_succ_self _
  closed := by
    intro i hi
    have hi' : i = w.store.scopes.size := by simpa using hi
    subst hi'
    have hscope : (opening w).2.store.scope w.store.scopes.size = ⟨none, [(Text.ofString "range",
        .native w.store.serial .range), (Text.ofString "dict", .native (w.store.serial + 1) .dict)]⟩ := by
      simp [opening, environment, Environment.create, Store.newNative, Store.newScope, Store.scope]
    rw [hscope]
    refine ⟨nofun, fun p hp q hq => ?_⟩
    rcases List.mem_cons.mp hp with rfl | hp
    · exact .inr (.inl (List.mem_singleton.mp hq))
    · cases List.mem_singleton.mp hp
      exact .inr (.inr (List.mem_singleton.mp hq))

variable {w : World}

theorem shared_globals : (.scope, w.store.scopes.size) ∈ (sourceRealm w).shared := .inl rfl

/-- No macro is defined among the global variables. -/
theorem macro_apart {s : Store} (hclosed : whole.Rules w.store) (hs : (sourceRealm w).Rules s) :
    ∀ m ∈ s.macros, (.scope, m.scope) ∉ (sourceRealm w).shared := by
  intro m hm hshared
  obtain ⟨i, hi⟩ := Array.getElem?_of_mem hm
  rcases Nat.lt_or_ge i w.store.macros.size with hlt | hge
  · have hold : w.store.macros[i]? = some w.store.macros[i] := Array.getElem?_eq_getElem hlt
    have hsame : s.macros[i]? = some w.store.macros[i] := hs.kept.macros hold
    rw [hi] at hsame
    cases hsame
    have hhome : w.store.macros[i].scope < w.store.scopes.size := (hclosed.macros i (Nat.zero_le _) _ hold).2
    have heq : w.store.macros[i].scope = w.store.scopes.size := by
      rcases hshared with h | h | h
      · exact congrArg Prod.snd h
      · cases h
      · cases h
    exact absurd heq (Nat.ne_of_lt hhome)
  · exact absurd ((sourceRealm w).taken hshared) (Nat.not_lt.mpr (hs.macros i hge m hi).1)

end documents

end Stencil.Templater
