import Stencil.Proofs.Correspondence.Globals
import Stencil.Proofs.Templater.Outcomes

/-! Renderings with the macros of several sources, which all become global variables. -/

namespace Stencil.Templater

open Correspondence

/-- The macros of several sources, a later one winning over an earlier one of its name. -/
def gathered (found : List (List (Text × Value))) : List (Text × Value) :=
  found.flatten.foldl (fun macros (name, m) => assocSet name m macros) []

theorem nodup_gathered (found : List (List (Text × Value))) : ((gathered found).map (·.1)).Nodup :=
  nodup_assocSets found.flatten List.nodup_nil

theorem lookup_gathered (found : List (List (Text × Value))) (name : Text) :
    (gathered found).lookup name = found.flatten.reverse.lookup name :=
  (lookup_last found.flatten []).trans (Option.or_none)

/-- The macros of two sources without a common name are found in either order. -/
theorem lookup_gathered_swap {before after : List (List (Text × Value))} {xs ys : List (Text × Value)}
    (h : List.Disjoint (xs.map (·.1)) (ys.map (·.1))) (name : Text) :
    (gathered (before ++ xs :: ys :: after)).lookup name = (gathered (before ++ ys :: xs :: after)).lookup name := by
  have hreverse : List.Disjoint (ys.reverse.map (·.1)) (xs.reverse.map (·.1)) := by
    rw [List.map_reverse, List.map_reverse]
    exact fun n hn hn' => h (List.mem_reverse.mp hn') (List.mem_reverse.mp hn)
  have hparts : ∀ as bs : List (Text × Value), (before ++ as :: bs :: after).flatten.reverse.lookup name =
      (after.flatten.reverse.lookup name).or
        (((bs.reverse ++ as.reverse).lookup name).or (before.flatten.reverse.lookup name)) := by
    intro as bs
    simp only [List.flatten_append, List.flatten_cons, List.reverse_append, List.lookup_append, Option.or_assoc]
  rw [lookup_gathered, lookup_gathered, hparts, hparts, lookup_append_comm hreverse]

theorem rel_gathered {σ : Correspondence} {found found' : List (List (Text × Value))}
    (h : List.Forall₂ (List.Forall₂ σ.NamedAlike) found found') (name : Text) :
    Option.Rel σ.Alike ((gathered found).lookup name) ((gathered found').lookup name) := by
  rw [lookup_gathered, lookup_gathered]
  exact rel_lookup (List.rel_reverse (List.rel_flatten h)) name

/-- The note that macros were loaded. -/
def announce (macros : List (Text × Value)) : Action Unit :=
  if macros.isEmpty then return ⟨⟩
  else Action.note .debug "[jinja]" ("Loaded macros: " ++ ", ".intercalate (macros.map (·.1.toString)))

/-- A rendering with the macros of several sources. -/
def renderLoaded (tmpl : Templater) (env : Environment) (text : Text) (filename : Option Text) (config : Option Config)
    (found : List (List (Text × Value))) : Action Outcome := do
  announce (gathered found)
  Action.evaluate (Eval.setGlobals env (gathered found))
  tmpl.renderWith env text filename config

theorem sim_announce {σ : Correspondence} {κ : Known} (macros macros' : List (Text × Value)) :
    σ.Sim κ (announce macros) (announce macros') fun _ _ _ => True := by
  intro v w hagree
  unfold announce
  split <;> split <;> exact ⟨κ, le_refl κ, hagree, trivial⟩

theorem settles_renderLoaded {tmpl : Templater} {config : Option Config} {σ : Correspondence} {κ : Known} {g g' : ScopeId}
    (hfree : σ.toPolicy = .free documentFeatures) (hshown : σ.shown = Set.univ) (houter : σ.outer = {g})
    (hg : σ.Hosts κ Set.univ g g') (text : Text) (filename : Option Text)
    (hcontext : ∀ μ, σ.Settles μ (tmpl.context filename config) (tmpl.context filename config)
      fun _ => List.Forall₂ σ.NamedAlike) {found found' : List (List (Text × Value))}
    (hfound : ∀ n, Option.Rel σ.Alike ((gathered found).lookup n) ((gathered found').lookup n)) :
    σ.Settles κ (tmpl.renderLoaded (documentEnvironment g) text filename config found)
      (tmpl.renderLoaded (documentEnvironment g') text filename config found') fun _ a b => a = b := by
  refine (sim_announce _ _).settles.bind fun μ hμ _ _ _ => ?_
  refine (sim_act (sim_setReordered houter hshown hg.rel (nodup_gathered found) (nodup_gathered found') hfound rfl
    rfl)).settles.bind fun ν hν _ _ _ => ?_
  exact settles_renderWith hfree hshown ((hg.mono hμ).mono hν) text filename hcontext

section renderings

variable {tmpl : Templater} {w v : World} {config : Option Config} {sources : List (Text × Text)}
  {found : List (List (Text × Value))}

/-- A step of loading: no violation yet, and the macros with those of one more source. -/
def loadStep (state : Option (Except Violation (List (Text × Value))) × List (Text × Value)) (xs : List (Text × Value)) :
    Option (Except Violation (List (Text × Value))) × List (Text × Value) :=
  (none, xs.foldl (fun loaded (name, m) => assocSet name m loaded) state.2)

theorem foldl_loadStep (found : List (List (Text × Value))) (loaded : List (Text × Value)) :
    found.foldl loadStep (none, loaded) =
      (none, found.flatten.foldl (fun loaded (name, m) => assocSet name m loaded) loaded) := by
  induction found generalizing loaded with
  | nil => rfl
  | cons xs found ih =>
    rw [List.foldl_cons, List.flatten_cons, List.foldl_append]
    exact ih _

/-- Sources that load are gathered. -/
theorem loadMacros_eq {env : Environment} (h : (sources.mapM fun p => sourceMacros env p.2) w = .ok found v) :
    ∃ u, announce (gathered found) v = .ok ⟨⟩ u ∧ loadMacros env sources w = .ok (.ok (gathered found)) u := by
  have hgathered : found.foldl loadStep (none, []) = (none, gathered found) := foldl_loadStep found []
  unfold loadMacros
  rw [bind_ok (forIn_eq (f := loadStep) ?_ h (none, [])), hgathered]
  · unfold announce
    dsimp only
    cases (gathered found).isEmpty with
    | true => exact ⟨v, rfl, rfl⟩
    | false => exact ⟨_, rfl, rfl⟩
  · rintro ⟨entry, source⟩ xs ⟨early, loaded⟩ w v hsource
    have hattempt : Action.attempt (sourceMacros env source) w = .ok (.ok xs) v := by
      rw [Action.attempt_eq]
      dsimp only at hsource
      rw [hsource]
    exact bind_ok hattempt

/-- A document whose sources load is rendered with their macros. -/
theorem process_eq (hvariant : tmpl.variant = .jinja) (text : Text) (filename : Option Text)
    (hsources : Config.macros config (Text.ofString tmpl.variant.name) (opening w).2 = .ok sources (opening w).2)
    (hfound : (sources.mapM fun p => sourceMacros (opening w).1 p.2) (opening w).2 = .ok found v) :
    tmpl.process text filename config w = tmpl.renderLoaded (opening w).1 text filename config found v := by
  obtain ⟨u, hannounce, hload⟩ := loadMacros_eq hfound
  have hprocess : tmpl.process text filename config = tmpl.renderDocument text filename config := by
    unfold process
    rw [hvariant]
  have hopen : Action.alloc environment w = .ok (opening w).1 (opening w).2 := rfl
  rw [hprocess, renderDocument_eq, bind_ok hopen, bind_ok hsources, bind_ok hload]
  unfold renderLoaded
  rw [bind_ok hannounce]

end renderings

section congruence

variable {tmpl : Templater} {config config' : Option Config} {filename : Option Text} {v : World}

theorem renderWith_congr (h : tmpl.context filename config v = tmpl.context filename config' v) (env : Environment)
    (text : Text) : tmpl.renderWith env text filename config v = tmpl.renderWith env text filename config' v := by
  have hread : ∃ r, Action.attempt (readTemplate env text) v = .ok r v := by
    rw [Action.attempt_eq]
    unfold readTemplate
    cases env.parse text with
    | ok body => exact ⟨_, rfl⟩
    | error e => exact ⟨_, rfl⟩
  obtain ⟨r, hr⟩ := hread
  unfold renderWith
  rw [bind_ok hr, bind_ok hr]
  cases r with
  | ok body => exact bind_congr_of_eq h
  | error e => rfl

/-- Configurations that give the same context render alike. -/
theorem renderLoaded_congr {base : Store} (hkeeps : Keeps base v.store)
    (h : ∀ u : World, Keeps base u.store → tmpl.context filename config u = tmpl.context filename config' u)
    (env : Environment) (text : Text) (found : List (List (Text × Value))) :
    tmpl.renderLoaded env text filename config found v = tmpl.renderLoaded env text filename config' found v := by
  have hannounce : ∃ u, announce (gathered found) v = .ok ⟨⟩ u ∧ u.store = v.store := by
    unfold announce
    split
    · exact ⟨v, rfl, rfl⟩
    · exact ⟨_, rfl, rfl⟩
  obtain ⟨u, hu, hstore⟩ := hannounce
  have hset : Action.evaluate (Eval.setGlobals env (gathered found)) u =
      .ok ⟨⟩ { u with store := u.store.setVars env.globals (gathered found) } := by
    rw [Action.evaluate_eq, setGlobals_eq]
  unfold renderLoaded
  rw [bind_ok hu, bind_ok hu, bind_ok hset, bind_ok hset]
  refine renderWith_congr (h _ ?_) env text
  rw [← hstore] at hkeeps
  exact { hkeeps with }

end congruence

end Stencil.Templater
