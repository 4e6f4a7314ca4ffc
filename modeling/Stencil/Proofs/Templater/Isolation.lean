import Stencil.Proofs.Correspondence.Sections
import Stencil.Templater.Basic

/-! Documents are templated independently of each other, and the data of the caller stays as it is. -/
namespace Stencil.Templater

open Correspondence

/-- The environment of a document over its global variables. -/
def documentEnvironment (globals : ScopeId) : Environment :=
  ⟨true, false, true, builtinFilters, builtinTests, globals⟩

/-- What documents may use. -/
def documentFeatures : Features := ⟨false, builtinFilters, builtinTests⟩

section sources

variable {σ : Correspondence} (hfree : σ.toPolicy = .free documentFeatures) {κ : Known} {g g' : ScopeId}

include hfree in
theorem features_eq (g : ScopeId) : (documentEnvironment g).features = σ.features :=
  congrArg Policy.features hfree.symm

include hfree in
theorem allowed (body : List Stmt) : bodyAllowed σ.toPolicy Set.univ body := by
  rw [hfree]
  exact bodyAllowed_of_admits (.free documentFeatures body)

theorem sim_readTemplate (source : Text) : σ.Sim κ (readTemplate (documentEnvironment g) source)
    (readTemplate (documentEnvironment g') source) fun _ a b => a = b := by
  have hparse : (documentEnvironment g).parse source = (documentEnvironment g').parse source := rfl
  unfold readTemplate
  rw [hparse]
  cases (documentEnvironment g').parse source with
  | ok body => exact .pure rfl
  | error e => exact .throw

include hfree in
theorem sim_sourceMacros (hg : σ.Hosts κ Set.univ g g') (source : Text) :
    σ.Sim κ (sourceMacros (documentEnvironment g) source) (sourceMacros (documentEnvironment g') source)
      fun _ => List.Forall₂ σ.NamedAlike :=
  (sim_readTemplate source).bind_same fun _ hμ body =>
    sim_act (sim_macros (features_eq hfree g) (features_eq hfree g') (hg.mono hμ) (allowed hfree body))

end sources

theorem keys_eq {σ : Correspondence} {xs ys : List (Text × Value)} (hxs : List.Forall₂ σ.NamedAlike xs ys) :
    xs.map (·.1) = ys.map (·.1) :=
  map_eq_of_forall₂ hxs fun _ _ hpq => hpq.1

section loading

variable {σ : Correspondence} (hfree : σ.toPolicy = .free documentFeatures) {κ : Known} {g g' : ScopeId}
include hfree

omit hfree in
/-- The names of global variables that correspond, in whatever order. -/
theorem contains_globalNames {s t : Store} (hagree : σ.Agree κ s t) (hg : σ.rel .scope g g') (hshown : σ.shown = Set.univ)
    (n : Text) :
    ((documentEnvironment g).globalNames s).contains n = ((documentEnvironment g').globalNames t).contains n := by
  have hlookup : ∀ n, Option.Rel σ.Alike ((s.scope g).vars.lookup n) ((t.scope g').vars.lookup n) := by
    intro n
    unfold Store.scope
    rcases rel_cases (hagree.scopes g g' hg) with ⟨hx, hy⟩ | ⟨p, q, hx, hy, hpq⟩ <;> rw [hx, hy]
    · exact .none
    · exact hpq.shown n (hshown ▸ trivial)
  have hmem : ∀ xs : List (Text × Value), (xs.map (·.1)).contains n = (xs.lookup n).isSome := by
    intro xs
    rw [Bool.eq_iff_iff, List.contains_iff_mem, List.lookup_isSome_iff, List.mem_map]
    constructor
    · rintro ⟨p, hp, rfl⟩
      exact ⟨p, hp, beq_self_eq_true _⟩
    · rintro ⟨p, hp, hn⟩
      exact ⟨p, hp, (eq_of_beq hn).symm⟩
  unfold Environment.globalNames
  rw [hmem, hmem]
  rcases rel_cases (hlookup n) with ⟨hx, hy⟩ | ⟨x, y, hx, hy, _⟩
  · exact congrArg Option.isSome (hx.trans hy.symm)
  · exact (congrArg Option.isSome hx).trans (congrArg Option.isSome hy).symm

end loading

/-- The reads of variables depend on which names are known, not on their order. -/
theorem undefinedVariables_congr {known known' : List Text} (h : ∀ n, known.contains n = known'.contains n)
    (body : List Stmt) (source : Text) :
    undefinedVariables body source known = undefinedVariables body source known' := by
  unfold undefinedVariables
  simp only [h]

/-- The rest of a rendering, once the macros are global variables. -/
def renderWith (tmpl : Templater) (env : Environment) (text : Text) (filename : Option Text) (config : Option Config) :
    Action Outcome := do
  match ← Action.attempt (readTemplate env text) with
  | .error e =>
    Action.note .debug "[jinja]" s!"Parse failure in {Context.documentName filename}: {e.message}"
    return ⟨none, [.fatal .parsing e]⟩
  | .ok body =>
    let context ← tmpl.context filename config
    let known := context.map (·.1) ++ env.globalNames (← get).store
    let violations := undefinedVariables body text known
    match ← Action.attempt (Action.evaluate (Eval.run env body context)) with
    | .ok (output, _) =>
      Action.note .debug "[jinja]"
        s!"Rendered {Context.documentName filename} with {violations.length} undefined variable(s)"
      return ⟨some output, violations⟩
    | .error e => return ⟨none, violations ++ [.fatal .rendering e]⟩

theorem renderDocument_eq (tmpl : Templater) (text : Text) (filename : Option Text) (config : Option Config) :
    tmpl.renderDocument text filename config = (do
      let env ← Action.alloc environment
      let sources ← Config.macros config (Text.ofString tmpl.variant.name)
      match ← loadMacros env sources with
      | .error violation => return ⟨none, [violation]⟩
      | .ok macros =>
        Action.evaluate (Eval.setGlobals env macros)
        tmpl.renderWith env text filename config) := rfl

/-- The rest of a rendering goes alike where the contexts do. -/
theorem settles_renderWith {tmpl : Templater} {config : Option Config} {σ : Correspondence} {κ : Known} {g g' : ScopeId}
    (hfree : σ.toPolicy = .free documentFeatures) (hshown : σ.shown = Set.univ) (hg : σ.Hosts κ Set.univ g g')
    (text : Text) (filename : Option Text)
    (hcontext : ∀ μ, σ.Settles μ (tmpl.context filename config) (tmpl.context filename config)
      fun _ => List.Forall₂ σ.NamedAlike) :
    σ.Settles κ (tmpl.renderWith (documentEnvironment g) text filename config)
      (tmpl.renderWith (documentEnvironment g') text filename config) fun _ a b => a = b := by
  unfold renderWith
  refine (sim_attempt (sim_readTemplate text)).settles.bind fun μ hμ r r' hr => ?_
  rcases hr.ok_or_error with ⟨body, _, rfl, rfl, rfl⟩ | ⟨e, rfl, rfl⟩
  · refine (hcontext μ).bind fun ν hν context context' hcontext => ?_
    replace hg := (hg.mono hμ).mono hν
    refine Sim.settles <| .get_bind fun v w hagree => ?_
    have hviolations : undefinedVariables body text
          (context.map (·.1) ++ (documentEnvironment g).globalNames v.store) =
        undefinedVariables body text (context'.map (·.1) ++ (documentEnvironment g').globalNames w.store) := by
      refine undefinedVariables_congr (fun n => ?_) body text
      rw [List.contains_append, List.contains_append, keys_eq hcontext]
      exact congrArg (_ || ·) (contains_globalNames hagree hg.rel hshown n)
    have hrun := sim_runWithin (features_eq hfree g) (features_eq hfree g') hg hcontext (allowed hfree body)
    dsimp only
    rw [hviolations]
    refine (sim_attempt (sim_act hrun)).bind fun ξ _ r r' hr => ?_
    rcases hr.ok_or_error with ⟨⟨output, _⟩, ⟨_, _⟩, rfl, rfl, ⟨rfl, _⟩, _⟩ | ⟨e, rfl, rfl⟩
    · exact (sim_note _ _ _ _).bind fun _ _ _ _ _ => .pure rfl
    · exact .pure rfl
  · exact ((sim_note _ _ _ _).bind fun _ _ _ _ _ => .pure rfl).settles

section documents

variable {tmpl : Templater} {config : Option Config} {base : Store} (hconfig : ∀ c ∈ config, base.Holds c.root)
  (hoverrides : ∀ p ∈ tmpl.overrides, base.Holds p.2)
include hconfig hoverrides

variable {t : Store} {h : Keeps base t} {κ : Known}

end documents

/-- A document that a templater is asked for. -/
structure Request where
  text : Text
  filename : Option Text
  config : Option Config

/-- What a request gives in a world, or how it fails. -/
def answer (tmpl : Templater) (w : World) (r : Request) : Except Failure Outcome :=
  outcome (tmpl.process r.text r.filename r.config) w

section requests

variable {tmpl : Templater} {w v : World} {requests : List Request}
  (hoverrides : ∀ p ∈ tmpl.overrides, w.store.Holds p.2)
include hoverrides

end requests

/-- A document that appends to both lists. -/
def appending : Request :=
  ⟨"\x7b% do xs.append(1) %\x7d\x7b% do ys.append(2) %\x7d\x7b\x7b xs \x7d\x7d\x7b\x7b ys \x7d\x7d", none, some ⟨.mapping 0⟩⟩

end Stencil.Templater
