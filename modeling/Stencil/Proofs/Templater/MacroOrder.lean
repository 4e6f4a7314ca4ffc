import Stencil.Proofs.Correspondence.Contexts
import Stencil.Proofs.Templater.GatheredMacros
import Stencil.Proofs.Templater.SourceRealm

/-!
The macro sources of a configuration can stand in any order and under any keys: a document has the same output and the
same violations, if the sources can be loaded and no two of them define macros of one name.
-/

namespace Stencil.Templater

open Correspondence Realm

/-! ## Two sources in the other order -/

/-- Two stores in which macros were loaded for a document correspond, with the global variables in whatever order. -/
structure Interchange (w : World) (σ : Correspondence) (κ : Known) (s t : Store) : Prop where
  agree : σ.Agree κ s t
  free : σ.toPolicy = .free documentFeatures
  shown : σ.shown = Set.univ
  outer : σ.outer = {w.store.scopes.size}
  hosts : σ.Hosts κ Set.univ w.store.scopes.size w.store.scopes.size
  level : ∀ {μ s' t'}, σ.Agree μ s' t' → s'.depth = t'.depth
  self : ∀ v, whole.Owns w.store v → σ.Alike v v

section interchange

variable {w : World} {tmpl : Templater} {config : Option Config}

/-- Where two sources changed places, the stores correspond. -/
theorem interchange_of_crossing {v a b s t : World} (hv : (sourceRealm w).Rules v.store)
    (h : ((sourceRealm w).later hv.kept).Crossing documentFeatures a.store b.store s.store t.store) :
    Interchange w (h.correspondence.hosting w.store.scopes.size)
      (((sourceRealm w).later hv.kept).unshared s.store) s.store t.store where
  agree := by
    refine h.agree.hosting rfl rfl ?_
    exact ((sourceRealm w).later hv.kept).taken shared_globals |>.trans_le
      ((h.first.kept.trans h.then_second.kept).taken_le .scope)
  free := rfl
  shown := rfl
  outer := rfl
  hosts := hosts_hosting (h.refines_shared shared_globals) subset_rfl
  level {μ s' t'} hagree := by
    have htaken : ∀ x, s'.taken x = t'.taken x := fun x => eq_of_exchanged (h.first.grows x) (hagree.fresh x)
    have hlists : s'.lists.size = t'.lists.size := htaken .list
    have hmappings : s'.mappings.size = t'.mappings.size := htaken .mapping
    have htables : s'.tables.size = t'.tables.size := htaken .table
    rw [Store.depth, Store.depth, hlists, hmappings, htables]
  self x hx := by
    have hgrows : w.store.Grows v.store := (opening_grows w).trans hv.grows
    exact h.refines_old.alike (hx.mono hgrows) (alike_self fun _ _ => trivial)

/-- Documents are rendered alike with the same macros in stores that correspond. -/
theorem Interchange.outcome_eq {σ : Correspondence} {κ : Known} {v v' : World}
    (h : Interchange w σ κ v.store v'.store) (hoverrides : ∀ p ∈ tmpl.overrides, whole.Owns w.store p.2)
    (hconfig : ∀ c ∈ config, whole.Owns w.store c.root) (text : Text) (filename : Option Text)
    {found found' : List (List (Text × Value))}
    (hfound : ∀ n, Option.Rel σ.Alike ((gathered found).lookup n) ((gathered found').lookup n)) :
    outcome (tmpl.renderLoaded (opening w).1 text filename config found) v =
      outcome (tmpl.renderLoaded (opening w).1 text filename config found') v' := by
  have hcontext : ∀ μ, σ.Settles μ (tmpl.context filename config) (tmpl.context filename config)
      fun _ => List.Forall₂ σ.NamedAlike := fun _ =>
    (sim_context h.level (fun c hc => h.self _ (hconfig c hc)) (fun p hp => h.self _ (hoverrides p hp)) _ _).settles
  exact (settles_renderLoaded h.free h.shown h.outer h.hosts text filename hcontext hfound).outcome_eq h.agree

/-- Where two sources change places, the stores correspond, and so do the macros. -/
theorem exists_interchange {v : World} (hclosed : whole.Rules w.store) {before after : List Text} {first second : Text}
    {found : List (List (Text × Value))}
    (h : (before ++ first :: second :: after).mapM (sourceMacros (opening w).1) (opening w).2 = .ok found v) :
    ∃ earlier xs ys later found' v' σ κ, found = earlier ++ xs :: ys :: later ∧
      (before ++ second :: first :: after).mapM (sourceMacros (opening w).1) (opening w).2 = .ok found' v' ∧
      Interchange w σ κ v.store v'.store ∧
      List.Forall₂ (List.Forall₂ σ.NamedAlike) (earlier ++ ys :: xs :: later) found' := by
  simp only [List.mapM_append, List.mapM_cons, bind_assoc, pure_bind] at h
  obtain ⟨earlier, u, hbefore, h⟩ := exists_of_bind_ok h
  obtain ⟨xs, a, hfirst, h⟩ := exists_of_bind_ok h
  obtain ⟨ys, s, hsecond, h⟩ := exists_of_bind_ok h
  obtain ⟨later, s', hafter, h⟩ := exists_of_bind_ok h
  cases h
  obtain ⟨hu, -, -⟩ := mapM_within (ρ := sourceRealm w) (.inr shared_globals) (rules_start _) hbefore
  have hglobals : whole.Has (opening w).2.store (.scope, w.store.scopes.size) :=
    has_whole (Rules.lt_size_push w.store.scopes _)
  obtain ⟨hwhole, -, hearlier⟩ := mapM_within hglobals (whole_opening hclosed) hbefore
  obtain ⟨ys', b, xs', t, hsecond', hfirst', hcrossing, hxs, hys⟩ :=
    exists_crossing shared_globals hu hwhole (macro_apart hclosed hu) hfirst hsecond
  have hchange := interchange_of_crossing hu hcrossing
  have hsources : (hcrossing.correspondence.hosting w.store.scopes.size).Sim _ (after.mapM (sourceMacros (opening w).1))
      (after.mapM (sourceMacros (opening w).1)) _ :=
    Sim.mapM_same fun μ hμ source _ => sim_sourceMacros hchange.free (hchange.hosts.mono hμ) source
  obtain ⟨later', t', hafter', κ, hκ, hagree, hlater⟩ := hsources.exists_of_ok hchange.agree hafter
  refine ⟨earlier, xs, ys, later, earlier ++ ys' :: xs' :: later', t', _, κ, rfl, ?_,
    { hchange with agree := hagree, hosts := hchange.hosts.mono hκ }, ?_⟩
  · simp only [List.mapM_append, List.mapM_cons, bind_assoc, pure_bind]
    change sourceMacros (opening w).1 second u = _ at hsecond'
    change sourceMacros (opening w).1 first b = _ at hfirst'
    rw [bind_ok hbefore, bind_ok hsecond', bind_ok hfirst', bind_ok hafter']
    rfl
  · refine List.rel_append ?_ (.cons hys (.cons hxs hlater))
    refine List.forall₂_same.mpr fun zs hzs => ?_
    exact hcrossing.refines_old.named (hearlier zs hzs) (named_self fun _ _ _ _ => trivial)

end interchange

/-! ## The sources in any order -/

/-- The sources can be loaded one after the other, and no two of them define macros of one name. -/
def LoadsApart (sources : List Text) (w : World) : Prop :=
  ∃ found v, sources.mapM (sourceMacros (opening w).1) (opening w).2 = .ok found v ∧
    (found.map fun xs => xs.map (·.1)).Pairwise List.Disjoint

/-- What a document gives with the macros of some sources. -/
def rendering (tmpl : Templater) (text : Text) (filename : Option Text) (config : Option Config) (w : World)
    (sources : List Text) : Except Failure Outcome :=
  outcome (do
    let found ← sources.mapM (sourceMacros (opening w).1)
    tmpl.renderLoaded (opening w).1 text filename config found) (opening w).2

theorem rendering_eq {tmpl : Templater} {text : Text} {filename : Option Text} {config : Option Config} {w v : World}
    {sources : List Text} {found : List (List (Text × Value))}
    (h : sources.mapM (sourceMacros (opening w).1) (opening w).2 = .ok found v) :
    tmpl.rendering text filename config w sources =
      outcome (tmpl.renderLoaded (opening w).1 text filename config found) v := by
  unfold rendering outcome
  rw [bind_ok h]

section orders

variable {w : World} {tmpl : Templater} {config : Option Config} (hclosed : whole.Rules w.store)
  (hoverrides : ∀ p ∈ tmpl.overrides, whole.Owns w.store p.2) (hconfig : ∀ c ∈ config, whole.Owns w.store c.root)
  (text : Text) (filename : Option Text)
include hclosed hoverrides hconfig

/-- Two neighbouring sources can change places. -/
theorem rendering_swap {before after : List Text} {first second : Text}
    (h : LoadsApart (before ++ first :: second :: after) w) : LoadsApart (before ++ second :: first :: after) w ∧
      tmpl.rendering text filename config w (before ++ first :: second :: after) =
        tmpl.rendering text filename config w (before ++ second :: first :: after) := by
  obtain ⟨found, v, hfound, hapart⟩ := h
  obtain ⟨earlier, xs, ys, later, found', v', σ, κ, rfl, hfound', hchange, halike⟩ := exists_interchange hclosed hfound
  have hnames : ((earlier ++ ys :: xs :: later).map fun zs => zs.map (·.1)) = found'.map fun zs => zs.map (·.1) :=
    map_eq_of_forall₂ halike fun _ _ hzs => keys_eq hzs
  have hperm : (earlier ++ xs :: ys :: later).Perm (earlier ++ ys :: xs :: later) :=
    (List.Perm.swap ys xs later).append_left earlier
  have hdisjoint : List.Disjoint (xs.map (·.1)) (ys.map (·.1)) := by
    rw [List.map_append, List.map_cons, List.map_cons] at hapart
    exact (List.pairwise_cons.mp (List.pairwise_append.mp hapart).2.1).1 _ List.mem_cons_self
  refine ⟨⟨found', v', hfound', ?_⟩, ?_⟩
  · rw [← hnames]
    exact (hperm.map _).pairwise hapart fun hzs => hzs.symm
  · rw [rendering_eq hfound, rendering_eq hfound']
    refine hchange.outcome_eq hoverrides hconfig text filename fun n => ?_
    rw [lookup_gathered_swap hdisjoint]
    exact rel_gathered halike n

/-- The sources can be loaded in any order. -/
theorem rendering_perm {sources sources' : List Text} (hperm : sources.Perm sources') (h : LoadsApart sources w) :
    LoadsApart sources' w ∧
      tmpl.rendering text filename config w sources = tmpl.rendering text filename config w sources' := by
  have hbehind : ∀ before, LoadsApart (before ++ sources) w → LoadsApart (before ++ sources') w ∧
      tmpl.rendering text filename config w (before ++ sources) =
        tmpl.rendering text filename config w (before ++ sources') := by
    clear h
    induction hperm with
    | nil => exact fun _ h => ⟨h, rfl⟩
    | cons source _ ih =>
      intro before
      have hrest := ih (before ++ [source])
      rwa [← List.append_cons, ← List.append_cons] at hrest
    | swap first second sources =>
      exact fun before h => rendering_swap hclosed hoverrides hconfig text filename h
    | trans _ _ ih ih' =>
      intro before h
      obtain ⟨h', heq⟩ := ih before h
      obtain ⟨h'', heq'⟩ := ih' before h'
      exact ⟨h'', heq.trans heq'⟩
  exact hbehind [] h

end orders

/-! ## Configurations that are read later -/

section reading

variable {base s : Store} {v : Value} (hclosed : whole.Rules base) (h : Keeps base s)
include hclosed h

theorem child_eq (hv : whole.Owns base v) (key : Text) :
    s.child v key = base.child v key ∧ whole.Owns base (base.child v key) := by
  cases v with
  | mapping id =>
    unfold Store.child
    dsimp only
    rw [h.mapping hv.mapping.2]
    refine ⟨rfl, ?_⟩
    cases hget : (base.mapping id).get? key with
    | none => exact owns_absent
    | some slot => exact hclosed.mapping hv _ (Store.mem_of_get? hget)
  | _ => exact ⟨rfl, owns_absent⟩

theorem valueAt_eq (path : List Text) (hv : whole.Owns base v) :
    path.foldl s.child v = path.foldl base.child v ∧ whole.Owns base (path.foldl base.child v) := by
  induction path generalizing v with
  | nil => exact ⟨rfl, hv⟩
  | cons key path ih =>
    obtain ⟨heq, hchild⟩ := child_eq hclosed h hv key
    rw [List.foldl_cons, List.foldl_cons, heq]
    exact ih hchild

omit hclosed in
theorem recordEntries?_eq (hv : whole.Owns base v) : s.recordEntries? v = base.recordEntries? v := by
  cases v with
  | mapping id => exact congrArg some (h.entriesOf_mapping hv.mapping.2)
  | _ => rfl

end reading

section configurations

variable {w v : World} {config config' : Option Config} (hclosed : whole.Rules w.store)
  (hconfig : ∀ c ∈ config, whole.Owns w.store c.root) (hkeeps : Keeps w.store v.store)

/-- What an action reads in a world it reads in another as well, and it changes nothing. -/
def Rereads {α : Type} (x : Action α) (w v : World) : Prop :=
  x v = match outcome x w with
    | .ok a => .ok a v
    | .error e => .error e v

theorem Rereads.eq {α : Type} {x y : Action α} (hx : Rereads x w v) (hy : Rereads y w v)
    (h : outcome x w = outcome y w) : x v = y v := by
  unfold Rereads at hx hy
  rw [hx, hy, h]

theorem Rereads.ok {α : Type} {x : Action α} {a : α} (hx : Rereads x w v) (h : outcome x w = .ok a) : x v = .ok a v := by
  unfold Rereads at hx
  rw [hx, h]

theorem Rereads.map {α β : Type} {x : Action α} (hx : Rereads x w v) (f : α → β) :
    Rereads (do return f (← x)) w v := by
  unfold Rereads outcome at hx ⊢
  cases hrun : x w with
  | ok a u =>
    rw [hrun] at hx
    rw [bind_ok hx, bind_ok hrun]
    rfl
  | error e u =>
    rw [hrun] at hx
    rw [bind_error hx, bind_error hrun]

include hclosed hconfig hkeeps

theorem rereads_entries (variant : Text) (part : Section) (check : Value → Option SectionProblem) :
    Rereads (Config.entries config variant part check) w v := by
  have hvalue : Config.sectionValue v.store config variant part = Config.sectionValue w.store config variant part ∧
      whole.Owns w.store (Config.sectionValue w.store config variant part) := by
    cases config with
    | none => exact ⟨rfl, owns_absent⟩
    | some c => exact valueAt_eq hclosed hkeeps _ (hconfig c rfl)
  have hentries := recordEntries?_eq hkeeps hvalue.2
  have hissues : Config.issuesOf v.store check (Config.sectionValue w.store config variant part) =
      Config.issuesOf w.store check (Config.sectionValue w.store config variant part) := by
    unfold Config.issuesOf
    rw [hentries]
  unfold Rereads outcome
  rw [Config.entries_eq, Config.entries_eq, hvalue.1]
  dsimp only
  rw [hissues, hentries]
  split
  · rfl
  · split <;> rfl

theorem rereads_context (variant : Text) : Rereads (Config.context config variant) w v :=
  rereads_entries hclosed hconfig hkeeps variant .context _

theorem rereads_macros (variant : Text) : Rereads (Config.macros config variant) w v := by
  unfold Config.macros
  exact (rereads_entries hclosed hconfig hkeeps variant .macros _).map _

end configurations

/-- The order of the macro sources does not matter, nor do their keys: two configurations with the same variables, and
with the same sources that load and define no name twice, give the same output and the same violations. -/
theorem process_eq_of_perm {t : Templater} (hvariant : t.variant = .jinja) {w : World} {config config' : Option Config}
    (hclosed : whole.Rules w.store) (hoverrides : ∀ p ∈ t.overrides, whole.Owns w.store p.2)
    (hconfig : ∀ c ∈ config, whole.Owns w.store c.root) (hconfig' : ∀ c ∈ config', whole.Owns w.store c.root)
    {sources sources' : List (Text × Text)}
    (hsources : outcome (Config.macros config (Text.ofString t.variant.name)) w = .ok sources)
    (hsources' : outcome (Config.macros config' (Text.ofString t.variant.name)) w = .ok sources')
    (hperm : (sources.map (·.2)).Perm (sources'.map (·.2))) (hloads : LoadsApart (sources.map (·.2)) w)
    (hcontext : outcome (Config.context config (Text.ofString t.variant.name)) w =
      outcome (Config.context config' (Text.ofString t.variant.name)) w) (text : Text) (filename : Option Text) :
    outcome (t.process text filename config) w = outcome (t.process text filename config') w := by
  -- the sources in the order of either configuration
  obtain ⟨hloads', hreordered⟩ := rendering_perm hclosed hoverrides hconfig text filename hperm hloads
  obtain ⟨found, v, hfound, -⟩ := hloads
  obtain ⟨found', v', hfound', -⟩ := hloads'
  rw [rendering_eq hfound, rendering_eq hfound'] at hreordered
  have hprocess : outcome (t.process text filename config) w =
      outcome (t.renderLoaded (opening w).1 text filename config found) v := by
    rw [List.mapM_map] at hfound
    unfold outcome
    rw [process_eq hvariant text filename ((rereads_macros hclosed hconfig (keeps_opening w) _).ok hsources) hfound]
  have hprocess' : outcome (t.process text filename config') w =
      outcome (t.renderLoaded (opening w).1 text filename config' found') v' := by
    rw [List.mapM_map] at hfound'
    unfold outcome
    rw [process_eq hvariant text filename ((rereads_macros hclosed hconfig' (keeps_opening w) _).ok hsources') hfound']
  -- the variables, once the macros were loaded
  obtain ⟨hv', -, -⟩ := mapM_within (ρ := sourceRealm w) (.inr shared_globals) (rules_start _) hfound'
  have hkeeps : Keeps w.store v'.store := (keeps_opening w).trans hv'.kept.toKeeps
  have hsame : ∀ u : World, Keeps w.store u.store → t.context filename config u = t.context filename config' u := by
    intro u hu
    exact bind_congr_of_eq
      ((rereads_context hclosed hconfig hu _).eq (rereads_context hclosed hconfig' hu _) hcontext)
  have hvariables := renderLoaded_congr hkeeps hsame (opening w).1 text found'
  rw [hprocess, hprocess', hreordered]
  unfold outcome
  rw [hvariables]

/-- A macro that calls another. -/
def bracketing : Text := "\x7b% macro p(n) %\x7d[\x7b\x7b q(n) \x7d\x7d]\x7b% endmacro %\x7d"

/-- The macro that is called. -/
def angling : Text := "\x7b% macro q(n) %\x7d<\x7b\x7b n \x7d\x7d>\x7b% endmacro %\x7d"

/-- Two configurations with one context section. Their sources stand in different orders, under different keys. -/
def callingMacros : World :=
  ⟨{ Store.empty with
      mappings := #[[("templater", .data (.mapping 1))], [("jinja", .data (.mapping 2))],
        [("context", .data (.mapping 3)), ("macros", .data (.mapping 4))], [("x", .data (.text "a"))],
        [("f", .data (.text bracketing)), ("g", .data (.text angling))],
        [("templater", .data (.mapping 6))], [("jinja", .data (.mapping 7))],
        [("context", .data (.mapping 3)), ("macros", .data (.mapping 8))],
        [("1", .data (.text angling)), ("2", .data (.text bracketing))]] }, []⟩

theorem callingMacros_closed : whole.Rules callingMacros.store := by
  have hvalues : ∀ ps ∈ callingMacros.store.mappings.toList, ∀ p ∈ ps, ∀ q ∈ p.2.value.places,
      q.2 < callingMacros.store.taken q.1 := by decide
  refine
    { kept := ⟨.empty _, nofun, nofun⟩
      lists := fun i _ vs hvs => nomatch hvs
      mappings := fun i _ ps hps p hp q hq => has_whole ?_
      tables := fun i _ es hes => nomatch hes
      scopes := fun i _ x hx => nomatch hx
      macros := fun i _ m hm => nomatch hm }
  exact hvalues ps (Array.mem_toList_iff.mpr (Array.mem_of_getElem? hps)) p hp q hq

theorem callingMacros_loads : LoadsApart [bracketing, angling] callingMacros := by
  have hrun : passes (fun found => found.map (fun xs => xs.map (·.1)) = [[Text.ofString "p"], [Text.ofString "q"]])
      (outcome ([bracketing, angling].mapM (sourceMacros (opening callingMacros).1)) (opening callingMacros).2) = true := by
    decide +kernel
  obtain ⟨found, v, h, hnames⟩ := exists_of_passes hrun
  refine ⟨found, v, h, ?_⟩
  rw [of_decide_eq_true hnames]
  refine List.pairwise_pair.mpr fun n hn hn' => ?_
  rw [List.mem_singleton.mp hn] at hn'
  exact absurd hn' (by decide)

theorem process_eq_of_perm_of_callingMacros :
    outcome ((⟨.jinja, [("y", .text "b")]⟩ : Templater).process "\x7b\x7b p(x) \x7d\x7d\x7b\x7b y \x7d\x7d" none
      (some ⟨.mapping 0⟩)) callingMacros = .ok ⟨some "[<a>]b", []⟩ ∧
    outcome ((⟨.jinja, [("y", .text "b")]⟩ : Templater).process "\x7b\x7b p(x) \x7d\x7d\x7b\x7b y \x7d\x7d" none
      (some ⟨.mapping 5⟩)) callingMacros = .ok ⟨some "[<a>]b", []⟩ := by
  have hrun : passes (fun o => o = ⟨some "[<a>]b", []⟩) (outcome ((⟨.jinja, [("y", .text "b")]⟩ : Templater).process
      "\x7b\x7b p(x) \x7d\x7d\x7b\x7b y \x7d\x7d" none (some ⟨.mapping 0⟩)) callingMacros) = true := by decide +kernel
  obtain ⟨o, v, h, ho⟩ := exists_of_passes hrun
  cases of_decide_eq_true ho
  have hoverrides : ∀ p ∈ (⟨.jinja, [("y", .text "b")]⟩ : Templater).overrides, whole.Owns callingMacros.store p.2 := by
    intro p hp
    cases List.mem_singleton.mp hp
    exact owns_text _
  have hroot : ∀ id < 9, whole.Owns callingMacros.store (.mapping id) := by
    intro id hid p hp
    cases List.mem_singleton.mp hp
    exact has_whole hid
  have hsources : outcome (Config.macros (some ⟨.mapping 0⟩) (Text.ofString "jinja")) callingMacros =
      .ok [("f", bracketing), ("g", angling)] := rfl
  have hsources' : outcome (Config.macros (some ⟨.mapping 5⟩) (Text.ofString "jinja")) callingMacros =
      .ok [("1", angling), ("2", bracketing)] := rfl
  have hsame := process_eq_of_perm (t := ⟨.jinja, [("y", .text "b")]⟩) rfl callingMacros_closed hoverrides
    (fun c hc => Option.some.inj hc ▸ hroot 0 (by decide)) (fun c hc => Option.some.inj hc ▸ hroot 5 (by decide))
    hsources hsources' (.swap angling bracketing []) callingMacros_loads rfl
    "\x7b\x7b p(x) \x7d\x7d\x7b\x7b y \x7d\x7d" none
  exact ⟨outcome_eq_ok h, hsame.symm.trans (outcome_eq_ok h)⟩

end Stencil.Templater
