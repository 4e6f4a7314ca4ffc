import Stencil.Proofs.Correspondence.Sections

/-! Contexts that are built in stores of one size, from whatever the caller gives. -/
namespace Stencil.Correspondence

variable {σ : Correspondence} {κ : Known} {v w : Value}

namespace Agree

variable {s t : Store} (h : σ.Agree κ s t) (hvw : σ.Alike v w)
include h hvw

theorem child (key : Text) : σ.Alike (s.child v key) (t.child w key) := by
  cases hvw with
  | mapping hij =>
    unfold Store.child
    dsimp only
    rcases rel_cases (rel_get? (h.mapping hij) key) with ⟨hx, hy⟩ | ⟨x, y, hx, hy, hxy⟩ <;> rw [hx, hy]
    · exact .absent
    · exact hxy.value
  | _ => exact .absent

theorem valueAt (path : List Text) : σ.Alike (path.foldl s.child v) (path.foldl t.child w) := by
  induction path generalizing v w with
  | nil => exact hvw
  | cons key path ih => exact ih (h.child hvw key)

end Agree

/-- The variables of a configuration are alike on both sides. -/
theorem sim_configContext {config : Option Config} (hconfig : ∀ c ∈ config, σ.Alike c.root c.root) (variant : Text) :
    σ.Sim κ (Config.context config variant) (Config.context config variant) fun _ => List.Forall₂ σ.NamedAlike := by
  unfold Config.context Config.entries
  refine .get_bind fun v w hagree => ?_
  have hvalue : σ.Alike ((config.map (Config.valueAt v.store · (Config.sectionPath variant .context))).getD .absent)
      ((config.map (Config.valueAt w.store · (Config.sectionPath variant .context))).getD .absent) := by
    cases config with
    | none => exact .absent
    | some c => exact Agree.valueAt hagree (hconfig c rfl) _
  dsimp only
  revert hvalue
  generalize (config.map (Config.valueAt v.store · (Config.sectionPath variant .context))).getD .absent = x
  generalize (config.map (Config.valueAt w.store · (Config.sectionPath variant .context))).getD .absent = y
  intro hvalue
  cases hvalue with
  | absent => exact .pure .nil
  | mapping hij =>
    have hentries := Agree.entriesOf hagree (.mapping hij)
    simp only [Store.recordEntries?, Option.map_none, List.filterMap_none]
    exact .pure (forall₂_dropKeyword hentries reservedKey)
  | foreign _ => exact .pure .nil
  | _ => exact fun _ _ hagree => ⟨rfl, κ, le_refl κ, hagree⟩

/-- Values that are alike are copied alike, to one depth. -/
theorem sim_copyAlike : ∀ (n : Nat) {κ : Known} {v w : Value}, σ.Alike v w →
    σ.Sim κ (Eval.copyWithin n v) (Eval.copyWithin n w) fun _ => σ.Alike
  | 0, _, _, _, _ => .throw
  | n + 1, κ, v, w, hvw => by
    have hsame := hvw
    unfold Eval.copyWithin
    cases hvw with
    | list hij =>
      refine (sim_list hij).bind fun μ _ xs ys hxs => ?_
      refine Sim.bind (P := fun _ => List.Forall₂ σ.Alike) ?_ fun _ _ _ _ hcs => sim_newList hcs
      exact .mapM hxs fun _ _ _ _ hxy => sim_copyAlike n hxy
    | mapping hij =>
      refine (sim_read (Q := fun _ => List.Forall₂ σ.NamedAlike) fun _ _ hagree =>
        hagree.entriesOf (.mapping hij)).bind fun μ _ ps qs hps => ?_
      refine Sim.bind (P := fun _ => List.Forall₂ σ.NamedAlike) ?_ fun ν _ xs ys hxs => ?_
      · refine .mapM hps fun _ _ p q hpq => ?_
        exact (sim_copyAlike n hpq.2).bind fun _ _ _ _ hxy => .pure ⟨hpq.1, hxy⟩
      · dsimp only
        rw [any_compound_eq hxs]
        split
        · exact sim_alloc fun _ _ hagree => hagree.newForeign
        · exact sim_mappingOf (forall₂_dropKeyword hxs reservedKey)
    | table hij =>
      refine (sim_read (Q := fun _ => List.Forall₂ σ.EntryAlike) fun _ _ hagree => hagree.table hij).bind
        fun μ _ ds es hds => ?_
      refine Sim.bind (P := fun _ => List.Forall₂ σ.EntryAlike) ?_
        fun _ _ _ _ hes => sim_alloc fun _ _ hagree => hagree.newTable hes
      refine .mapM hds fun _ _ d e hde => ?_
      exact (sim_copyAlike n hde.2).bind fun _ _ _ _ hxy => .pure ⟨hde.1, hxy⟩
    | _ => exact .pure hsame

section level

variable (hlevel : ∀ {κ s t}, σ.Agree κ s t → s.depth = t.depth)
include hlevel

theorem sim_copy (hvw : σ.Alike v w) : σ.Sim κ (Eval.copy v) (Eval.copy w) fun _ => σ.Alike := by
  refine (sim_read (Q := fun _ m n => m = n) fun _ _ hagree => hlevel hagree).bind ?_
  rintro μ _ n _ rfl
  exact sim_copyAlike n hvw

theorem sim_configured (hvw : σ.Alike v w) :
    σ.Sim κ (Context.configured v) (Context.configured w) fun _ => σ.Alike := by
  have hcopy : σ.Sim κ (Action.evaluate (Eval.copy v)) (Action.evaluate (Eval.copy w)) fun _ => σ.Alike :=
    sim_act (sim_copy hlevel hvw)
  cases hvw with
  | text u => exact sim_build (Literal.infer u)
  | _ => exact hcopy

/-- A context is built alike from what stands for itself. -/
theorem sim_context {config : Option Config} (hconfig : ∀ c ∈ config, σ.Alike c.root c.root) {overrides : Context}
    (hoverrides : ∀ p ∈ overrides, σ.Alike p.2 p.2) (variant : Text) (filename : Option Text) :
    σ.Sim κ (Context.build variant overrides filename config) (Context.build variant overrides filename config)
      fun _ => List.Forall₂ σ.NamedAlike := by
  refine (sim_configContext hconfig variant).bind fun μ _ ps qs hps => ?_
  refine Sim.bind (P := fun _ => List.Forall₂ σ.NamedAlike) ?_ fun ν _ xs ys hxs => ?_
  · exact .mapM hps fun _ _ _ _ hpq => (sim_configured hlevel hpq.2).bind fun _ _ _ _ hvw => .pure ⟨hpq.1, hvw⟩
  refine Sim.bind (P := fun _ => List.Forall₂ σ.NamedAlike) ?_ fun ξ _ cs ds hcs => ?_
  · exact .mapM_same fun _ _ p hp => (sim_act (sim_copy hlevel (hoverrides p hp))).bind
      fun _ _ _ _ hvw => .pure ⟨rfl, hvw⟩
  refine (sim_note _ _ _ _).bind fun _ _ _ _ _ => .pure ?_
  exact forall₂_assocSets (List.rel_append hxs hcs) (.cons ⟨rfl, .text _⟩ .nil)

end level
end Stencil.Correspondence
