import Stencil.Proofs.Marking.Filtering
import Stencil.Render.Evaluate

/-! Targets, loops and parameters bind values that are the same. -/
namespace Stencil.Marking

variable {R : Terms} {v w : Value} {xs ys : List Value}

theorem follows_written {features : Features} (hoff : features.autoescape = false) (h : R.Same v w) :
    Follows R (Eval.written features v) (Eval.written features w) Eq := by
  unfold Eval.written
  rw [hoff]
  exact (follows_display h).bind_same fun _ => .pure rfl

/-- Targets that bind the same names, wherever they stand. -/
inductive SameTarget : Target → Target → Prop where
  | name {n n' : Name} (h : n.text = n'.text) : SameTarget (.name n) (.name n')
  | tuple {l l' : Nat} {names names' : List Name} (h : names.map (·.text) = names'.map (·.text)) :
      SameTarget (.tuple l names) (.tuple l' names')

theorem follows_setAll (scope : ScopeId) {names names' : List Name} (hnames : names.map (·.text) = names'.map (·.text))
    (hxs : List.Forall₂ R.Same xs ys) :
    Follows R
      (do for (n, item) in names.zip xs do Eval.setVar scope n.text item)
      (do for (n, item) in names'.zip ys do Eval.setVar scope n.text item) fun _ _ => True := by
  have hzip := forall₂_zip (forall₂_map_eq_iff.mpr hnames) hxs
  generalize names.zip xs = ps at hzip ⊢
  generalize names'.zip ys = qs at hzip ⊢
  induction hzip with
  | nil => exact .pure trivial
  | @cons p q _ _ hpq _ ih =>
    rw [List.forIn_cons, List.forIn_cons]
    simp only [bind_assoc, pure_bind]
    rw [hpq.1]
    exact (follows_setVar scope q.1.text hpq.2).bind fun _ _ _ => ih

theorem follows_assign {target target' : Target} (htarget : SameTarget target target') (h : R.Same v w)
    (scope : ScopeId) :
    Follows R (Eval.assign target v scope) (Eval.assign target' w scope) fun _ _ => True := by
  cases htarget with
  | @name n n' hn =>
    unfold Eval.assign
    dsimp only
    rw [hn]
    exact follows_setVar scope n'.text h
  | @tuple l l' names names' hnames =>
    have hlength : names.length = names'.length := by
      have hlength := congrArg List.length hnames
      rwa [List.length_map, List.length_map] at hlength
    refine (follows_items h).bind fun xs ys hxs => ?_
    rw [hxs.length_eq, hlength]
    dsimp only
    split
    · exact .throw
    · exact follows_setAll scope hnames hxs

theorem follows_loopContext (hxs : List.Forall₂ R.Same xs ys) (index : Nat) :
    Follows R (Eval.loopContext xs.toArray index) (Eval.loopContext ys.toArray index) R.Same := by
  have hcell : ∀ i : Nat, Option.Rel R.Same xs.toArray[i]? ys.toArray[i]? := by
    intro i
    rw [List.getElem?_toArray, List.getElem?_toArray]
    exact rel_getElem? hxs i
  have hprevious : R.Same
      (if index = 0 then .undefined .previousItem else xs.toArray[index - 1]?.getD .absent)
      (if index = 0 then .undefined .previousItem else ys.toArray[index - 1]?.getD .absent) := by
    split
    · exact .refl _
    · exact rel_getD (hcell _) (.refl _)
  have hnext : R.Same (xs.toArray[index + 1]?.getD (.undefined .nextItem))
      (ys.toArray[index + 1]?.getD (.undefined .nextItem)) := rel_getD (hcell (index + 1)) (.refl _)
  unfold Eval.loopContext
  rw [List.size_toArray, List.size_toArray, hxs.length_eq]
  refine (follows_newNative (.cycle index)).bind fun f g hfg => follows_mappingOf ?_
  have hcounts : ∀ (key : Text) (v : Value), R.SameEntry (key, v) (key, v) := fun _ v => .of (.refl v)
  exact .cons (hcounts _ _) <| .cons (hcounts _ _) <| .cons (hcounts _ _) <| .cons (hcounts _ _) <|
    .cons (hcounts _ _) <| .cons (hcounts _ _) <| .cons (hcounts _ _) <| .cons (.of hprevious) <|
    .cons (.of hnext) <| .cons (.of hfg) .nil

theorem keptItems_of_not_list (hv : ∀ id, v ≠ .list id) (keep : Value → Eval Bool) :
    Eval.keptItems v keep = Eval.items v >>= (List.filterM keep ·) := by
  cases v with
  | list id => exact absurd rfl (hv id)
  | _ => rfl

theorem follows_keptItems {keep keep' : Value → Eval Bool} (h : R.Same v w)
    (hkeep : ∀ x y, R.Same x y → Follows R (keep x) (keep' y) Eq) :
    Follows R (Eval.keptItems v keep) (Eval.keptItems w keep') (List.Forall₂ R.Same) := by
  by_cases hlist : ∃ id, v = .list id
  · obtain ⟨id, rfl⟩ := hlist
    cases h.eq_of_not_text rfl (fun _ hr => nomatch hr)
    refine (follows_list id).bind fun xs ys hxs => ?_
    rw [hxs.length_eq]
    refine Follows.bind (P := List.Forall₂ R.Same) ?_ fun _ _ hkept => .pure (List.rel_reverse hkept)
    refine .foldlM_same .nil fun kept kept' n hkept => .get_bind fun s t hst => ?_
    have hhead := rel_head? (List.forall₂_drop n (hst.list id))
    rcases rel_cases hhead with ⟨hx, hy⟩ | ⟨x, y, hx, hy, hxy⟩ <;> rw [hx, hy]
    · exact .pure hkept
    · refine (hkeep x y hxy).bind_same fun holds => .pure ?_
      split
      · exact .cons hxy hkept
      · exact hkept
  · have hv : ∀ id, v ≠ .list id := fun id hid => hlist ⟨id, hid⟩
    have hw : ∀ id, w ≠ .list id := by
      rintro id rfl
      exact hv id (h.symm.eq_of_not_text rfl fun _ hr => nomatch hr).symm
    rw [keptItems_of_not_list hv, keptItems_of_not_list hw]
    exact (follows_items h).bind fun _ _ hxs => .filterM hxs hkeep

theorem forall₂_dropKeyword {ps qs : List (Text × Value)} (h : List.Forall₂ R.SameEntry ps qs) (name : Text) :
    List.Forall₂ R.SameEntry (ps.filter (·.1 != name)) (qs.filter (·.1 != name)) :=
  forall₂_filter h fun _ _ hpq => by rw [hpq.key]

theorem forall₂_byKeyword {ps qs : List (Text × Value)} (h : List.Forall₂ R.SameEntry ps qs) :
    List.Forall₂ R.SameEntry (Eval.byKeyword ps) (Eval.byKeyword qs) := by
  have hmap : ∀ ps done : List (Text × Value),
      (ps.foldl (fun found p => assocSet p.1 p.2 found) done).map unmarkedEntry =
        (ps.map unmarkedEntry).foldl (fun found p => assocSet p.1 p.2 found) (done.map unmarkedEntry) := by
    intro ps
    induction ps with
    | nil => exact fun _ => rfl
    | cons p ps ih =>
      intro done
      rw [List.foldl_cons, List.map_cons, List.foldl_cons, ih, Store.assocSet_unmarked]
      rfl
  obtain ⟨hunmarked, heq⟩ := forall₂_sameEntry_iff.mp h
  refine forall₂_sameEntry_iff.mpr ⟨?_, fun hstrict => by rw [heq hstrict]⟩
  exact (hmap ps []).trans ((congrArg _ hunmarked).trans (hmap qs []).symm)

theorem params_eq_of_signature {m m' : Macro} (h : m.signature = m'.signature) : m.params = m'.params := by
  have hparams : m.signature.params = m'.signature.params := congrArg Macro.params h
  exact hparams

theorem scope_eq_of_signature {m m' : Macro} (h : m.signature = m'.signature) : m.scope = m'.scope := by
  have hscope : m.signature.scope = m'.signature.scope := congrArg Macro.scope h
  exact hscope

section parameters

variable {E : Expr → Expr → Prop} {a b : Arguments} {scope : ScopeId} {default default' : Expr → Eval Value}
  (ha : R.SameArguments a b) (hdefault : ∀ e e', E e e' → Follows R (default e) (default' e') R.Same)
include ha hdefault

theorem follows_bindParam (routine routine' param : Text) {default? default'? : Option Expr}
    (he : Option.Rel E default? default'?) (n : Nat) {named named' : List (Text × Value)}
    (hnamed : List.Forall₂ R.SameEntry named named') :
    Follows R (Eval.bindParam routine a scope default named param default? n)
      (Eval.bindParam routine' b scope default' named' param default'? n) (List.Forall₂ R.SameEntry) := by
  have hset : ∀ {v w : Value}, R.Same v w →
      Follows R (do Eval.setVar scope param v; return named) (do Eval.setVar scope param w; return named')
        (List.Forall₂ R.SameEntry) :=
    fun hvw => (follows_setVar scope param hvw).bind fun _ _ _ => .pure hnamed
  unfold Eval.bindParam
  rcases rel_cases (rel_getElem? ha.args n) with ⟨hx, hy⟩ | ⟨x, y, hx, hy, hxy⟩ <;> rw [hx, hy]
  · rcases rel_cases (same_lookup hnamed param) with ⟨hx, hy⟩ | ⟨x, y, hx, hy, hxy⟩ <;> rw [hx, hy]
    · cases he with
      | some he => exact (hdefault _ _ he).bind fun _ _ hvw => hset hvw
      | none => exact hset (.refl _)
    · exact (follows_setVar scope param hxy).bind fun _ _ _ => .pure (forall₂_dropKeyword hnamed param)
  · rcases rel_cases (same_lookup hnamed param) with ⟨hx, hy⟩ | ⟨x', y', hx, hy, _⟩ <;> rw [hx, hy]
    · exact hset hxy
    · exact .throw

theorem follows_bindParams {m m' : Macro} (hm : m.signature = m'.signature)
    (hdefaults : List.Forall₂ E m.defaults m'.defaults) :
    Follows R (Eval.bindParams m a scope default) (Eval.bindParams m' b scope default') (List.Forall₂ R.SameEntry) := by
  have hparams := params_eq_of_signature hm
  have haligned : List.Forall₂ (Option.Rel E) (alignDefaults m.params.length m.defaults)
      (alignDefaults m'.params.length m'.defaults) := by
    unfold alignDefaults
    rw [hparams, hdefaults.length_eq]
    exact List.rel_append (List.forall₂_same.mpr fun x hx => by rw [List.eq_of_mem_replicate hx]; exact .none)
      (forall₂_map hdefaults fun _ _ => .some)
  refine Follows.foldlM (forall₂_zipIdx (forall₂_zip (forall₂_of_eq hparams) haligned) 0) ha.named ?_
  rintro named named' ⟨⟨param, default?⟩, n⟩ ⟨⟨_, default'?⟩, _⟩ hnamed ⟨⟨rfl, he⟩, rfl⟩
  exact follows_bindParam ha hdefault m.name m'.name param he n hnamed

end parameters
end Stencil.Marking
