import Stencil.Proofs.Correspondence.Values
import Stencil.Render.Filter

/-! Entries, texts, comparisons and rankings of alike values. -/
namespace Stencil.Correspondence.Agree

variable {σ : Correspondence} {κ : Known} {s t : Store} (h : σ.Agree κ s t) {v v' w w' : Value}
include h

theorem entriesOf {c d : Keyed} (hcd : Keyed.Alike σ.rel c d) :
    List.Forall₂ σ.NamedAlike (s.entriesOf c) (t.entriesOf d) := by
  cases hcd with
  | mapping hij => exact forall₂_map (h.mapping hij) fun p q hpq => ⟨hpq.1, hpq.2.value⟩
  | table hij => exact forall₂_map (h.table hij) fun p q hpq => ⟨h.keyText_eq hpq.1, hpq.2⟩

theorem rel_entries? (hvw : σ.Alike v w) :
    Option.Rel (List.Forall₂ σ.NamedAlike) (s.entries? v) (t.entries? w) := by
  cases hvw with
  | mapping hij => exact .some (h.entriesOf (.mapping hij))
  | table hij => exact .some (h.entriesOf (.table hij))
  | _ => exact .none

theorem rel_ownValue? {c d : Keyed} (hcd : Keyed.Alike σ.rel c d) (key : Text) :
    Option.Rel σ.Alike (s.ownValue? c key) (t.ownValue? d key) := by
  cases hcd with
  | mapping hij =>
    have hrel := rel_get? (h.mapping hij) key
    unfold Store.ownValue?
    dsimp only
    generalize (s.mapping _).get? key = x at hrel ⊢
    generalize (t.mapping _).get? key = y at hrel ⊢
    cases hrel with
    | none => exact .none
    | some hslot =>
      cases hslot with
      | data hvw => exact .some hvw
      | computed _ => exact .none
  | table hij => exact rel_lookup_text (h.table hij) key

theorem displayWithin_eq : ∀ (n : Nat) (quote : Bool) {v w : Value}, σ.Alike v w →
    s.displayWithin n quote v = t.displayWithin n quote w
  | 0, _, _, _, _ => rfl
  | n + 1, quote, v, w, hvw => by
    have hentry : ∀ p q, σ.NamedAlike p q → s.entryWithin n p = t.entryWithin n q := by
      intro p q hpq
      rw [Store.entryWithin, Store.entryWithin, hpq.1, displayWithin_eq n true hpq.2]
    cases hvw with
    | list hij =>
      rw [Store.displayWithin_list, Store.displayWithin_list,
        mapM_eq_of_forall₂ (h.list hij) fun _ _ => displayWithin_eq n true]
    | mapping hij =>
      rw [Store.displayWithin_mapping, Store.displayWithin_mapping,
        mapM_eq_of_forall₂ (h.entriesOf (.mapping hij)) hentry]
    | table hij =>
      rw [Store.displayWithin_table, Store.displayWithin_table,
        mapM_eq_of_forall₂ (h.entriesOf (.table hij)) hentry]
    | @ofMacro i j hij =>
      rw [Store.displayWithin, Store.displayWithin,
        map_eq_of_rel (h.macros i j hij) fun _ _ hm => hm.name]
    | native _ hf => rw [Store.displayWithin, Store.displayWithin, hf.name_eq]
    | _ => rfl

theorem displayWithin_depth_eq (quote : Bool) (hvw : σ.Alike v w) :
    s.displayWithin s.depth quote v = t.displayWithin t.depth quote w := by
  rw [← Store.displayWithin_stable (n := max s.depth t.depth) (by omega),
    ← Store.displayWithin_stable (s := t) (n := max s.depth t.depth) (by omega)]
  exact h.displayWithin_eq _ quote hvw

theorem display?_eq (hvw : σ.Alike v w) : s.display? v = t.display? w := h.displayWithin_depth_eq false hvw

theorem repr?_eq (hvw : σ.Alike v w) : s.repr? v = t.repr? w := h.displayWithin_depth_eq true hvw

theorem isTruthy_eq (hvw : σ.Alike v w) : s.isTruthy v = t.isTruthy w := by
  cases hvw with
  | list hij => exact congrArg not (isEmpty_eq_of_forall₂ (h.list hij))
  | mapping hij => exact congrArg not (isEmpty_eq_of_forall₂ (h.mapping hij))
  | table hij => exact congrArg not (isEmpty_eq_of_forall₂ (h.table hij))
  | _ => rfl

omit h in
theorem sameScalar_eq (hv : σ.Alike v v') (hw : σ.Alike w w') :
    Store.sameScalar v w = Store.sameScalar v' w' := by
  have hiff := alike_eq_iff hv hw
  cases hv <;> cases hw <;> first | rfl | exact decide_eq_decide.mpr hiff

omit h in
theorem rel_lastLookup {xs ys : List (Text × Value)} (hxs : List.Forall₂ σ.NamedAlike xs ys) (key : Text) :
    Option.Rel σ.Alike (Store.lastLookup xs key) (Store.lastLookup ys key) :=
  rel_lookup (List.rel_reverse hxs) key

omit h in
theorem contains_pair_eq {visiting visiting' : List (Value × Value)}
    (hvisiting : List.Forall₂ (fun p q => σ.Alike p.1 q.1 ∧ σ.Alike p.2 q.2) visiting visiting')
    (hv : σ.Alike v v') (hw : σ.Alike w w') : visiting.contains (v, w) = visiting'.contains (v', w') := by
  induction hvisiting with
  | nil => rfl
  | cons hpq _ ih =>
    rw [List.contains_cons, List.contains_cons, ih]
    congr 1
    rw [Bool.eq_iff_iff, beq_iff_eq, beq_iff_eq, Prod.ext_iff, Prod.ext_iff]
    exact and_congr (alike_eq_iff hv hpq.1) (alike_eq_iff hw hpq.2)

section inner

variable {f g : Value → Value → Option Bool}
  (hfg : ∀ {x x' y y' : Value}, σ.Alike x x' → σ.Alike y y' → f x y = g x' y')
include hfg

omit h in
theorem compareItems_eq {xs xs' ys ys' : List Value} (hx : List.Forall₂ σ.Alike xs xs')
    (hy : List.Forall₂ σ.Alike ys ys') : Store.compareItems f xs ys = Store.compareItems g xs' ys' := by
  unfold Store.compareItems
  rw [hx.length_eq, hy.length_eq, allHold_eq_of_forall₂ (forall₂_zip hx hy) fun p q hpq => hfg hpq.1 hpq.2]

omit h in
theorem compareEntries_eq {xs? xs'? ys? ys'? : Option (List (Text × Value))} {b b' : Bool} (hb : b = b')
    (hx : Option.Rel (List.Forall₂ σ.NamedAlike) xs? xs'?)
    (hy : Option.Rel (List.Forall₂ σ.NamedAlike) ys? ys'?) :
    Store.compareEntries f xs? ys? b = Store.compareEntries g xs'? ys'? b' := by
  cases hb
  cases hx with
  | none => rfl
  | some hx =>
    cases hy with
    | none => rfl
    | some hy =>
      unfold Store.compareEntries
      dsimp only
      rw [hx.length_eq, hy.length_eq]
      split
      · refine allHold_eq_of_forall₂ hx fun p q hpq => ?_
        rw [hpq.1]
        have hlookup := rel_lastLookup hy q.1
        generalize Store.lastLookup _ q.1 = y? at hlookup ⊢
        generalize Store.lastLookup _ q.1 = y'? at hlookup ⊢
        cases hlookup with
        | none => rfl
        | some hlookup => exact hfg hpq.2 hlookup
      · rfl

theorem compareParts_eq (hv : σ.Alike v v') (hw : σ.Alike w w') :
    s.compareParts f v w = t.compareParts g v' w' := by
  have hb := sameScalar_eq hv hw
  have hx := h.rel_entries? hv
  have hy := h.rel_entries? hw
  cases hv with
  | list hij =>
    cases hw with
    | list hkl => exact compareItems_eq hfg (h.list hij) (h.list hkl)
    | _ => exact compareEntries_eq hfg hb hx hy
  | _ => exact compareEntries_eq hfg hb hx hy

end inner

theorem equalWithin_eq : ∀ (n : Nat) {visiting visiting' : List (Value × Value)} {v v' w w' : Value},
    List.Forall₂ (fun p q => σ.Alike p.1 q.1 ∧ σ.Alike p.2 q.2) visiting visiting' → σ.Alike v v' →
    σ.Alike w w' → s.equalWithin n visiting v w = t.equalWithin n visiting' v' w'
  | 0, _, _, _, _, _, _, _, _, _ => rfl
  | n + 1, visiting, visiting', v, v', w, w', hvisiting, hv, hw => by
    rw [Store.equalWithin_succ, Store.equalWithin_succ, contains_pair_eq hvisiting hv hw]
    split
    · rfl
    · exact h.compareParts_eq (fun hx hy => equalWithin_eq n (.cons ⟨hv, hw⟩ hvisiting) hx hy) hv hw

theorem equal?_eq (hv : σ.Alike v v') (hw : σ.Alike w w') : s.equal? v w = t.equal? v' w' := by
  rw [← Store.equalWithin_eq_equal? (n := max (s.depth * s.depth) (t.depth * t.depth)) (Nat.le_max_left _ _),
    ← Store.equalWithin_eq_equal? (s := t) (n := max (s.depth * s.depth) (t.depth * t.depth)) (Nat.le_max_right _ _)]
  exact h.equalWithin_eq _ .nil hv hw

end Stencil.Correspondence.Agree
