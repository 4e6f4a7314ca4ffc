import Stencil.Proofs.Correspondence.Basic
import Stencil.Proofs.Pointwise
import Stencil.Proofs.Value.Fuel
import Stencil.Render.Access
import Stencil.Value.Ranking

/-! What templates see of alike values is the same in stores that correspond. -/
namespace Stencil

section lists

variable {α β γ δ : Type} {R : α → β → Prop} {l : List α} {l' : List β}

theorem isEmpty_eq_of_forall₂ (h : List.Forall₂ R l l') : l.isEmpty = l'.isEmpty := by
  cases h <;> rfl

theorem map_eq_of_forall₂ {f : α → γ} {g : β → γ} (h : List.Forall₂ R l l') (hfg : ∀ a b, R a b → f a = g b) :
    l.map f = l'.map g := by
  induction h with
  | nil => rfl
  | cons hab _ ih => rw [List.map_cons, List.map_cons, hfg _ _ hab, ih]

theorem mapM_eq_of_forall₂ {f : α → Option γ} {g : β → Option γ} (h : List.Forall₂ R l l')
    (hfg : ∀ a b, R a b → f a = g b) : l.mapM f = l'.mapM g := by
  induction h with
  | nil => rfl
  | cons hab _ ih => rw [List.mapM_cons, List.mapM_cons, hfg _ _ hab, ih]

theorem allHold_eq_of_forall₂ {p : α → Option Bool} {q : β → Option Bool} (h : List.Forall₂ R l l')
    (hpq : ∀ a b, R a b → p a = q b) : Store.allHold p l = Store.allHold q l' := by
  induction h with
  | nil => rfl
  | cons hab _ ih => rw [Store.allHold, Store.allHold, hpq _ _ hab, ih]

theorem forall₂_map {S : γ → δ → Prop} {f : α → γ} {g : β → δ} (h : List.Forall₂ R l l')
    (hfg : ∀ a b, R a b → S (f a) (g b)) : List.Forall₂ S (l.map f) (l'.map g) :=
  List.forall₂_map_left_iff.mpr (List.forall₂_map_right_iff.mpr (h.imp hfg))

theorem forall₂_map_same {f : γ → α} {g : γ → β} (hfg : ∀ c, R (f c) (g c)) (cs : List γ) :
    List.Forall₂ R (cs.map f) (cs.map g) := by
  rw [List.forall₂_map_left_iff, List.forall₂_map_right_iff]
  exact List.forall₂_same.mpr fun c _ => hfg c

theorem forall₂_filter {p : α → Bool} {q : β → Bool} (h : List.Forall₂ R l l') (hpq : ∀ a b, R a b → p a = q b) :
    List.Forall₂ R (l.filter p) (l'.filter q) :=
  List.rel_filter (fun a b hab => iff_of_eq (congrArg (· = true) (hpq a b hab))) h

theorem forall₂_eraseIdx (h : List.Forall₂ R l l') (i : Nat) : List.Forall₂ R (l.eraseIdx i) (l'.eraseIdx i) := by
  induction h generalizing i with
  | nil => exact .nil
  | cons hab h ih =>
    cases i with
    | zero => exact h
    | succ i => exact .cons hab (ih i)

theorem forall₂_repeat (h : List.Forall₂ R l l') (n : Nat) :
    List.Forall₂ R (List.replicate n l).flatten (List.replicate n l').flatten := by
  induction n with
  | zero => exact .nil
  | succ n ih => exact List.rel_append h ih

theorem forall₂_zip {S : γ → δ → Prop} {m : List γ} {m' : List δ} (h : List.Forall₂ R l l')
    (hm : List.Forall₂ S m m') :
    List.Forall₂ (fun p q => R p.1 q.1 ∧ S p.2 q.2) (l.zip m) (l'.zip m') := by
  induction h generalizing m m' with
  | nil => exact .nil
  | cons hab _ ih =>
    cases hm with
    | nil => exact .nil
    | cons hcd hm => exact .cons ⟨hab, hcd⟩ (ih hm)

theorem forall₂_zipIdx (h : List.Forall₂ R l l') (n : Nat) :
    List.Forall₂ (fun p q => R p.1 q.1 ∧ p.2 = q.2) (l.zipIdx n) (l'.zipIdx n) := by
  induction h generalizing n with
  | nil => exact .nil
  | cons hab _ ih => exact .cons ⟨hab, rfl⟩ (ih (n + 1))

theorem rel_getElem? (h : List.Forall₂ R l l') (i : Nat) : Option.Rel R l[i]? l'[i]? := by
  induction h generalizing i with
  | nil => exact .none
  | cons hab _ ih =>
    cases i with
    | zero => exact .some hab
    | succ i => exact ih i

theorem rel_getD {a : Option α} {b : Option β} {c : α} {d : β} (h : Option.Rel R a b) (hcd : R c d) :
    R (a.getD c) (b.getD d) := by
  cases h with
  | some hab => exact hab
  | none => exact hcd

theorem rel_beyond {xs : Array α} {ys : Array β} {m n : Nat} (hm : xs.size ≤ m)
    (hn : ys.size ≤ n) : Option.Rel R xs[m]? ys[n]? := by
  rw [Array.getElem?_eq_none hm, Array.getElem?_eq_none hn]
  exact .none

theorem rel_cases {a : Option α} {b : Option β} (h : Option.Rel R a b) :
    a = none ∧ b = none ∨ ∃ x y, a = some x ∧ b = some y ∧ R x y := by
  cases h with
  | none => exact .inl ⟨rfl, rfl⟩
  | some hxy => exact .inr ⟨_, _, rfl, rfl, hxy⟩

theorem rel_head? (h : List.Forall₂ R l l') : Option.Rel R l.head? l'.head? := by
  cases h with
  | nil => exact .none
  | cons hab _ => exact .some hab

theorem rel_getLast? (h : List.Forall₂ R l l') : Option.Rel R l.getLast? l'.getLast? := by
  rw [← List.head?_reverse, ← List.head?_reverse]
  exact rel_head? (List.rel_reverse h)

theorem forall₂_pick {ι : Type} (h : List.Forall₂ R l l') (f : ι → Nat) (places : List ι) :
    List.Forall₂ R (places.filterMap fun p => l.toArray[f p]?) (places.filterMap fun p => l'.toArray[f p]?) := by
  induction places with
  | nil => exact .nil
  | cons p places ih =>
    rw [List.filterMap_cons, List.filterMap_cons, List.getElem?_toArray, List.getElem?_toArray]
    rcases rel_cases (rel_getElem? h (f p)) with ⟨ha, hb⟩ | ⟨a, b, ha, hb, hab⟩
    · rw [ha, hb]
      exact ih
    · rw [ha, hb]
      exact .cons hab ih

theorem map_eq_of_rel {f : α → γ} {g : β → γ} {a : Option α} {b : Option β} (h : Option.Rel R a b)
    (hfg : ∀ x y, R x y → f x = g y) : a.map f = b.map g := by
  cases h with
  | some hxy => exact congrArg some (hfg _ _ hxy)
  | none => rfl

end lists

theorem Slot.Alike.value {R : Pairing} {good : Set Text} {x y : Slot} (h : Slot.Alike R good x y) :
    Value.Alike R good x.value y.value := by
  cases h with
  | data h | computed h => exact h

theorem Keyed.Alike.functional {R : Pairing} (hR : R.Functional) {c d e : Keyed} :
    Keyed.Alike R c d → Keyed.Alike R c e → d = e
  | .mapping h, .mapping h' => by rw [hR h h']
  | .table h, .table h' => by rw [hR h h']

theorem Keyed.Alike.injective {R : Pairing} (hR : R.Injective) {c d e : Keyed} :
    Keyed.Alike R c e → Keyed.Alike R d e → c = d
  | .mapping h, .mapping h' => by rw [hR h h']
  | .table h, .table h' => by rw [hR h h']

namespace Native.Alike

variable {R : Pairing} {f g k : Native}

theorem functional (hR : R.Functional) (h : Native.Alike R f g) (h' : Native.Alike R f k) : g = k := by
  cases h with
  | list m h => cases h' with | list _ h' => rw [hR h h']
  | keyed m h => cases h' with | keyed _ h' => rw [h.functional hR h']
  | _ => cases h'; rfl

theorem injective (hR : R.Injective) (h : Native.Alike R f k) (h' : Native.Alike R g k) : f = g := by
  cases h with
  | list m h => cases h' with | list _ h' => rw [hR h h']
  | keyed m h => cases h' with | keyed _ h' => rw [h.injective hR h']
  | _ => cases h'; rfl

theorem name_eq (h : Native.Alike R f g) : f.name = g.name := by cases h <;> rfl

end Native.Alike

namespace Correspondence

variable {σ : Correspondence} {κ : Known} {s t : Store} {v v' w w' : Value}

theorem alike_functional (h : σ.Alike v w) (h' : σ.Alike v w') : w = w' := by
  cases h with
  | native h hf => cases h' with | native h' hf' => rw [σ.functional h h', hf.functional σ.functional hf']
  | list h | mapping h | table h | ofMacro h | foreign h => cases h'; rename_i h'; rw [σ.functional h h']
  | _ => cases h'; rfl

theorem alike_injective (h : σ.Alike v w) (h' : σ.Alike v' w) : v = v' := by
  cases h with
  | native h hf => cases h' with | native h' hf' => rw [σ.injective h h', hf.injective σ.injective hf']
  | list h | mapping h | table h | ofMacro h | foreign h => cases h'; rename_i h'; rw [σ.injective h h']
  | _ => cases h'; rfl

theorem alike_eq_iff (h : σ.Alike v v') (h' : σ.Alike w w') : v = w ↔ v' = w' := by
  constructor
  · rintro rfl
    exact alike_functional h h'
  · rintro rfl
    exact alike_injective h h'

theorem kind_eq (h : σ.Alike v w) : v.kind = w.kind := by cases h <;> rfl

theorem text?_eq (h : σ.Alike v w) : v.text? = w.text? := by cases h <;> rfl

theorem rel_keyed? (h : σ.Alike v w) : Option.Rel (Keyed.Alike σ.rel) v.keyed? w.keyed? := by
  cases h with
  | mapping h => exact .some (.mapping h)
  | table h => exact .some (.table h)
  | _ => exact .none

theorem forall₂_text (ts : List Text) : List.Forall₂ σ.Alike (ts.map .text) (ts.map .text) :=
  forall₂_map_same .text ts

theorem rel_lookup {xs ys : List (Text × Value)} (h : List.Forall₂ σ.NamedAlike xs ys) (key : Text) :
    Option.Rel σ.Alike (xs.lookup key) (ys.lookup key) :=
  forall₂_lookup h key

theorem rel_get? {ps qs : Properties} (h : List.Forall₂ (PropertyAlike σ.rel σ.good) ps qs) (key : Text) :
    Option.Rel (Slot.Alike σ.rel σ.good) (ps.get? key) (qs.get? key) :=
  forall₂_lookup h key

theorem keyAlike_text (h : σ.KeyAlike v w) (key : Text) : v = .text key ↔ w = .text key := by
  rcases h with h | ⟨rfl, _⟩
  · exact alike_eq_iff h (.text key)
  · exact Iff.rfl

theorem rel_lookup_text {xs ys : List (Value × Value)} (h : List.Forall₂ σ.EntryAlike xs ys) (key : Text) :
    Option.Rel σ.Alike (xs.lookup (.text key)) (ys.lookup (.text key)) := by
  refine forall₂_lookup_of h (fun p q hpq => ?_) fun _ _ hpq => hpq.2
  rw [Bool.eq_iff_iff, beq_iff_eq, beq_iff_eq, eq_comm, keyAlike_text hpq.1 key, eq_comm]

variable (h : σ.Agree κ s t)
include h

namespace Agree

theorem list {i j : ListId} (hij : σ.rel .list i j) : List.Forall₂ σ.Alike (s.list i) (t.list j) :=
  rel_getD (h.lists i j hij) .nil

theorem mapping {i j : MappingId} (hij : σ.rel .mapping i j) :
    List.Forall₂ (PropertyAlike σ.rel σ.good) (s.mapping i) (t.mapping j) :=
  rel_getD (h.mappings i j hij) .nil

theorem table {i j : TableId} (hij : σ.rel .table i j) : List.Forall₂ σ.EntryAlike (s.table i) (t.table j) :=
  rel_getD (h.tables i j hij) .nil

/-- Lists that keys reach hold alike items. -/
theorem listRel_items {i j : ListId} (hij : σ.listRel i j) : List.Forall₂ σ.KeyAlike (s.list i) (t.list j) := by
  rcases hij with hij | ⟨rfl, hi⟩
  · exact (h.list hij).imp fun _ _ => .inl
  · rw [h.left.list (σ.frozen_lt hi), h.right.list (σ.frozen_lt hi)]
    refine List.forall₂_same.mpr fun v hv => .inr ⟨rfl, fun k hk => ?_⟩
    rw [hk] at hv
    exact σ.closed hi hv

omit h in
theorem listRel_functional {i j k : ListId} (hij : σ.listRel i j) (hik : σ.listRel i k) : j = k := by
  rcases hij with hij | ⟨rfl, hi⟩
  · rcases hik with hik | ⟨rfl, hi⟩
    · exact σ.functional hij hik
    · exact absurd (σ.apart hij trivial).1 (Nat.not_le.mpr (σ.frozen_lt hi))
  · rcases hik with hik | ⟨rfl, _⟩
    · exact absurd (σ.apart hik trivial).1 (Nat.not_le.mpr (σ.frozen_lt hi))
    · rfl

omit h in
theorem listRel_injective {i j k : ListId} (hik : σ.listRel i k) (hjk : σ.listRel j k) : i = j := by
  rcases hik with hik | ⟨rfl, hi⟩
  · rcases hjk with hjk | ⟨rfl, hj⟩
    · exact σ.injective hik hjk
    · exact absurd (σ.apart hik trivial).2 (Nat.not_le.mpr (σ.frozen_lt hj))
  · rcases hjk with hjk | ⟨rfl, _⟩
    · exact absurd (σ.apart hjk trivial).2 (Nat.not_le.mpr (σ.frozen_lt hi))
    · rfl

omit h in
theorem contains_eq {visiting visiting' : List ListId} {i j : ListId}
    (hv : List.Forall₂ σ.listRel visiting visiting') (hij : σ.listRel i j) :
    visiting.contains i = visiting'.contains j := by
  induction hv with
  | nil => rfl
  | @cons k l _ _ hkl _ ih =>
    have hiff : i = k ↔ j = l := by
      constructor
      · rintro rfl
        exact listRel_functional hij hkl
      · rintro rfl
        exact listRel_injective hij hkl
    rw [List.contains_cons, List.contains_cons, ih]
    congr 1
    exact decide_eq_decide.mpr hiff

theorem keyTextWithin_eq : ∀ (n : Nat) {visiting visiting' : List ListId} {v w : Value},
    List.Forall₂ σ.listRel visiting visiting' → σ.KeyAlike v w →
    s.keyTextWithin n visiting v = t.keyTextWithin n visiting' w
  | 0, _, _, _, _, _, _ => rfl
  | n + 1, visiting, visiting', v, w, hvisiting, hvw => by
    have hlist : ∀ {i j}, σ.listRel i j →
        s.keyTextWithin (n + 1) visiting (.list i) = t.keyTextWithin (n + 1) visiting' (.list j) := by
      intro i j hij
      rw [Store.keyTextWithin_list, Store.keyTextWithin_list, contains_eq hvisiting hij]
      split
      · rfl
      · congr 1
        refine map_eq_of_forall₂ (h.listRel_items hij) fun a b hab => ?_
        have hnone : (a = .none || a = .absent : Bool) = (b = .none || b = .absent : Bool) := by
          rcases hab with hab | ⟨rfl, _⟩
          · cases hab <;> rfl
          · rfl
        rw [hnone, keyTextWithin_eq n (.cons hij hvisiting) hab]
    rcases hvw with hvw | ⟨rfl, hv⟩
    · cases hvw with
      | list hij => exact hlist (.inl hij)
      | _ => rfl
    · cases v with
      | list i => exact hlist (.inr ⟨rfl, hv i rfl⟩)
      | _ => rfl

theorem keyText_eq (hvw : σ.KeyAlike v w) : s.keyText v = t.keyText w := by
  rw [← Store.keyTextWithin_eq_keyText (n := s.lists.size + t.lists.size + 1) (by omega),
    ← Store.keyTextWithin_eq_keyText (s := t) (n := s.lists.size + t.lists.size + 1) (by omega)]
  exact h.keyTextWithin_eq _ .nil hvw

end Agree
end Correspondence
end Stencil
