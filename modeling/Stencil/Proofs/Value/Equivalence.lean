import Mathlib.Logic.Relation
import Stencil.Proofs.Order
import Stencil.Proofs.Pointwise
import Stencil.Proofs.Value.PropertyOrder
import Stencil.Proofs.Value.Recounting

/-!
Equality of values, read as a relation. What it looks at is the form of a value: the items of a list, the entries of a
mapping or table, whichever of the two it is, or the value itself. Two forms are compared by their parts, so what holds of
one level carries over to values that do not contain themselves.
-/
namespace Stencil

/-! ## Values without parts -/

namespace Value

/-- What stands for a value that has no parts: a safe text is its text, everything undefined is one, and a number is its
place among the numbers. -/
def essence : Value → Value ⊕ WithBot (WithTop Int)
  | safe t => .inl (.text t)
  | undefined _ => .inl (.undefined .otherwise)
  | number x => .inr x.extent
  | v => .inl v

end Value

namespace Store

variable {s : Store} {v w : Value}

/-- Values without parts are equal if one thing stands for both. NaN is equal to nothing. -/
theorem sameScalar_iff (hv : v ≠ .number .nan) (hw : w ≠ .number .nan) :
    sameScalar v w = true ↔ v.essence = w.essence := by
  cases v with
  | number x =>
    cases w with
    | number y =>
      have hx : x ≠ .nan := fun h => hv (congrArg _ h)
      have hy : y ≠ .nan := fun h => hw (congrArg _ h)
      exact (Number.eq_iff_extent hx hy).trans Sum.inr_injective.eq_iff.symm
    | _ => simp [sameScalar, Value.essence]
  | _ => cases w <;> simp [sameScalar, Value.essence]

/-! ## One level -/

/-- What a comparison looks at. -/
inductive Form where
  | items (xs : List Value)
  | entries (xs : List (Text × Value))
  | scalar (v : Value)

def form (s : Store) (v : Value) : Form :=
  match v with
  | .list id => .items (s.list id)
  | .mapping id => .entries (s.entriesOf (.mapping id))
  | .table id => .entries (s.entriesOf (.table id))
  | v => .scalar v

/-- The comparison of an entry with what stands under its key, with `inner` for that of the values. -/
def compareEntry (inner : Value → Value → Option Bool) (ys : List (Text × Value)) (p : Text × Value) : Option Bool :=
  match lastLookup ys p.1 with
  | some y => inner p.2 y
  | none => some false

namespace Form

def parts : Form → List Value
  | items xs => xs
  | entries xs => xs.map (·.2)
  | scalar _ => []

/-- Each key stands once, and NaN does not stand for itself. -/
def Proper : Form → Prop
  | items _ => True
  | entries xs => (xs.map (·.1)).Nodup
  | scalar v => v ≠ .number .nan

/-- The comparison of two forms, with `inner` for that of their parts. -/
def compare (inner : Value → Value → Option Bool) : Form → Form → Option Bool
  | items xs, items ys => if xs.length = ys.length then allHold (fun p => inner p.1 p.2) (xs.zip ys) else some false
  | entries xs, entries ys => if xs.length = ys.length then allHold (compareEntry inner ys) xs else some false
  | scalar v, scalar w => some (sameScalar v w)
  | _, _ => some false

/-- Forms are the same if their parts are related by `inner`: items in turn, values under the same keys in any order. -/
inductive Same (inner : Value → Value → Prop) : Form → Form → Prop where
  | items {xs ys : List Value} (h : List.Forall₂ inner xs ys) : Same inner (.items xs) (.items ys)
  | entries {xs ys : List (Text × Value)} (hlength : xs.length = ys.length)
    (h : ∀ p ∈ xs, ∃ y, (p.1, y) ∈ ys ∧ inner p.2 y) : Same inner (.entries xs) (.entries ys)
  | scalar {v w : Value} (h : v.essence = w.essence) : Same inner (.scalar v) (.scalar w)

end Form

theorem compareParts_eq (inner : Value → Value → Option Bool) (v w : Value) :
    s.compareParts inner v w = (s.form v).compare inner (s.form w) := by
  cases v <;> cases w <;> rfl

/-! ## Answers -/

section answers

variable {f g : Value → Value → Option Bool} {k m : Form} {ys : List (Text × Value)} {e : Text × Value} {key : Text}

theorem mem_of_lastLookup (h : lastLookup ys key = some v) : (key, v) ∈ ys := by
  obtain ⟨before, after, heq, -⟩ := List.lookup_eq_some_iff.mp h
  rw [← List.mem_reverse, heq]
  exact List.mem_append_right _ List.mem_cons_self

theorem lastLookup_of_mem (hkeys : (ys.map (·.1)).Nodup) (h : (key, v) ∈ ys) : lastLookup ys key = some v :=
  lookup_eq_some_of_mem (by rwa [List.map_reverse, List.nodup_reverse]) (List.mem_reverse.mpr h)

theorem compareEntry_congr (h : ∀ y, f e.2 y = g e.2 y) : compareEntry f ys e = compareEntry g ys e := by
  unfold compareEntry
  cases lastLookup ys e.1 with
  | none => rfl
  | some y => exact h y

theorem exists_compareEntry (h : ∀ y, ∃ b, f e.2 y = some b) : ∃ b, compareEntry f ys e = some b := by
  unfold compareEntry
  cases lastLookup ys e.1 with
  | none => exact ⟨false, rfl⟩
  | some y => exact h y

theorem compareEntry_iff (hkeys : (ys.map (·.1)).Nodup) :
    compareEntry f ys e = some true ↔ ∃ y, (e.1, y) ∈ ys ∧ f e.2 y = some true := by
  unfold compareEntry
  constructor
  · intro h
    cases hlookup : lastLookup ys e.1 with
    | none =>
      rw [hlookup] at h
      cases h
    | some y =>
      rw [hlookup] at h
      exact ⟨y, mem_of_lastLookup hlookup, h⟩
  · rintro ⟨y, hy, h⟩
    rw [lastLookup_of_mem hkeys hy]
    exact h

/-- Unlike sizes decide by themselves. -/
theorem exists_ite {c : Prop} [Decidable c] {r : Option Bool} (h : ∃ b, r = some b) :
    ∃ b, (if c then r else some false) = some b := by
  split
  · exact h
  · exact ⟨false, rfl⟩

theorem ite_iff {c : Prop} [Decidable c] {r : Option Bool} :
    (if c then r else some false) = some true ↔ c ∧ r = some true := by
  split <;> simp [*]

namespace Form

/-- A comparison looks at the parts of the first form only. -/
theorem compare_congr (h : ∀ x ∈ k.parts, ∀ y, f x y = g x y) : k.compare f m = k.compare g m := by
  cases k with
  | items xs =>
    cases m with
    | items ys =>
      exact ite_congr rfl (fun _ => allHold_congr fun p hp => h p.1 (List.of_mem_zip hp).1 p.2) fun _ => rfl
    | _ => rfl
  | entries xs =>
    cases m with
    | entries ys =>
      refine ite_congr rfl (fun _ => allHold_congr fun p hp => compareEntry_congr ?_) fun _ => rfl
      exact h p.2 (List.mem_map_of_mem hp)
    | _ => rfl
  | scalar v => cases m <;> rfl

/-- Where the parts can be compared, so can the forms. -/
theorem exists_compare (h : ∀ x ∈ k.parts, ∀ y, ∃ b, f x y = some b) : ∃ b, k.compare f m = some b := by
  cases k with
  | items xs =>
    cases m with
    | items ys => exact exists_ite (exists_allHold fun p hp => h p.1 (List.of_mem_zip hp).1 p.2)
    | _ => exact ⟨false, rfl⟩
  | entries xs =>
    cases m with
    | entries ys =>
      exact exists_ite (exists_allHold fun p hp => exists_compareEntry (h p.2 (List.mem_map_of_mem hp)))
    | _ => exact ⟨false, rfl⟩
  | scalar v => cases m <;> exact ⟨_, rfl⟩

/-- The comparison finds forms that are the same. Keys are looked up in the second form only: that it has no others is
told by its size. -/
theorem compare_iff (hk : k.Proper) (hm : m.Proper) :
    k.compare f m = some true ↔ k.Same (fun x y => f x y = some true) m := by
  constructor
  · intro h
    cases k with
    | items xs =>
      cases m with
      | items ys =>
        obtain ⟨hlength, h⟩ := ite_iff.mp h
        exact .items (List.forall₂_iff_zip.mpr ⟨hlength, fun hxy => allHold_iff.mp h _ hxy⟩)
      | _ => cases h
    | entries xs =>
      cases m with
      | entries ys =>
        obtain ⟨hlength, h⟩ := ite_iff.mp h
        exact .entries hlength fun p hp => (compareEntry_iff hm).mp (allHold_iff.mp h p hp)
      | _ => cases h
    | scalar v =>
      cases m with
      | scalar w => exact .scalar ((sameScalar_iff hk hm).mp (Option.some.inj h))
      | _ => cases h
  · intro h
    cases h with
    | items h =>
      obtain ⟨hlength, h⟩ := List.forall₂_iff_zip.mp h
      exact (if_pos hlength).trans (allHold_iff.mpr fun p hp => h hp)
    | entries hlength h =>
      exact (if_pos hlength).trans (allHold_iff.mpr fun p hp => (compareEntry_iff hm).mpr (h p hp))
    | scalar h => exact congrArg some ((sameScalar_iff hk hm).mpr h)

end Form

end answers

/-! ## The same form -/

namespace Form.Same

variable {R S T : Value → Value → Prop} {k m n : Form}

theorem refl (hk : k.Proper) (h : ∀ x ∈ k.parts, R x x) : k.Same R k := by
  cases k with
  | items xs => exact .items (List.forall₂_same.mpr h)
  | entries xs => exact .entries rfl fun p hp => ⟨p.2, hp, h p.2 (List.mem_map_of_mem hp)⟩
  | scalar v => exact .scalar rfl

/-- As many keys, each once, are the same keys. -/
theorem symm (hk : k.Proper) (hm : m.Proper) (hRS : ∀ x ∈ k.parts, ∀ y ∈ m.parts, R x y → S y x) (h : k.Same R m) :
    m.Same S k := by
  cases h with
  | items h =>
    obtain ⟨hlength, h⟩ := List.forall₂_iff_get.mp h
    refine .items (List.forall₂_iff_get.mpr ⟨hlength.symm, fun i hi hi' => ?_⟩)
    exact hRS _ (List.get_mem _ _) _ (List.get_mem _ _) (h i hi' hi)
  | @entries xs ys hlength h =>
    have hsub : xs.map (·.1) ⊆ ys.map (·.1) := by
      intro key hkey
      obtain ⟨p, hp, rfl⟩ := List.mem_map.mp hkey
      obtain ⟨y, hy, -⟩ := h p hp
      exact List.mem_map.mpr ⟨(p.1, y), hy, rfl⟩
    have hperm : (xs.map (·.1)).Perm (ys.map (·.1)) :=
      (hk.subperm hsub).perm_of_length_le (by rw [List.length_map, List.length_map, hlength])
    refine .entries hlength.symm fun q hq => ?_
    obtain ⟨p, hp, hkey⟩ := List.mem_map.mp (hperm.mem_iff.mpr (List.mem_map_of_mem hq))
    obtain ⟨y, hy, hR⟩ := h p hp
    rw [hkey] at hy
    obtain rfl : y = q.2 := Option.some.inj ((lookup_eq_some_of_mem hm hy).symm.trans (lookup_eq_some_of_mem hm hq))
    refine ⟨p.2, hkey ▸ hp, hRS _ (List.mem_map_of_mem hp) _ (List.mem_map_of_mem hq) hR⟩
  | scalar h => exact .scalar h.symm

theorem trans (hRST : ∀ x ∈ k.parts, ∀ y ∈ m.parts, ∀ z ∈ n.parts, R x y → S y z → T x z) (h : k.Same R m)
    (h' : m.Same S n) : k.Same T n := by
  cases h with
  | items h =>
    cases h' with
    | items h' =>
      obtain ⟨hlength, h⟩ := List.forall₂_iff_get.mp h
      obtain ⟨hlength', h'⟩ := List.forall₂_iff_get.mp h'
      refine .items (List.forall₂_iff_get.mpr ⟨hlength.trans hlength', fun i hi hi' => ?_⟩)
      have hmiddle := hlength ▸ hi
      exact hRST _ (List.get_mem _ _) _ (List.get_mem _ _) _ (List.get_mem _ _) (h i hi hmiddle) (h' i hmiddle hi')
  | entries hlength h =>
    cases h' with
    | entries hlength' h' =>
      refine .entries (hlength.trans hlength') fun p hp => ?_
      obtain ⟨y, hy, hR⟩ := h p hp
      obtain ⟨z, hz, hS⟩ := h' _ hy
      exact ⟨z, hz, hRST _ (List.mem_map_of_mem hp) _ (List.mem_map_of_mem hy) _ (List.mem_map_of_mem hz) hR hS⟩
  | scalar h =>
    cases h' with
    | scalar h' => exact .scalar (h.trans h')

end Form.Same

/-! ## Values that do not contain themselves -/

/-- A value is an item of a list, or stands under a key. -/
def PartOf (s : Store) (w v : Value) : Prop := w ∈ (s.form v).parts

/-- A value that can be compared with others of its kind: nothing in it contains itself, NaN is nowhere in it, and its
tables have only texts as keys. -/
structure Regular (s : Store) (v : Value) : Prop where
  acyclic : ∀ w, Relation.ReflTransGen s.PartOf w v → ¬ Relation.TransGen s.PartOf w w
  number : ∀ x, Relation.ReflTransGen s.PartOf (.number x) v → x ≠ .nan
  textKeys : ∀ id, Relation.ReflTransGen s.PartOf (.table id) v → ∀ e ∈ s.table id, ∃ t, e.1 = .text t

/-- No container has a key twice: setting an entry whose key is there changes the entry. -/
structure DistinctKeys (s : Store) : Prop where
  mapping : ∀ id, ((s.mapping id).map (·.1)).Nodup
  table : ∀ id, ((s.table id).map (·.1)).Nodup

/-- What has parts is in the store. -/
theorem mem_containers_of_partOf (h : s.PartOf w v) : v ∈ s.containers := by
  by_contra hout
  unfold PartOf at h
  cases v with
  | list id =>
    change w ∈ s.list id at h
    rw [list_eq_nil hout] at h
    cases h
  | mapping id =>
    change w ∈ (s.entriesOf (.mapping id)).map (·.2) at h
    rw [entriesOf_mapping_eq_nil hout] at h
    cases h
  | table id =>
    change w ∈ (s.entriesOf (.table id)).map (·.2) at h
    rw [entriesOf_eq_nil hout] at h
    cases h
  | _ => cases h

namespace Regular

theorem part (h : s.Regular v) (hw : s.PartOf w v) : s.Regular w where
  acyclic u hu := h.acyclic u (hu.tail hw)
  number x hx := h.number x (hx.tail hw)
  textKeys id hid := h.textKeys id (hid.tail hw)

/-- Nothing is inside of itself whose parts are not. -/
theorem of_parts (hparts : ∀ w, s.PartOf w v → s.Regular w) (hnumber : ∀ x, v = .number x → x ≠ .nan)
    (htextKeys : ∀ id, v = .table id → ∀ e ∈ s.table id, ∃ t, e.1 = .text t) : s.Regular v where
  acyclic u hu := by
    obtain heq | ⟨w, huw, hw⟩ := hu.cases_tail
    · intro hself
      obtain ⟨w, hback, hw⟩ := Relation.TransGen.tail'_iff.mp hself
      exact (hparts w (heq ▸ hw)).acyclic u hback hself
    · exact (hparts w hw).acyclic u huw
  number x hx := by
    obtain heq | ⟨w, hxw, hw⟩ := hx.cases_tail
    · exact hnumber x heq
    · exact (hparts w hw).number x hxw
  textKeys id hid := by
    obtain heq | ⟨w, hidw, hw⟩ := hid.cases_tail
    · exact htextKeys id heq
    · exact (hparts w hw).textKeys id hidw

theorem scalar (hform : s.form v = .scalar v) (hv : v ≠ .number .nan) : s.Regular v := by
  refine .of_parts (fun w hw => ?_) (fun x hx => ?_) fun id hid => ?_
  · unfold PartOf at hw
    rw [hform] at hw
    cases hw
  · exact fun hnan => hv (hx.trans (congrArg Value.number hnan))
  · subst hid
    cases hform

/-- There is an end to the parts of parts: a value is not among the containers inside of one of its parts, so these are
fewer. -/
theorem acc (h : s.Regular v) : Acc s.PartOf v := by
  classical
  induction hn : (s.containers.filter (Relation.ReflTransGen s.PartOf · v)).card using Nat.strong_induction_on
    generalizing v with
  | _ n ih =>
    refine .intro v fun w hw => ih _ ?_ (h.part hw) rfl
    rw [← hn]
    refine Finset.card_lt_card (Finset.ssubset_iff_of_subset ?_ |>.mpr ⟨v, ?_, ?_⟩)
    · intro u hu
      obtain ⟨hmem, hwithin⟩ := Finset.mem_filter.mp hu
      exact Finset.mem_filter.mpr ⟨hmem, hwithin.tail hw⟩
    · exact Finset.mem_filter.mpr ⟨mem_containers_of_partOf hw, .refl⟩
    · intro hv
      exact h.acyclic v .refl (.tail' (Finset.mem_filter.mp hv).2 hw)

theorem proper (hkeys : s.DistinctKeys) (h : s.Regular v) : (s.form v).Proper := by
  cases v with
  | list id => trivial
  | mapping id =>
    change (((s.mapping id).map _).map _).Nodup
    rw [List.map_map]
    exact hkeys.mapping id
  | table id =>
    have hsplit : (s.entriesOf (.table id)).map (·.1) = ((s.table id).map (·.1)).map s.keyText := by
      rw [List.map_map]
      exact List.map_map
    change ((s.entriesOf (.table id)).map (·.1)).Nodup
    rw [hsplit]
    refine (hkeys.table id).map_on fun key hkey key' hkey' heq => ?_
    obtain ⟨e, he, rfl⟩ := List.mem_map.mp hkey
    obtain ⟨e', he', rfl⟩ := List.mem_map.mp hkey'
    obtain ⟨t, ht⟩ := h.textKeys id .refl e he
    obtain ⟨t', ht'⟩ := h.textKeys id .refl e' he'
    rw [ht, ht'] at heq ⊢
    exact congrArg Value.text heq
  | number x => exact fun heq => h.number x .refl (Value.number.inj heq)
  | _ => exact fun h => nomatch h

end Regular

/-! ## Equality as a relation -/

/-- Values are equal, and finding that out comes to an end. -/
def Equal (s : Store) (v w : Value) : Prop := s.equal? v w = some true

variable {u : Value}

/-- No comparison of such a value meets itself again, so those around it do not matter. -/
theorem equalWithin_fresh {n : Nat} {visiting : List (Value × Value)} (h : s.Regular v)
    (hvisiting : ∀ p ∈ visiting, ¬ Relation.ReflTransGen s.PartOf p.1 v) :
    s.equalWithin n visiting v w = s.equalWithin n [] v w := by
  induction n generalizing v w visiting with
  | zero => rfl
  | succ n ih =>
    have hnot : ¬ visiting.contains (v, w) = true := fun hmem =>
      hvisiting (v, w) (List.contains_iff_mem.mp hmem) .refl
    have hnil : ¬ ([] : List (Value × Value)).contains (v, w) = true := Bool.false_ne_true
    have hfresh (around : List (Value × Value)) (haround : ∀ p ∈ around, ¬ Relation.ReflTransGen s.PartOf p.1 v) (x : Value)
        (hx : s.PartOf x v) : ∀ p ∈ (v, w) :: around, ¬ Relation.ReflTransGen s.PartOf p.1 x :=
      List.forall_mem_cons.mpr ⟨fun hback => h.acyclic v .refl (.tail' hback hx),
        fun p hp hback => haround p hp (hback.tail hx)⟩
    rw [equalWithin_succ, equalWithin_succ, if_neg hnot, if_neg hnil, compareParts_eq, compareParts_eq]
    refine Form.compare_congr fun x hx y => ?_
    rw [ih (h.part hx) (hfresh visiting hvisiting x hx), ih (h.part hx) (hfresh [] (List.forall_mem_nil _) x hx)]

/-- Equality of such a value is told by its form and the equality of its parts. -/
theorem equal?_eq (h : s.Regular v) (w : Value) : s.equal? v w = (s.form v).compare s.equal? (s.form w) := by
  have hnil : ¬ ([] : List (Value × Value)).contains (v, w) = true := Bool.false_ne_true
  rw [← equalWithin_eq_equal? (Nat.le_succ _), equalWithin_succ, if_neg hnil, compareParts_eq]
  refine Form.compare_congr fun x hx y => equalWithin_fresh (h.part hx) ?_
  exact List.forall_mem_singleton.mpr fun hback => h.acyclic v .refl (.tail' hback hx)

theorem exists_equal? (h : s.Regular v) (w : Value) : ∃ b, s.equal? v w = some b := by
  induction h.acc generalizing w with
  | intro v _ ih =>
    rw [equal?_eq h]
    exact Form.exists_compare fun x hx y => ih x hx (h.part hx) y

theorem equal_iff (hkeys : s.DistinctKeys) (hv : s.Regular v) (hw : s.Regular w) :
    s.Equal v w ↔ (s.form v).Same s.Equal (s.form w) := by
  unfold Equal
  rw [equal?_eq hv]
  exact Form.compare_iff (hv.proper hkeys) (hw.proper hkeys)

theorem Equal.refl (hkeys : s.DistinctKeys) (h : s.Regular v) : s.Equal v v := by
  induction h.acc with
  | intro v _ ih => exact (equal_iff hkeys h h).mpr (.refl (h.proper hkeys) fun x hx => ih x hx (h.part hx))

theorem Equal.symm (hkeys : s.DistinctKeys) (hv : s.Regular v) (hw : s.Regular w) (h : s.Equal v w) : s.Equal w v := by
  induction hv.acc generalizing w with
  | intro v _ ih =>
    refine (equal_iff hkeys hw hv).mpr (((equal_iff hkeys hv hw).mp h).symm (hv.proper hkeys) (hw.proper hkeys) ?_)
    exact fun x hx y hy hxy => ih x hx (hv.part hx) (hw.part hy) hxy

theorem Equal.trans (hkeys : s.DistinctKeys) (hv : s.Regular v) (hw : s.Regular w) (hu : s.Regular u) (h : s.Equal v w)
    (h' : s.Equal w u) : s.Equal v u := by
  induction hv.acc generalizing w u with
  | intro v _ ih =>
    refine (equal_iff hkeys hv hu).mpr (((equal_iff hkeys hv hw).mp h).trans ?_ ((equal_iff hkeys hw hu).mp h'))
    exact fun x hx y hy z hz hxy hyz => ih x hx (hv.part hx) (hw.part hy) (hu.part hz) hxy hyz

/-- Equal values are equal to the same values. -/
theorem equal?_congr {v' w' : Value} (hkeys : s.DistinctKeys) (hv : s.Regular v) (hv' : s.Regular v') (hw : s.Regular w)
    (hw' : s.Regular w') (hvv' : s.Equal v v') (hww' : s.Equal w w') : s.equal? v w = s.equal? v' w' := by
  obtain ⟨b, hb⟩ := exists_equal? hv w
  obtain ⟨c, hc⟩ := exists_equal? hv' w'
  have hforth : s.Equal v w → s.Equal v' w' := fun h =>
    (hvv'.symm hkeys hv hv').trans hkeys hv' hv hw' (h.trans hkeys hv hw hw' hww')
  have hback : s.Equal v' w' → s.Equal v w := fun h =>
    hvv'.trans hkeys hv hv' hw (h.trans hkeys hv' hw' hw (hww'.symm hkeys hw hw'))
  unfold Equal at hforth hback
  simp only [hb, hc, Option.some_inj] at hforth hback
  rw [hb, hc, Bool.eq_iff_iff.mpr ⟨hforth, hback⟩]

theorem equal_list {i j : ListId} (hkeys : s.DistinctKeys) (hi : s.Regular (.list i)) (hj : s.Regular (.list j)) :
    s.Equal (.list i) (.list j) ↔ List.Forall₂ s.Equal (s.list i) (s.list j) := by
  refine (equal_iff hkeys hi hj).trans ⟨fun h => ?_, .items⟩
  cases h with
  | items h => exact h

/-! ## The count of functions -/

namespace Recounted

variable {t : Store}

theorem form_eq (h : s.Recounted t) : t.form = s.form := by
  have hentries := h.entriesOf_eq
  obtain ⟨n, rfl⟩ := h
  funext v
  cases v with
  | mapping id => exact congrArg Form.entries (hentries (.mapping id))
  | table id => exact congrArg Form.entries (hentries (.table id))
  | _ => rfl

theorem equal?_eq (h : s.Recounted t) : t.equal? = s.equal? := by
  have hwithin (n : Nat) : t.equalWithin n = s.equalWithin n := by
    induction n with
    | zero => rfl
    | succ n ih =>
      funext visiting v w
      rw [equalWithin_succ, equalWithin_succ, compareParts_eq, compareParts_eq, h.form_eq, ih]
  funext v w
  rw [equal?, equal?, h.depth_eq, hwithin]

theorem positionsOf?_eq (h : s.Recounted t) : t.positionsOf? = s.positionsOf? := by
  funext v items
  rw [positionsOf?, positionsOf?, h.equal?_eq]

end Recounted

end Store
end Stencil
