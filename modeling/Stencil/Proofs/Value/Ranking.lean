import Mathlib.Data.List.Perm.Basic
import Mathlib.Data.Prod.Lex
import Stencil.Proofs.Order
import Stencil.Proofs.Sorting.Runs
import Stencil.Value.Ranking

/-!
Numbers rank among each other by size, and everything else by its text. This is one order as long as no text stands
between two numbers that their own texts would order the other way; then the sorted items come in it, and those of equal
rank as they stood.
-/
namespace Stencil

theorem Number.toText_congr {x y : Number} (h : x.eq y = true) : x.toText = y.toText := by
  rcases x with _ | s | ⟨s, g⟩
  · cases h
  · rcases y with _ | t | ⟨t, k⟩
    · cases h
    · rw [beq_iff_eq.mp h]
    · cases h
  · rcases y with _ | t | ⟨t, k⟩
    · cases h
    · cases h
    · have hsigned : signed s g = signed t k := beq_iff_eq.mp h
      have hsame : g = k ∧ (s = t ∨ g = 0) := by
        unfold signed at hsigned
        cases s <;> cases t <;> simp at hsigned ⊢ <;> omega
      obtain ⟨rfl, rfl | rfl⟩ := hsame
      · rfl
      · cases s <;> cases t <;> rfl

namespace SortKey

variable {a b c : SortKey} {keys : List SortKey}

/-- Neither key ranks before the other. -/
def ties (a b : SortKey) : Bool := !a.before b && !b.before a

/-- Keys that rank in one order: no number is NaN, and no text stands between two numbers that their own texts would
order the other way. -/
structure Parted (keys : List SortKey) : Prop where
  proper : .number .nan ∉ keys
  between : ∀ x y t, .number x ∈ keys → .number y ∈ keys → .text t ∈ keys → x.lt y = true →
    Text.before t y.toText = true ∨ Text.before x.toText t = true

/-- The units of a spelling. -/
def units (a : SortKey) : List Nat := a.spelling.map UInt16.toNat

theorem before_units (h : ∀ x y, a = .number x → b ≠ .number y) : a.before b = true ↔ a.units < b.units := by
  have hbefore : a.before b = Text.before a.spelling b.spelling := by
    cases a with
    | text t => rfl
    | number x =>
      cases b with
      | text t => rfl
      | number y => exact absurd rfl (h x y rfl)
  rw [hbefore]
  exact Text.before_iff _ _

theorem before_numbers (x y : Number) : (number x).before (number y) = x.lt y := Number.sub_lt_zero x y

theorem text_before (t : Text) (b : SortKey) : (text t).before b = true ↔ (text t).units < b.units :=
  before_units fun _ _ h => nomatch h

theorem before_text (a : SortKey) (t : Text) : a.before (text t) = true ↔ a.units < (text t).units :=
  before_units fun _ _ _ h => nomatch h

theorem not_text_before (t : Text) (b : SortKey) : (text t).before b = false ↔ b.units ≤ (text t).units := by
  rw [← Bool.not_eq_true, text_before, not_lt]

theorem not_before_text (a : SortKey) (t : Text) : a.before (text t) = false ↔ (text t).units ≤ a.units := by
  rw [← Bool.not_eq_true, before_text, not_lt]

theorem lt_asymm {x y : Number} (h : x.lt y = true) : y.lt x = false := by
  have hx : x ≠ .nan := by
    rintro rfl
    cases h
  have hy : y ≠ .nan := by
    rintro rfl
    cases x <;> cases h
  rw [Number.lt_iff_extent hx hy] at h
  rw [← Bool.not_eq_true, Number.lt_iff_extent hy hx]
  exact h.not_gt

/-- No key ranks both before another and behind it. -/
theorem before_asymm (h : a.before b = true) : b.before a = false := by
  cases a with
  | text t =>
    rw [text_before] at h
    exact (not_before_text b t).mpr h.le
  | number x =>
    cases b with
    | text u =>
      rw [before_text] at h
      exact (not_text_before u _).mpr h.le
    | number y =>
      rw [before_numbers] at h ⊢
      exact lt_asymm h

theorem before_irrefl (a : SortKey) : a.before a = false := by
  cases h : a.before a with
  | false => rfl
  | true => exact h.symm.trans (before_asymm h)

/-! ## Parted keys -/

namespace Parted

variable {x y : Number} {t : Text}

theorem ne_nan (h : Parted keys) (hx : .number x ∈ keys) : x ≠ .nan := by
  rintro rfl
  exact h.proper hx

/-- Two numbers are equal, or a text is before the larger one or behind the smaller one. -/
theorem units_cases (h : Parted keys) (hx : .number x ∈ keys) (hy : .number y ∈ keys) (ht : .text t ∈ keys)
    (hle : y.lt x = false) : (number x).units = (number y).units ∨ (text t).units < (number y).units ∨
      (number x).units < (text t).units := by
  cases hlt : x.lt y with
  | true =>
    rcases h.between x y t hx hy ht hlt with hbefore | hbefore
    · exact Or.inr (Or.inl ((Text.before_iff _ _).mp hbefore))
    · exact Or.inr (Or.inr ((Text.before_iff _ _).mp hbefore))
  | false =>
    have hx' := h.ne_nan hx
    have hy' := h.ne_nan hy
    rw [← Bool.not_eq_true, Number.lt_iff_extent hy' hx', not_lt] at hle
    rw [← Bool.not_eq_true, Number.lt_iff_extent hx' hy', not_lt] at hlt
    have heq : x.eq y = true := (Number.eq_iff_extent hx' hy').mpr (le_antisymm hle hlt)
    have htext : (number x).spelling = (number y).spelling := Number.toText_congr heq
    exact Or.inl (congrArg (List.map UInt16.toNat) htext)

/-- Ranking no later goes on from key to key. -/
theorem le_trans (h : Parted keys) (ha : a ∈ keys) (hb : b ∈ keys) (hc : c ∈ keys) (hab : b.before a = false)
    (hbc : c.before b = false) : c.before a = false := by
  cases a with
  | number x =>
    cases b with
    | number y =>
      cases c with
      | number z =>
        rw [before_numbers, ← Bool.not_eq_true, Number.lt_iff_extent (h.ne_nan hb) (h.ne_nan ha), not_lt] at hab
        rw [before_numbers, ← Bool.not_eq_true, Number.lt_iff_extent (h.ne_nan hc) (h.ne_nan hb), not_lt] at hbc
        rw [before_numbers, ← Bool.not_eq_true, Number.lt_iff_extent (h.ne_nan hc) (h.ne_nan ha), not_lt]
        exact hab.trans hbc
      | text v =>
        rw [before_numbers] at hab
        rw [not_text_before] at hbc ⊢
        rcases h.units_cases ha hb hc hab with heq | hlt | hlt
        · rwa [heq]
        · exact absurd hbc hlt.not_ge
        · exact hlt.le
    | text u =>
      cases c with
      | number z =>
        rw [not_text_before] at hab
        rw [not_before_text] at hbc
        rw [before_numbers]
        by_contra hlt
        rw [Bool.not_eq_false] at hlt
        rcases h.between z x u hc ha hb hlt with hbefore | hbefore
        · exact absurd hab ((Text.before_iff _ _).mp hbefore).not_ge
        · exact absurd hbc ((Text.before_iff _ _).mp hbefore).not_ge
      | text v =>
        rw [not_text_before] at hab hbc ⊢
        exact hab.trans hbc
  | text t =>
    cases b with
    | number y =>
      cases c with
      | number z =>
        rw [not_before_text] at hab ⊢
        rw [before_numbers] at hbc
        rcases h.units_cases hb hc ha hbc with heq | hlt | hlt
        · rwa [← heq]
        · exact hlt.le
        · exact absurd hab hlt.not_ge
      | text v =>
        rw [not_before_text] at hab
        rw [not_text_before] at hbc ⊢
        exact hab.trans hbc
    | text u =>
      rw [not_text_before] at hab
      rw [not_before_text] at hbc ⊢
      exact hab.trans hbc

end Parted

/-- How many of some keys rank before a key. -/
def rank (keys : List SortKey) (a : SortKey) : Nat := keys.countP (·.before a)

/-- A key ranks before another where fewer keys rank before it. -/
theorem Parted.before_iff_rank (h : Parted keys) (ha : a ∈ keys) (hb : b ∈ keys) :
    a.before b = true ↔ rank keys a < rank keys b := by
  -- A key before `c` is before every key that is not before `c`.
  have hmono : ∀ {c d : SortKey}, c ∈ keys → d ∈ keys → d.before c = false → ∀ k ∈ keys, k.before c = true →
      k.before d = true := by
    intro c d hc hd hcd k hk hkc
    by_contra hkd
    rw [Bool.not_eq_true] at hkd
    have hck := h.le_trans hc hd hk hcd hkd
    rw [hkc] at hck
    cases hck
  constructor
  · intro hab
    have himp := hmono ha hb (before_asymm hab)
    unfold rank
    obtain ⟨front, rest, rfl⟩ := List.append_of_mem ha
    have hfront : front.countP (·.before a) ≤ front.countP (·.before b) :=
      List.countP_mono_left fun k hk => himp k (List.mem_append_left _ hk)
    have hrest : rest.countP (·.before a) ≤ rest.countP (·.before b) :=
      List.countP_mono_left fun k hk => himp k (List.mem_append_right _ (List.mem_cons_of_mem _ hk))
    rw [List.countP_append, List.countP_append, List.countP_cons, List.countP_cons, if_pos hab, before_irrefl]
    simp only [Bool.false_eq_true, if_false]
    omega
  · intro hlt
    by_contra hab
    rw [Bool.not_eq_true] at hab
    have hle : rank keys b ≤ rank keys a := List.countP_mono_left (hmono hb ha hab)
    omega

theorem Parted.ties_iff_rank (h : Parted keys) (ha : a ∈ keys) (hb : b ∈ keys) :
    a.ties b = true ↔ rank keys a = rank keys b := by
  unfold ties
  rw [Bool.and_eq_true, Bool.not_eq_true', Bool.not_eq_true', ← Bool.not_eq_true, ← Bool.not_eq_true,
    h.before_iff_rank ha hb, h.before_iff_rank hb ha]
  omega

theorem Parted.of_numbers (h : ∀ a ∈ keys, ∃ x, a = .number x ∧ x ≠ .nan) : Parted keys where
  proper := fun hmem => by
    obtain ⟨x, hx, hne⟩ := h _ hmem
    cases hx
    exact hne rfl
  between _ _ _ _ _ ht := by
    obtain ⟨x, hx, -⟩ := h _ ht
    cases hx

theorem Parted.of_texts (h : ∀ a ∈ keys, ∃ t, a = .text t) : Parted keys where
  proper := fun hmem => by
    obtain ⟨t, ht⟩ := h _ hmem
    cases ht
  between _ _ _ hx := by
    obtain ⟨t, ht⟩ := h _ hx
    cases ht

theorem Parted.of_perm {others : List SortKey} (h : Parted keys) (hperm : keys.Perm others) : Parted others where
  proper := mt hperm.mem_iff.mpr h.proper
  between x y t hx hy ht := h.between x y t (hperm.mem_iff.mpr hx) (hperm.mem_iff.mpr hy) (hperm.mem_iff.mpr ht)

/-- Keys that rank in a circle stand in no order. -/
theorem not_ordered_of_circle (h : keys.Pairwise fun a b => b.before a = false) (ha : a ∈ keys) (hb : b ∈ keys)
    (hc : c ∈ keys) (hab : a.before b = true) (hbc : b.before c = true) (hca : c.before a = true) : False := by
  have hplaces : ∀ (i j : Nat) (hi : i < keys.length) (hj : j < keys.length), keys[i].before keys[j] = true → i < j := by
    intro i j hi hj hbefore
    by_contra hle
    have hnot : keys[i].before keys[j] = false := by
      rcases Nat.eq_or_lt_of_le (Nat.le_of_not_lt hle) with rfl | hlt
      · exact before_irrefl _
      · exact List.pairwise_iff_getElem.mp h j i hj hi hlt
    rw [hbefore] at hnot
    cases hnot
  obtain ⟨i, hi, rfl⟩ := List.mem_iff_getElem.mp ha
  obtain ⟨j, hj, rfl⟩ := List.mem_iff_getElem.mp hb
  obtain ⟨k, hk, rfl⟩ := List.mem_iff_getElem.mp hc
  have := hplaces i j hi hj hab
  have := hplaces j k hj hk hbc
  have := hplaces k i hk hi hca
  omega

end SortKey

/-! ## Sorted items -/

namespace Sorting

variable {α : Type} {key : α → SortKey} {items others : List α}

/-- The items in the order of their keys. -/
def sortBy (key : α → SortKey) (items : List α) : List α :=
  (sort (fun a b => a.1.before b.1) (items.map key).zipIdx).filterMap (items.toArray[·.2]?)

/-- The cell of an item at a position. -/
def cellOf (key : α → SortKey) (item : α × Nat) : SortKey × Nat := (key item.1, item.2)

theorem cells_eq (key : α → SortKey) (items : List α) : (items.map key).zipIdx = items.zipIdx.map (cellOf key) :=
  List.zipIdx_map

/-- What is arranged like the images of some items is the image of an arrangement of them. -/
theorem exists_perm_map {β : Type} {f : α → β} {ys : List β} (h : ys.Perm (items.map f)) :
    ∃ xs : List α, xs.Perm items ∧ xs.map f = ys := by
  have himages : List.Forall₂ (fun y x => y = f x) (items.map f) items :=
    List.forall₂_map_left_iff.mpr (List.forall₂_same.mpr fun _ _ => rfl)
  obtain ⟨xs, hxs, hperm⟩ := List.perm_comp_forall₂ h himages
  have heq : List.Forall₂ (· = ·) ys (xs.map f) := List.forall₂_map_right_iff.mpr hxs
  rw [List.forall₂_eq_eq_eq] at heq
  exact ⟨xs, hperm, heq.symm⟩

/-- Where a cell goes: by the rank of its key, and those of equal rank as they stood. -/
def placeOf (keys : List SortKey) (cell : SortKey × Nat) : Nat ×ₗ Nat := toLex (cell.1.rank keys, cell.2)

theorem positions_rise (items : List α) : items.zipIdx.Pairwise fun a b => a.2 < b.2 := by
  refine List.pairwise_map.mp ?_
  rw [List.zipIdx_map_snd]
  exact List.pairwise_lt_range'

theorem cells_tell {keys : List SortKey} (h : SortKey.Parted keys) :
    Tells (fun a b => a.1.before b.1) (placeOf keys) keys.zipIdx := by
  refine (positions_rise keys).imp_of_mem fun {a b} ha hb hab => ?_
  have hbefore := h.before_iff_rank (List.fst_mem_of_mem_zipIdx hb) (List.fst_mem_of_mem_zipIdx ha)
  rw [Bool.eq_iff_iff, decide_eq_true_iff, hbefore, Prod.Lex.lt_iff]
  simp only [placeOf, ofLex_toLex]
  omega

/-- Sorting picks the items one by one; those of lower rank first, and those of equal rank as they stood. -/
structure Picked (key : α → SortKey) (items : List α) (picked : List (α × Nat)) : Prop where
  sorted : sortBy key items = picked.map Prod.fst
  perm : picked.Perm items.zipIdx
  rising : SortKey.Parted (items.map key) → picked.Pairwise fun a b =>
    (key a.1).rank (items.map key) < (key b.1).rank (items.map key) ∨
      (key a.1).rank (items.map key) = (key b.1).rank (items.map key) ∧ a.2 ≤ b.2

theorem exists_picked (key : α → SortKey) (items : List α) : ∃ picked, Picked key items picked := by
  have hperm := sort_perm (fun a b : SortKey × Nat => a.1.before b.1) (items.map key).zipIdx
  obtain ⟨picked, hpicked, hmap⟩ := exists_perm_map (hperm.trans (.of_eq (cells_eq key items)))
  refine ⟨picked, ?_, hpicked, fun h => ?_⟩
  · have hitem : ∀ item ∈ picked, ((items.toArray[·.2]?) ∘ cellOf key) item = some item.1 := by
      intro item hitem
      rw [Function.comp_apply, List.getElem?_toArray]
      exact List.mem_zipIdx_iff_getElem?.mp (hpicked.mem_iff.mp hitem)
    unfold sortBy
    rw [← hmap, List.filterMap_map, List.filterMap_congr hitem, List.filterMap_eq_map' (f := Prod.fst)]
  · have hplaces := sort_rising (cells_tell h)
    rw [← hmap] at hplaces
    exact (List.pairwise_map.mp hplaces).imp fun {a b} hle => Prod.Lex.le_iff.mp hle

/-- Sorting keeps the items. -/
theorem sortBy_perm (key : α → SortKey) (items : List α) : (sortBy key items).Perm items := by
  obtain ⟨picked, hsorted, hperm, -⟩ := exists_picked key items
  have h := hperm.map Prod.fst
  rwa [List.zipIdx_map_fst, ← hsorted] at h

theorem key_mem {item : α} (h : item ∈ sortBy key items) : key item ∈ items.map key :=
  List.mem_map_of_mem ((sortBy_perm key items).mem_iff.mp h)

/-- The ranks of sorted items rise. -/
theorem ranks_rise (h : SortKey.Parted (items.map key)) :
    (sortBy key items).Pairwise fun v w => (key v).rank (items.map key) ≤ (key w).rank (items.map key) := by
  obtain ⟨picked, hsorted, -, hrising⟩ := exists_picked key items
  rw [hsorted]
  refine List.pairwise_map.mpr ((hrising h).imp fun {a b} hle => ?_)
  omega

/-- No item ranks before an earlier one. -/
theorem sortBy_ordered (h : SortKey.Parted (items.map key)) :
    (sortBy key items).Pairwise fun v w => (key w).before (key v) = false := by
  refine (ranks_rise h).imp_of_mem fun {v w} hv hw hle => ?_
  rw [← Bool.not_eq_true, h.before_iff_rank (key_mem hw) (key_mem hv)]
  omega

/-- Items of equal rank come as they stood. -/
theorem sortBy_stable (h : SortKey.Parted (items.map key)) {item : α} (hitem : item ∈ items) :
    (sortBy key items).filter (fun v => (key item).ties (key v)) = items.filter fun v => (key item).ties (key v) := by
  obtain ⟨picked, hsorted, hperm, hrising⟩ := exists_picked key items
  have hmem : ∀ {v : α × Nat}, v ∈ items.zipIdx → key v.1 ∈ items.map key := fun hv =>
    List.mem_map_of_mem (List.fst_mem_of_mem_zipIdx hv)
  have hties := fun {v : α × Nat} (hv : v ∈ items.zipIdx) =>
    h.ties_iff_rank (List.mem_map_of_mem hitem) (hmem hv)
  have hpicked : (picked.filter fun v => (key item).ties (key v.1)).Pairwise fun a b => a.2 ≤ b.2 := by
    refine List.pairwise_filter.mpr ((hrising h).imp_of_mem fun {a b} ha hb hle htie htie' => ?_)
    have := (hties (hperm.mem_iff.mp ha)).mp htie
    have := (hties (hperm.mem_iff.mp hb)).mp htie'
    omega
  have hzip : (items.zipIdx.filter fun v => (key item).ties (key v.1)).Pairwise fun a b => a.2 ≤ b.2 :=
    ((positions_rise items).filter _).imp Nat.le_of_lt
  have hfilter := List.Perm.eq_of_pairwise ?_ hpicked hzip (hperm.filter _)
  · calc (sortBy key items).filter (fun v => (key item).ties (key v))
        = (picked.filter fun v => (key item).ties (key v.1)).map Prod.fst := by rw [hsorted, List.filter_map]; rfl
      _ = (items.zipIdx.filter fun v => (key item).ties (key v.1)).map Prod.fst := by rw [hfilter]
      _ = (items.zipIdx.map Prod.fst).filter fun v => (key item).ties (key v) := by rw [List.filter_map]; rfl
      _ = items.filter fun v => (key item).ties (key v) := by rw [List.zipIdx_map_fst]
  · intro a b ha hb hab hba
    have ha' := List.mem_zipIdx_iff_getElem?.mp (hperm.mem_iff.mp (List.mem_of_mem_filter ha))
    have hb' := List.mem_zipIdx_iff_getElem?.mp (List.mem_of_mem_filter hb)
    have hplace : a.2 = b.2 := Nat.le_antisymm hab hba
    rw [hplace, hb'] at ha'
    exact Prod.ext (Option.some.inj ha').symm hplace

/-- Sorted rearrangements have keys of equal rank in each place. -/
theorem sortBy_rearranged (h : SortKey.Parted (items.map key)) (hperm : items.Perm others) :
    List.Forall₂ (fun v w => (key v).ties (key w) = true) (sortBy key items) (sortBy key others) := by
  have hkeys : (items.map key).Perm (others.map key) := hperm.map key
  have hrank : ∀ v, (key v).rank (others.map key) = (key v).rank (items.map key) := fun v => (hkeys.countP_eq _).symm
  have hrise := ranks_rise (h.of_perm hkeys)
  simp only [hrank] at hrise
  have hranks : ((sortBy key items).map fun v => (key v).rank (items.map key)).Pairwise (· ≤ ·) :=
    List.pairwise_map.mpr (ranks_rise h)
  have hranks' : ((sortBy key others).map fun v => (key v).rank (items.map key)).Pairwise (· ≤ ·) :=
    List.pairwise_map.mpr hrise
  have hsame := ((sortBy_perm key items).trans hperm).trans (sortBy_perm key others).symm
  have heq := List.Perm.eq_of_pairwise (fun _ _ _ _ => Nat.le_antisymm) hranks hranks' (hsame.map _)
  rw [← List.forall₂_eq_eq_eq, List.forall₂_map_left_iff, List.forall₂_map_right_iff, List.forall₂_iff_zip] at heq
  refine List.forall₂_iff_zip.mpr ⟨heq.1, fun {v w} hvw => ?_⟩
  obtain ⟨hv, hw⟩ := List.of_mem_zip hvw
  exact (h.ties_iff_rank (key_mem hv) (hkeys.mem_iff.mpr (key_mem hw))).mpr (heq.2 hvw)

end Sorting
end Stencil
