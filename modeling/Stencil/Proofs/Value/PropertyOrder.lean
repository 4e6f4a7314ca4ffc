import Mathlib.Data.List.Sort
import Stencil.Value.Datum

/-!
The order of properties, told without setting one after another: array indices come first, in ascending order, and
the other keys follow as they were written.
-/

namespace Stencil

variable {α β : Type}

/-- The keys of both entries are array indices, the first the smaller one. -/
def IndexBefore (p q : Text × α) : Prop := ∃ m n, arrayIndex? p.1 = some m ∧ arrayIndex? q.1 = some n ∧ m < n

/-- Entries as they were written, and in the order of properties. -/
def InPropertyOrder (entries ordered : List (Text × α)) : Prop :=
  ∃ indexed, indexed.Perm (entries.filter fun p => (arrayIndex? p.1).isSome) ∧ indexed.Pairwise IndexBefore ∧
    ordered = indexed ++ entries.filter fun p => (arrayIndex? p.1).isNone

theorem IndexBefore.trans {p q r : Text × α} (hpq : IndexBefore p q) (hqr : IndexBefore q r) : IndexBefore p r := by
  obtain ⟨k, m, hp, hq, hkm⟩ := hpq
  obtain ⟨m', n, hq', hr, hmn⟩ := hqr
  obtain rfl : m = m' := Option.some.inj (hq.symm.trans hq')
  exact ⟨k, n, hp, hr, Nat.lt_trans hkm hmn⟩

theorem IndexBefore.asymm {p q : Text × α} (hpq : IndexBefore p q) : ¬ IndexBefore q p := by
  intro hqp
  obtain ⟨m, n, hm, hn, hlt⟩ := hpq.trans hqp
  obtain rfl : m = n := Option.some.inj (hm.symm.trans hn)
  exact Nat.lt_irrefl m hlt

/-- An array index is the number of one key only. -/
theorem arrayIndex?_inj {key key' : Text} {n : Nat} (h : arrayIndex? key = some n) (h' : arrayIndex? key' = some n) :
    key = key' := by
  have hspelled : ∀ {k : Text}, arrayIndex? k = some n → Text.ofNat n = k := by
    intro k hk
    unfold arrayIndex? at hk
    split at hk
    · cases hk
    · dsimp only at hk
      split at hk
      · rename_i hspell
        cases hk
        exact of_decide_eq_true (Bool.and_eq_true_iff.mp hspell).1
      · cases hk
  rw [← hspelled h, hspelled h']

namespace InPropertyOrder

variable {entries ordered ordered' : List (Text × α)}

theorem perm (h : InPropertyOrder entries ordered) : ordered.Perm entries := by
  obtain ⟨indexed, hperm, -, rfl⟩ := h
  have hrest : (entries.filter fun p => (arrayIndex? p.1).isNone) =
      entries.filter fun p => !(arrayIndex? p.1).isSome := by
    congr 1
    funext p
    cases arrayIndex? p.1 <;> rfl
  rw [hrest]
  exact (hperm.append_right _).trans (List.filter_append_perm _ entries)

/-- There is one way to order entries. -/
theorem unique (h : InPropertyOrder entries ordered) (h' : InPropertyOrder entries ordered') : ordered = ordered' := by
  obtain ⟨indexed, hperm, hsorted, rfl⟩ := h
  obtain ⟨indexed', hperm', hsorted', rfl⟩ := h'
  have hindexed : indexed = indexed' :=
    List.Perm.eq_of_pairwise (fun _ _ _ _ hpq hqp => absurd hqp hpq.asymm) hsorted hsorted' (hperm.trans hperm'.symm)
  rw [hindexed]

/-- Other values under the keys do not change the order. -/
theorem map (f : Text × α → Text × β) (hf : ∀ p, (f p).1 = p.1) (h : InPropertyOrder entries ordered) :
    InPropertyOrder (entries.map f) (ordered.map f) := by
  obtain ⟨indexed, hperm, hsorted, rfl⟩ := h
  have hfilter : ∀ test : Option Nat → Bool, (entries.map f).filter (fun p => test (arrayIndex? p.1)) =
      (entries.filter fun p => test (arrayIndex? p.1)).map f := by
    intro test
    rw [List.filter_map]
    simp only [Function.comp_def, hf]
  refine ⟨indexed.map f, ?_, ?_, ?_⟩
  · rw [hfilter (·.isSome)]
    exact hperm.map f
  · refine List.pairwise_map.mpr (hsorted.imp fun hpq => ?_)
    unfold IndexBefore at hpq ⊢
    rw [hf, hf]
    exact hpq
  · rw [hfilter (·.isNone), List.map_append]

end InPropertyOrder

/-- Keys as a mapping has them: each of them once, array indices first, in ascending order. -/
structure KeysInOrder (keys : List Text) : Prop where
  nodup : keys.Nodup
  split : ∃ indexed others : List Text, keys = indexed ++ others ∧
    (indexed.Pairwise fun k l => ∃ m n, arrayIndex? k = some m ∧ arrayIndex? l = some n ∧ m < n) ∧
      (∀ key ∈ indexed, (arrayIndex? key).isSome) ∧ ∀ key ∈ others, arrayIndex? key = none

theorem InPropertyOrder.keys {entries ordered : List (Text × α)} (h : InPropertyOrder entries ordered)
    (hkeys : (entries.map (·.1)).Nodup) : KeysInOrder (ordered.map (·.1)) := by
  refine ⟨((h.perm.map _).nodup_iff).mpr hkeys, ?_⟩
  obtain ⟨indexed, hperm, hsorted, rfl⟩ := h
  refine ⟨_, _, List.map_append, List.pairwise_map.mpr hsorted, ?_, ?_⟩
  · intro key hkey
    obtain ⟨p, hp, rfl⟩ := List.mem_map.mp hkey
    exact (List.mem_filter.mp (hperm.mem_iff.mp hp)).2
  · intro key hkey
    obtain ⟨p, hp, rfl⟩ := List.mem_map.mp hkey
    exact Option.isNone_iff_eq_none.mp (List.mem_filter.mp hp).2

/-- Entries whose keys are in order are where they belong. -/
theorem KeysInOrder.entries {entries : List (Text × α)} (h : KeysInOrder (entries.map (·.1))) :
    InPropertyOrder entries entries := by
  obtain ⟨indexed, others, heq, hsorted, hindexed, hothers⟩ := h.split
  obtain ⟨first, second, rfl, rfl, rfl⟩ := List.map_eq_append_iff.mp heq
  rw [List.forall_mem_map] at hindexed hothers
  have hsome : (first ++ second).filter (fun p => (arrayIndex? p.1).isSome) = first := by
    rw [List.filter_append, List.filter_eq_self.mpr hindexed, List.filter_eq_nil_iff.mpr, List.append_nil]
    intro p hp
    simp [hothers p hp]
  have hnone : (first ++ second).filter (fun p => (arrayIndex? p.1).isNone) = second := by
    have hfirst : first.filter (fun p => (arrayIndex? p.1).isNone) = [] := by
      refine List.filter_eq_nil_iff.mpr fun p hp => ?_
      obtain ⟨n, hn⟩ := Option.isSome_iff_exists.mp (hindexed p hp)
      simp [hn]
    rw [List.filter_append, hfirst, List.nil_append, List.filter_eq_self]
    intro p hp
    rw [hothers p hp]
    rfl
  have hbefore : first.Pairwise IndexBefore := by
    unfold IndexBefore
    exact List.pairwise_map.mp hsorted
  exact ⟨first, by rw [hsome], hbefore, by rw [hnone]⟩

namespace Properties

variable {key : Text} {n : Nat} {slot : Slot} {indexed rest done ps : Properties}

/-- A new array index takes its place among those that are there, before all other keys. -/
theorem insertIndex_append (slot : Slot) (hkey : arrayIndex? key = some n) (hrest : ∀ p ∈ rest, arrayIndex? p.1 = none)
    (hsorted : indexed.Pairwise IndexBefore) (hnew : ∀ p ∈ indexed, ∃ m, arrayIndex? p.1 = some m ∧ m ≠ n) :
    ∃ indexed', insertIndex key n slot (indexed ++ rest) = indexed' ++ rest ∧
      indexed'.Perm ((key, slot) :: indexed) ∧ indexed'.Pairwise IndexBefore := by
  induction indexed with
  | nil =>
    refine ⟨[(key, slot)], ?_, .refl _, List.pairwise_singleton _ _⟩
    cases rest with
    | nil => rfl
    | cons q rest =>
      rw [List.nil_append, insertIndex, hrest q List.mem_cons_self]
      rfl
  | cons p indexed ih =>
    obtain ⟨⟨m, hm, hne⟩, hnew⟩ := List.forall_mem_cons.mp hnew
    obtain ⟨hp, hsorted⟩ := List.pairwise_cons.mp hsorted
    rw [List.cons_append, insertIndex, hm]
    dsimp only
    by_cases hlt : m < n
    · obtain ⟨indexed', hinsert, hperm, hsorted'⟩ := ih hsorted hnew
      rw [if_pos hlt, hinsert]
      refine ⟨p :: indexed', rfl, (hperm.cons p).trans (.swap _ _ _), List.pairwise_cons.mpr ⟨?_, hsorted'⟩⟩
      intro q hq
      rcases List.mem_cons.mp (hperm.mem_iff.mp hq) with rfl | hq
      · exact ⟨m, n, hm, hkey, hlt⟩
      · exact hp q hq
    · have hfirst : IndexBefore (key, slot) p := ⟨n, m, hkey, hm, by omega⟩
      rw [if_neg hlt]
      refine ⟨(key, slot) :: p :: indexed, rfl, .refl _, ?_⟩
      refine List.pairwise_cons.mpr ⟨fun q hq => ?_, List.pairwise_cons.mpr ⟨hp, hsorted⟩⟩
      rcases List.mem_cons.mp hq with rfl | hq
      · exact hfirst
      · exact hfirst.trans (hp q hq)

theorem get?_eq_none (h : key ∉ ps.map (·.1)) : ps.get? key = none := by
  refine List.lookup_eq_none_iff.mpr fun p hp => ?_
  have hne : key ≠ p.1 := fun heq => h (heq ▸ List.mem_map_of_mem hp)
  simpa using hne

/-- Setting a property that is not there keeps the order. -/
theorem set_ordered (h : InPropertyOrder done ps) (hnew : key ∉ done.map (·.1)) :
    InPropertyOrder (done ++ [(key, slot)]) (ps.set key slot) := by
  have habsent : key ∉ ps.map (·.1) := fun hkey => hnew ((h.perm.map _).mem_iff.mp hkey)
  unfold set
  rw [get?_eq_none habsent, Option.isSome_none, if_neg Bool.false_ne_true]
  obtain ⟨indexed, hperm, hsorted, rfl⟩ := h
  unfold InPropertyOrder
  rw [List.filter_append, List.filter_append]
  cases hkey : arrayIndex? key with
  | none =>
    refine ⟨indexed, ?_, hsorted, ?_⟩
    · simpa [hkey] using hperm
    · simp [hkey]
  | some n =>
    have hindexed : ∀ p ∈ indexed, ∃ m, arrayIndex? p.1 = some m ∧ m ≠ n := by
      intro p hp
      obtain ⟨hdone, hsome⟩ := List.mem_filter.mp (hperm.mem_iff.mp hp)
      obtain ⟨m, hm⟩ := Option.isSome_iff_exists.mp hsome
      refine ⟨m, hm, ?_⟩
      rintro rfl
      exact hnew (arrayIndex?_inj hkey hm ▸ List.mem_map_of_mem hdone)
    have hrest : ∀ p ∈ done.filter fun p => (arrayIndex? p.1).isNone, arrayIndex? p.1 = none :=
      fun p hp => Option.isNone_iff_eq_none.mp (List.mem_filter.mp hp).2
    obtain ⟨indexed', hinsert, hperm', hsorted'⟩ := insertIndex_append slot hkey hrest hsorted hindexed
    refine ⟨indexed', ?_, hsorted', ?_⟩
    · refine hperm'.trans ((hperm.cons _).trans ?_)
      simpa [hkey] using (List.perm_append_singleton _ _).symm
    · simpa [hkey] using hinsert

/-- Properties under different keys, set one after another, are in order. -/
theorem ofList_ordered (hkeys : (ps.map (·.1)).Nodup) : InPropertyOrder ps (ofList ps) := by
  have hloop : ∀ (more done : Properties) {acc : Properties}, ((done ++ more).map (·.1)).Nodup → InPropertyOrder done acc →
      InPropertyOrder (done ++ more) (more.foldl (fun (ps : Properties) (p : Text × Slot) => ps.set p.1 p.2) acc) := by
    intro more
    induction more with
    | nil =>
      intro done acc _ hacc
      rwa [List.append_nil]
    | cons p more ih =>
      intro done acc hkeys hacc
      rw [List.append_cons] at hkeys ⊢
      refine ih _ hkeys (set_ordered hacc fun hmem => ?_)
      rw [List.map_append, List.map_append, List.append_assoc] at hkeys
      exact List.disjoint_of_nodup_append hkeys hmem List.mem_cons_self
  exact hloop ps [] hkeys ⟨[], .refl _, .nil, rfl⟩

/-- Properties in order stay as they are. -/
theorem ofList_eq (h : KeysInOrder (ps.map (·.1))) : ofList ps = ps := (ofList_ordered h.nodup).unique h.entries

/-- Whatever is set, the keys of a mapping stay in order. -/
theorem keysInOrder_set (h : KeysInOrder (ps.map (·.1))) (key : Text) (slot : Slot) :
    KeysInOrder ((ps.set key slot).map (·.1)) := by
  by_cases hkey : (ps.get? key).isSome
  · have hkeys : (ps.set key slot).map (·.1) = ps.map (·.1) := by
      unfold set
      rw [if_pos hkey, List.map_map]
      refine List.map_congr_left fun p _ => ?_
      dsimp only [Function.comp_apply]
      split
      · rename_i heq
        exact heq.symm
      · rfl
    rwa [hkeys]
  · have hnew : key ∉ ps.map (·.1) := by
      intro hmem
      obtain ⟨p, hp, rfl⟩ := List.mem_map.mp hmem
      have hnone := List.lookup_eq_none_iff.mp (Option.not_isSome_iff_eq_none.mp hkey) p hp
      simp at hnone
    refine (set_ordered h.entries hnew).keys ?_
    rw [List.map_append]
    refine h.nodup.append (List.nodup_singleton key) ?_
    exact List.disjoint_singleton.mpr hnew

/-- The keys of every mapping that is made by setting properties are in order. -/
theorem keysInOrder_ofList (entries : List (Text × Slot)) : KeysInOrder ((ofList entries).map (·.1)) := by
  have hloop : ∀ (entries : List (Text × Slot)) {ps : Properties}, KeysInOrder (ps.map (·.1)) →
      KeysInOrder ((entries.foldl (fun (ps : Properties) (p : Text × Slot) => ps.set p.1 p.2) ps).map (·.1)) := by
    intro entries
    induction entries with
    | nil => exact id
    | cons p entries ih => exact fun hps => ih (keysInOrder_set hps p.1 p.2)
  exact hloop entries ⟨.nil, [], [], rfl, .nil, by simp, by simp⟩

end Properties

theorem lookup_eq_some_of_mem {entries : List (Text × α)} (hkeys : (entries.map (·.1)).Nodup) {key : Text} {a : α}
    (h : (key, a) ∈ entries) : entries.lookup key = some a := by
  obtain ⟨before, after, rfl⟩ := List.append_of_mem h
  refine List.lookup_eq_some_iff.mpr ⟨before, after, rfl, fun p hp => ?_⟩
  rw [List.map_append, List.map_cons] at hkeys
  have hne : key ≠ p.1 := fun heq =>
    List.disjoint_of_nodup_append hkeys (List.mem_map_of_mem hp) (heq ▸ List.mem_cons_self)
  simpa using hne

/-- Entries under different keys make the mapping that has them in the order of properties. -/
theorem Datum.mappingOf_eq {entries ordered : List (Text × Datum)} (hkeys : (entries.map (·.1)).Nodup)
    (h : InPropertyOrder entries ordered) : Datum.mappingOf entries = .mapping ordered := by
  have hofList : Properties.ofList (entries.map fun p => (p.1, .data .none)) = ordered.map fun p => (p.1, .data .none) := by
    refine (Properties.ofList_ordered ?_).unique (h.map _ fun _ => rfl)
    rwa [List.map_map]
  have hlookup : ∀ p ∈ ordered, (entries.reverse.lookup p.1).map (p.1, ·) = some p := by
    intro p hp
    have hmem : (p.1, p.2) ∈ entries.reverse := List.mem_reverse.mpr (h.perm.mem_iff.mp hp)
    rw [lookup_eq_some_of_mem (by rwa [List.map_reverse, List.nodup_reverse]) hmem]
    rfl
  change mapping ((Properties.ofList (entries.map fun p => (p.1, .data .none))).keys.filterMap
    fun key => (entries.reverse.lookup key).map (key, ·)) = _
  rw [hofList, Properties.keys, List.map_map, List.filterMap_map]
  congr 1
  refine (List.filterMap_congr (g := some) fun p hp => hlookup p hp).trans List.filterMap_some

end Stencil
