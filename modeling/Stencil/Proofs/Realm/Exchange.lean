import Stencil.Proofs.Correspondence.Identity
import Stencil.Proofs.Realm.Shift

/-! Two computations that share the same few things can change places. The things that each makes lie in a block of its
own, and the blocks change places with them. -/
namespace Stencil

open Correspondence

/-! ## Blocks that change places -/

/-- Where a place goes if the block from `n` to `a` and the one after it, as long as that from `n` to `b`, change
places. -/
def exchanged (n a b i : Nat) : Nat :=
  if i < n then i else if i < a then b + (i - n) else if i < a + (b - n) then n + (i - a) else i

section places

variable {n a b i j : Nat}

theorem exchanged_below (hi : i < n) : exchanged n a b i = i := if_pos hi

theorem exchanged_first (hn : n ≤ i) (hi : i < a) : exchanged n a b i = b + (i - n) := by
  unfold exchanged
  rw [if_neg (Nat.not_lt.mpr hn), if_pos hi]

theorem exchanged_second (hna : n ≤ a) (ha : a ≤ i) (hi : i < a + (b - n)) : exchanged n a b i = n + (i - a) := by
  unfold exchanged
  rw [if_neg (Nat.not_lt.mpr (hna.trans ha)), if_neg (Nat.not_lt.mpr ha), if_pos hi]

theorem exchanged_above (hna : n ≤ a) (hi : a + (b - n) ≤ i) : exchanged n a b i = i := by
  have ha : a ≤ i := (Nat.le_add_right ..).trans hi
  unfold exchanged
  rw [if_neg (Nat.not_lt.mpr (hna.trans ha)), if_neg (Nat.not_lt.mpr ha), if_neg (Nat.not_lt.mpr hi)]

/-- From some place on, all stays where it is. -/
theorem eq_of_exchanged {m m' : Nat} (hna : n ≤ a) (h : ∀ k, exchanged n a b (m + k) = m' + k) : m = m' := by
  have hbeyond := h (a + b)
  rw [exchanged_above hna (by omega)] at hbeyond
  omega

theorem exchanged_inj (hna : n ≤ a) (hnb : n ≤ b) (h : exchanged n a b i = exchanged n a b j) : i = j := by
  unfold exchanged at h
  split_ifs at h <;> omega

end places

namespace Realm

/-- A scope of a realm corresponds to itself. -/
theorem OwnsScope.scopeAlike {ρ : Realm} {s : Store} {i : ScopeId} {x : Scope} (h : ρ.OwnsScope s i x) (p : Policy)
    (hp : ∀ v, p.Accepts v) : (identity p).ScopeAlike i i x x := by
  have hvars : List.Forall₂ (identity p).NamedAlike x.vars x.vars := named_self fun q _ => hp q.2
  refine ⟨?_, fun k hk => (h.parent k hk).1, fun k hk => (h.parent k hk).1, fun _ => hvars, fun n _ => rel_lookup hvars n⟩
  cases x.parent with
  | none => exact .none
  | some k => exact .some rfl

section exchange

variable (ρ : Realm) (features : Features) {a b : Store} (ha : ρ.start.Grows a) (hb : ρ.start.Grows b)

/-- Two blocks change places, and all else stays where it is. -/
def Exchanged (a b : Store) : Pairing := fun x i j => exchanged (ρ.start.taken x) (a.taken x) (b.taken x) i = j

theorem functional_exchanged : (ρ.Exchanged a b).Functional := by
  rintro x i j k rfl h
  exact h

include ha hb in
theorem injective_exchanged : (ρ.Exchanged a b).Injective := by
  intro x i j k hi hj
  exact exchanged_inj (ha x) (hb x) (hi.trans hj.symm)

def exchange : Correspondence :=
  .ofPairing features (ρ.Exchanged a b) ⟨functional_exchanged ρ, injective_exchanged ρ ha hb⟩

end exchange

/-- Two computations from one store, one after the other, in both orders: the first to `a` and on to `s`, the second to
`b` and on to `t`. No macro was defined in a scope that they share. -/
structure Crossing (ρ : Realm) (features : Features) (a b s t : Store) : Prop where
  closed : whole.Rules ρ.start
  apart : ∀ m ∈ ρ.start.macros, (.scope, m.scope) ∉ ρ.shared
  first : ρ.Rules a
  then_second : (ρ.later first.kept).Rules s
  second : ρ.start.Extends b
  then_first : b.Extends t
  firstAlike : ∃ κ, (ρ.shift features (.refl _) second).Agree κ a t
  secondAlike : ∃ κ, (ρ.shift features first.kept (.refl _)).Agree κ s b

/-- What is known of the stores in the end: all names, in the scopes that are not shared. -/
def unshared (ρ : Realm) (s : Store) : Known := ⟨fun _ => Set.univ, {i | i < s.scopes.size ∧ (.scope, i) ∉ ρ.shared}⟩

namespace Crossing

variable {ρ : Realm} {features : Features} {a b s t : Store} (h : ρ.Crossing features a b s t)
include h

/-- Each makes as many things where it comes first as where it comes second. -/
theorem taken_eq (x : Area) : ∃ k l, a.taken x = ρ.start.taken x + k ∧ t.taken x = b.taken x + k ∧
    s.taken x = a.taken x + l ∧ b.taken x = ρ.start.taken x + l := by
  obtain ⟨_, hfirst⟩ := h.firstAlike
  obtain ⟨_, hsecond⟩ := h.secondAlike
  obtain ⟨k, ha, ht⟩ := taken_shift hfirst h.first.grows x
  obtain ⟨l, hs, hb⟩ := taken_shift hsecond h.then_second.grows x
  exact ⟨k, l, ha, ht, hs, hb⟩

/-- The correspondence of the stores in the end. -/
abbrev correspondence : Correspondence := ρ.exchange features h.first.grows h.second.taken_le

theorem refines_old : whole.Refines ρ.start (identity (.free features)) h.correspondence where
  rel := by
    rintro ⟨x, i⟩ hp _ rfl
    exact exchanged_below (h.closed.lt hp)
  good _ := trivial

theorem refines_shared {x : Area} {i : Nat} (hi : (x, i) ∈ ρ.shared) : h.correspondence.rel x i i :=
  exchanged_below (ρ.taken hi)

theorem refines_first : ρ.Refines a (ρ.shift features (.refl _) h.second) h.correspondence where
  rel := by
    rintro ⟨x, i⟩ hp j (⟨k, hi, hj⟩ | ⟨hi, rfl⟩)
    · dsimp only at hi
      subst hi hj
      refine (exchanged_first (Nat.le_add_right ..) (h.first.lt hp)).trans ?_
      rw [Nat.add_sub_cancel_left]
    · exact h.refines_shared hi
  good _ := trivial

theorem refines_second :
    (ρ.later h.first.kept).Refines s (ρ.shift features h.first.kept (.refl _)) h.correspondence where
  rel := by
    rintro ⟨x, i⟩ hp j (⟨k, hi, hj⟩ | ⟨hi, rfl⟩)
    · dsimp only at hi
      subst hi hj
      have hlt : a.taken x + k < s.taken x := h.then_second.lt hp
      obtain ⟨m, l, -, -, hs, hb⟩ := h.taken_eq x
      refine (exchanged_second (h.first.grows x) (Nat.le_add_right ..) (by dsimp only; omega)).trans ?_
      rw [Nat.add_sub_cancel_left]
    · exact h.refines_shared hi
  good _ := trivial

/-- What holds of the things of some kind before the blocks, in the first block and in the second, holds of all. -/
theorem rel_blocks {x : Area} {α : Type} {f : Store → Array α} (hf : ∀ s, (f s).size = s.taken x)
    (hext : ∀ {s t : Store}, s.Extends t → ∀ {i : Nat} {y}, (f s)[i]? = some y → (f t)[i]? = some y)
    {P Q R : Nat → Nat → α → α → Prop}
    (hP : ∀ i j, (ρ.shift features (.refl _) h.second).rel x i j → Option.Rel (P i j) (f a)[i]? (f t)[j]?)
    (hQ : ∀ i j, (ρ.shift features h.first.kept (.refl _)).rel x i j → Option.Rel (Q i j) (f s)[i]? (f b)[j]?)
    (hold : ∀ i y, (f ρ.start)[i]? = some y → R i i y y)
    (hfirst : ∀ i j y z, ρ.start.taken x ≤ i → (f a)[i]? = some y → P i j y z → R i j y z)
    (hsecond : ∀ i j y z, a.taken x ≤ i → (f s)[i]? = some y → Q i j y z → R i j y z) (i j : Nat)
    (hij : h.correspondence.rel x i j) : Option.Rel (R i j) (f s)[i]? (f t)[j]? := by
  obtain ⟨k, l, ha, ht, hs, hb⟩ := h.taken_eq x
  cases hij
  rcases Nat.lt_or_ge i (ρ.start.taken x) with hlt | hge
  · -- before both blocks
    have hy := Array.getElem?_eq_getElem ((hf ρ.start).symm ▸ hlt)
    rw [exchanged_below hlt, hext h.then_second.kept (hext h.first.kept hy), hext h.then_first (hext h.second hy)]
    exact .some (hold i _ hy)
  rcases Nat.lt_or_ge i (a.taken x) with hlt | hge'
  · -- the first block
    rw [exchanged_first hge hlt]
    have hrel := hP i (b.taken x + (i - ρ.start.taken x)) (.inl ⟨i - ρ.start.taken x, by omega, rfl⟩)
    have hy := Array.getElem?_eq_getElem ((hf a).symm ▸ hlt)
    rcases rel_cases hrel with ⟨hnone, _⟩ | ⟨y, z, hy, hz, hyz⟩
    · rw [hy] at hnone
      cases hnone
    · rw [hext h.then_second.kept hy, hz]
      exact .some (hfirst _ _ _ _ hge hy hyz)
  rcases Nat.lt_or_ge i (s.taken x) with hlt | hge''
  · -- the second block
    rw [exchanged_second (by omega) hge' (by omega)]
    have hrel := hQ i (ρ.start.taken x + (i - a.taken x)) (.inl ⟨i - a.taken x, by omega, rfl⟩)
    have hy := Array.getElem?_eq_getElem ((hf s).symm ▸ hlt)
    rcases rel_cases hrel with ⟨hnone, _⟩ | ⟨y, z, hy, hz, hyz⟩
    · rw [hy] at hnone
      cases hnone
    · rw [hy, hext h.then_first hz]
      exact .some (hsecond _ _ _ _ hge' hy hyz)
  · rw [exchanged_above (by omega) (by omega)]
    exact rel_beyond (by rw [hf]; omega) (by rw [hf]; omega)

theorem fresh (x : Area) (k : Nat) : h.correspondence.rel x (s.taken x + k) (t.taken x + k) := by
  obtain ⟨m, l, ha, ht, hs, hb⟩ := h.taken_eq x
  have hplace : exchanged (ρ.start.taken x) (a.taken x) (b.taken x) (s.taken x + k) = s.taken x + k :=
    exchanged_above (by omega) (by omega)
  have hsame : s.taken x = t.taken x := by omega
  exact hplace.trans (congrArg (· + k) hsame)

theorem lists : ∀ i j, h.correspondence.rel .list i j →
    Option.Rel (List.Forall₂ h.correspondence.Alike) s.lists[i]? t.lists[j]? := by
  obtain ⟨_, hfirst⟩ := h.firstAlike
  obtain ⟨_, hsecond⟩ := h.secondAlike
  refine h.rel_blocks (fun _ => rfl) (fun hst _ _ => hst.lists) hfirst.lists hsecond.lists
    (fun i vs hvs => ?_) (fun i j vs ws hi hvs => ?_) fun i j vs ws hi hvs => ?_
  · exact h.refines_old.items (h.closed.lists i (Nat.zero_le _) vs hvs) (items_self fun _ _ _ _ => trivial)
  · exact h.refines_first.items (h.first.lists i hi vs hvs)
  · exact h.refines_second.items (h.then_second.lists i hi vs hvs)

theorem mappings : ∀ i j, h.correspondence.rel .mapping i j →
    Option.Rel (List.Forall₂ (PropertyAlike h.correspondence.rel h.correspondence.good)) s.mappings[i]?
      t.mappings[j]? := by
  obtain ⟨_, hfirst⟩ := h.firstAlike
  obtain ⟨_, hsecond⟩ := h.secondAlike
  refine h.rel_blocks (fun _ => rfl) (fun hst _ _ => hst.mappings) hfirst.mappings hsecond.mappings
    (fun i ps hps => ?_) (fun i j ps qs hi hps => ?_) fun i j ps qs hi hps => ?_
  · exact h.refines_old.properties (h.closed.mappings i (Nat.zero_le _) ps hps) (properties_self fun _ _ _ _ => trivial)
  · exact h.refines_first.properties (h.first.mappings i hi ps hps)
  · exact h.refines_second.properties (h.then_second.mappings i hi ps hps)

theorem tables : ∀ i j, h.correspondence.rel .table i j →
    Option.Rel (List.Forall₂ h.correspondence.EntryAlike) s.tables[i]? t.tables[j]? := by
  obtain ⟨_, hfirst⟩ := h.firstAlike
  obtain ⟨_, hsecond⟩ := h.secondAlike
  refine h.rel_blocks (fun _ => rfl) (fun hst _ _ => hst.tables) hfirst.tables hsecond.tables
    (fun i ds hds => ?_) (fun i j ds es hi hds => ?_) fun i j ds es hi hds => ?_
  · exact h.refines_old.entries rfl (h.closed.tables i (Nat.zero_le _) ds hds)
      (entries_self fun _ _ => ⟨fun _ _ => trivial, fun _ _ => trivial⟩)
  · exact h.refines_first.entries rfl (h.first.tables i hi ds hds)
  · exact h.refines_second.entries rfl (h.then_second.tables i hi ds hds)

theorem scopes : ∀ i j, h.correspondence.rel .scope i j →
    Option.Rel (h.correspondence.ScopeAlike i j) s.scopes[i]? t.scopes[j]? := by
  obtain ⟨_, hfirst⟩ := h.firstAlike
  obtain ⟨_, hsecond⟩ := h.secondAlike
  refine h.rel_blocks (fun _ => rfl) (fun hst _ _ => hst.scopes) hfirst.scopes hsecond.scopes
    (fun i x hx => ?_) (fun i j x y hi hx => ?_) fun i j x y hi hx => ?_
  all_goals have hlt := (Array.getElem?_eq_some_iff.mp hx).1
  · have hown := h.closed.scopes i (has_whole hlt) x hx
    exact h.refines_old.scope rfl hown (hown.scopeAlike _ fun _ _ _ => trivial)
  · exact h.refines_first.scope rfl (h.first.scopes i (.inl ⟨hi, hlt⟩) x hx)
  · exact h.refines_second.scope rfl (h.then_second.scopes i (.inl ⟨hi, hlt⟩) x hx)

omit h in
/-- A scope that was made since the start is not shared. -/
theorem live_unshared {i : ScopeId} (hi : ρ.start.scopes.size ≤ i) (hlt : i < s.scopes.size) : i ∈ (ρ.unshared s).live :=
  ⟨hlt, fun hshared => absurd (ρ.taken hshared) (Nat.not_lt.mpr hi)⟩

theorem macros : ∀ i j, h.correspondence.rel .ofMacro i j →
    Option.Rel (h.correspondence.MacroAlike (ρ.unshared s)) s.macros[i]? t.macros[j]? := by
  obtain ⟨_, hfirst⟩ := h.firstAlike
  obtain ⟨_, hsecond⟩ := h.secondAlike
  have hkept := h.first.kept.trans h.then_second.kept
  refine h.rel_blocks (fun _ => rfl) (fun hst _ _ => hst.macros) hfirst.macros hsecond.macros
    (fun i m hm => ?_) (fun i j m n hi hm => ?_) fun i j m n hi hm => ?_
  · have hhome := h.closed.macros i (Nat.zero_le _) m hm
    have hself : (identity (.free features)).MacroAlike (ρ.unshared s) m m :=
      ⟨rfl, rfl, rfl, rfl, rfl, ⟨hhome.2.trans_le (hkept.taken_le .scope), h.apart m (Array.mem_of_getElem? hm)⟩,
        Set.univ, subset_rfl, m.allowed_free features⟩
    exact h.refines_old.ofMacro rfl hhome hself.live rfl hself
  · have hhome := h.first.macros i hi m hm
    exact h.refines_first.ofMacro rfl hhome
      (live_unshared hhome.1 (hhome.2.trans_le (h.then_second.grows .scope))) rfl
  · have hhome := h.then_second.macros i hi m hm
    exact h.refines_second.ofMacro rfl hhome (live_unshared ((h.first.grows .scope).trans hhome.1) hhome.2) rfl

/-- The stores in the end are the same but for the places of the blocks. -/
theorem agree : h.correspondence.Agree (ρ.unshared s) s t where
  fresh := h.fresh
  lists := h.lists
  mappings := h.mappings
  tables := h.tables
  scopes := h.scopes
  macros := h.macros
  known _ _ _ := .inl trivial
  live _ hi := hi.1
  outer _ ho := nomatch ho
  left := .empty s
  right := .empty t
  still := Store.keepsOutside_empty s

end Crossing
end Realm
end Stencil
