import Stencil.Proofs.Correspondence.Run
import Stencil.Proofs.Correspondence.Shape
import Stencil.Proofs.Realm.Running

/-! A computation that shares a few things of a start does the same in all stores that grew from there: what it makes is
moved by as many identities as were taken before it. -/
namespace Stencil

namespace Correspondence

theorem frozen_lt_empty : ∀ {i : ListId}, i ∈ (∅ : Set ListId) → i < Store.empty.lists.size :=
  fun hi => absurd hi (Set.notMem_empty _)

theorem closed_empty : ∀ {i k : ListId}, i ∈ (∅ : Set ListId) → .list k ∈ Store.empty.list i → k ∈ (∅ : Set ListId) :=
  fun hi _ => hi

theorem taken_empty_le {R : Pairing} : ∀ {a : Area} {i j : Nat}, R a i j → a.Stored →
    Store.empty.taken a ≤ i ∧ Store.empty.taken a ≤ j := by
  rintro (_ | _) <;> simp [Store.taken, Store.empty]

/-- The correspondence of what is paired. It has no base, and all names are shown. -/
def ofPairing (features : Features) (R : Pairing) (hR : R.OneToOne) : Correspondence where
  toPolicy := .free features
  rel := R
  functional := hR.functional
  injective := hR.injective
  base := .empty
  frozen := ∅
  frozen_lt := @frozen_lt_empty
  closed := @closed_empty
  apart := @taken_empty_le R
  origin := .empty
  shown := Set.univ
  outer := ∅

end Correspondence

namespace Realm

section shift

variable (ρ : Realm) (features : Features) {u v : Store} (hu : ρ.start.Extends u) (hv : ρ.start.Extends v)

/-- What is shared goes with itself, and what is younger than two stores goes in order. -/
def Shifted (u v : Store) : Pairing := .inOrder ρ.shared u v

include hu hv in
theorem oneToOne_shifted : (ρ.Shifted u v).OneToOne :=
  Pairing.oneToOne_inOrder (fun _ hp => (ρ.taken hp).trans_le (hu.taken_le _))
    fun _ hp => (ρ.taken hp).trans_le (hv.taken_le _)

def shift : Correspondence :=
  .ofPairing features (ρ.Shifted u v) (oneToOne_shifted ρ hu hv)

/-- What is known at first: all names, in the scopes that are shared. -/
def known : Known := ⟨fun _ => Set.univ, {i | (.scope, i) ∈ ρ.shared}⟩

variable {ρ features hu hv}

theorem alike_shared {x : Value} (hx : ∀ p ∈ x.places, p ∈ ρ.shared) : (ρ.shift features hu hv).Alike x x :=
  .self (fun p hp => .inr ⟨hx p hp, rfl⟩) fun _ _ => trivial

/-- A scope that is shared corresponds to itself. -/
theorem scopeAlike_shared {i : ScopeId} (hi : (.scope, i) ∈ ρ.shared) :
    (ρ.shift features hu hv).ScopeAlike i i (ρ.start.scope i) (ρ.start.scope i) := by
  obtain ⟨hparent, hvars⟩ := ρ.closed hi
  have hnamed : List.Forall₂ (ρ.shift features hu hv).NamedAlike (ρ.start.scope i).vars (ρ.start.scope i).vars :=
    List.forall₂_same.mpr fun p hp => ⟨rfl, alike_shared (hvars p hp)⟩
  refine ⟨?_, fun k hk => (hparent k hk).1, fun k hk => (hparent k hk).1, fun _ => hnamed, fun n _ =>
    Correspondence.rel_lookup hnamed n⟩
  cases hp : (ρ.start.scope i).parent with
  | none => exact .none
  | some k => exact .some (.inr ⟨(hparent k hp).2, rfl⟩)

theorem agree_shift : (ρ.shift features hu hv).Agree ρ.known u v where
  fresh a k := .inl ⟨k, rfl, rfl⟩
  lists := by
    rintro i j (⟨k, rfl, rfl⟩ | ⟨hi, _⟩)
    · exact rel_beyond (Nat.le_add_right ..) (Nat.le_add_right ..)
    · exact absurd hi (not_shared (.inl rfl))
  mappings := by
    rintro i j (⟨k, rfl, rfl⟩ | ⟨hi, _⟩)
    · exact rel_beyond (Nat.le_add_right ..) (Nat.le_add_right ..)
    · exact absurd hi (not_shared (.inr (.inl rfl)))
  tables := by
    rintro i j (⟨k, rfl, rfl⟩ | ⟨hi, _⟩)
    · exact rel_beyond (Nat.le_add_right ..) (Nat.le_add_right ..)
    · exact absurd hi (not_shared (.inr (.inr (.inl rfl))))
  scopes := by
    rintro i j (⟨k, rfl, rfl⟩ | ⟨hi, rfl⟩)
    · exact rel_beyond (Nat.le_add_right ..) (Nat.le_add_right ..)
    · rw [shared_scope hu hi, shared_scope hv hi]
      exact .some (scopeAlike_shared hi)
  macros := by
    rintro i j (⟨k, rfl, rfl⟩ | ⟨hi, _⟩)
    · exact rel_beyond (Nat.le_add_right ..) (Nat.le_add_right ..)
    · exact absurd hi (not_shared (.inr (.inr (.inr rfl))))
  known _ _ _ := .inl trivial
  live i hi := (ρ.taken hi).trans_le (hu.taken_le .scope)
  outer _ ho := nomatch ho
  left := .empty u
  right := .empty v
  still := Store.keepsOutside_empty u

/-- As many things were made on both sides. -/
theorem taken_shift {κ : Known} {s t : Store} (h : (ρ.shift features hu hv).Agree κ s t) (hus : u.Grows s) (a : Area) :
    ∃ k, s.taken a = u.taken a + k ∧ t.taken a = v.taken a + k := by
  rcases h.fresh a 0 with ⟨k, hs, ht⟩ | ⟨hi, _⟩
  · exact ⟨k, hs, ht⟩
  · have hlt : s.taken a < u.taken a := (ρ.taken hi).trans_le (hu.taken_le a)
    exact absurd (hus a) (Nat.not_le.mpr hlt)

end shift

section within

open Correspondence

/-! ## What a realm owns, seen through another correspondence -/

/-- A correspondence has all pairs of another that start in what a realm has. -/
structure Refines (ρ : Realm) (s : Store) (σ' σ : Correspondence) : Prop where
  rel : ∀ p, ρ.Has s p → ∀ j, σ'.rel p.1 p.2 j → σ.rel p.1 p.2 j
  good : ∀ t, t ∈ σ.good

variable {ρ : Realm} {s : Store} {σ' σ : Correspondence} (h : ρ.Refines s σ' σ) {v w : Value}
include h

theorem Refines.alike (hv : ρ.Owns s v) (hvw : σ'.Alike v w) : σ.Alike v w := by
  have hkeyed : ∀ {c d}, Keyed.Alike σ'.rel c d → ρ.Has s c.place → Keyed.Alike σ.rel c d := by
    intro c d hcd hc
    cases hcd with
    | mapping hij => exact .mapping (h.rel _ hc _ hij)
    | table hij => exact .table (h.rel _ hc _ hij)
  have hhead : ∀ {p ps}, v.places = p :: ps → ρ.Has s p := fun hp => hv _ (hp ▸ List.mem_cons_self)
  cases hvw with
  | absent => exact .absent
  | none => exact .none
  | bool b => exact .bool b
  | number x => exact .number x
  | text t => exact .text t
  | safe _ => exact .safe (h.good _)
  | undefined reason => exact .undefined reason
  | list hij => exact .list (h.rel _ (hhead rfl) _ hij)
  | mapping hij => exact .mapping (h.rel _ (hhead rfl) _ hij)
  | table hij => exact .table (h.rel _ (hhead rfl) _ hij)
  | ofMacro hij => exact .ofMacro (h.rel _ (hhead rfl) _ hij)
  | foreign hij => exact .foreign (h.rel _ (hhead rfl) _ hij)
  | native hij hf =>
    refine .native (h.rel _ (hhead rfl) _ hij) ?_
    cases hf with
    | range => exact .range
    | dict => exact .dict
    | cycle index => exact .cycle index
    | text m self => exact .text m self
    | list m hkl => exact .list m (h.rel _ (hv.receiver _ List.mem_cons_self) _ hkl)
    | keyed m hcd => exact .keyed m (hkeyed hcd (hv.receiver _ List.mem_cons_self))

theorem Refines.items {vs ws : List Value} (hvs : ∀ v ∈ vs, ρ.Owns s v) (hvw : List.Forall₂ σ'.Alike vs ws) :
    List.Forall₂ σ.Alike vs ws :=
  forall₂_imp_of_mem_left (fun v hv _ => h.alike (hvs v hv)) hvw

theorem Refines.named {ps qs : List (Text × Value)} (hps : ∀ p ∈ ps, ρ.Owns s p.2)
    (hpq : List.Forall₂ σ'.NamedAlike ps qs) : List.Forall₂ σ.NamedAlike ps qs :=
  forall₂_imp_of_mem_left (fun p hp _ hpq => ⟨hpq.1, h.alike (hps p hp) hpq.2⟩) hpq

theorem Refines.properties {ps qs : Properties} (hps : ∀ p ∈ ps, ρ.Owns s p.2.value)
    (hpq : List.Forall₂ (PropertyAlike σ'.rel σ'.good) ps qs) : List.Forall₂ (PropertyAlike σ.rel σ.good) ps qs := by
  refine forall₂_imp_of_mem_left (fun p hp q hpq => ⟨hpq.1, ?_⟩) hpq
  have hown := hps p hp
  have hslot := hpq.2
  revert hown hslot
  generalize p.2 = x
  generalize q.2 = y
  intro hown hslot
  cases hslot with
  | data hvw => exact .data (h.alike hown hvw)
  | computed hvw => exact .computed (h.alike hown hvw)

/-- Keys of the base are the same on both sides; there are none where the base is empty. -/
theorem Refines.entries (hfrozen : σ'.frozen = ∅) {ds es : List (Value × Value)}
    (hds : ∀ d ∈ ds, ρ.Owns s d.1 ∧ ρ.Owns s d.2) (hde : List.Forall₂ σ'.EntryAlike ds es) :
    List.Forall₂ σ.EntryAlike ds es := by
  refine forall₂_imp_of_mem_left (fun d hd e hde => ⟨?_, h.alike (hds d hd).2 hde.2⟩) hde
  rcases hde.1 with hkey | ⟨heq, hkey⟩
  · exact .inl (h.alike (hds d hd).1 hkey)
  · refine .inr ⟨heq, fun i hi => ?_⟩
    have hempty := hkey i hi
    rw [hfrozen] at hempty
    exact absurd hempty (Set.notMem_empty i)

theorem Refines.scope (houter : σ'.outer = ∅) {i j : ScopeId} {p q : Scope} (hp : ρ.OwnsScope s i p)
    (hpq : σ'.ScopeAlike i j p q) : σ.ScopeAlike i j p q := by
  have hvars := h.named hp.vars (hpq.vars (by rw [houter]; exact Set.notMem_empty i))
  refine ⟨?_, hpq.older_left, hpq.older_right, fun _ => hvars, fun n _ => rel_lookup hvars n⟩
  rcases rel_cases hpq.parent with ⟨hx, hy⟩ | ⟨k, l, hx, hy, hkl⟩ <;> rw [hx, hy]
  · exact .none
  · exact .some (h.rel _ (hp.parent k hx).2 _ hkl)

theorem Refines.ofMacro {features : Features} (hfree : σ.toPolicy = .free features) {κ' κ : Known} {m n : Macro}
    (hm : ρ.Home s m.scope) (hlive : m.scope ∈ κ.live) (hknown : κ.names m.scope = Set.univ)
    (hmn : σ'.MacroAlike κ' m n) : σ.MacroAlike κ m n where
  name := hmn.name
  params := hmn.params
  defaults := hmn.defaults
  body := hmn.body
  scope := h.rel _ hm.has _ hmn.scope
  live := hlive
  allowed := by
    refine ⟨Set.univ, hknown.ge, ?_⟩
    rw [hfree]
    exact m.allowed_free features

end within
end Realm
end Stencil
