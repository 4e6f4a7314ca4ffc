import Stencil.Context
import Stencil.Proofs.Correspondence.Growth

/-! Copies of the data in a common base. A copy is made alike in both stores, unless the data nests
without end. -/
namespace Stencil

theorem isSome_mapM {α β : Type} {f : α → Option β} {l : List α} :
    (l.mapM f).isSome ↔ ∀ a ∈ l, (f a).isSome := by
  induction l with
  | nil => exact ⟨fun _ _ ha => (nomatch ha), fun _ => rfl⟩
  | cons b l ih =>
    rw [List.mapM_cons, List.forall_mem_cons, ← ih]
    cases f b with
    | none => simp
    | some c => cases l.mapM f <;> simp

namespace Store

variable {s : Store} {n : Nat}

/-- A value nests less than `n` containers if what it contains nests less. -/
def Nests (s : Store) (n : Nat) (v : Value) : Prop := (s.displayWithin n true v).isSome

theorem isSome_entryWithin (p : Text × Value) : (s.entryWithin n p).isSome ↔ s.Nests n p.2 := by
  unfold entryWithin Nests
  dsimp only
  cases s.displayWithin n true p.2 <;> exact Iff.rfl

theorem nests_list {id : ListId} : s.Nests (n + 1) (.list id) ↔ ∀ v ∈ s.list id, s.Nests n v := by
  unfold Nests
  rw [displayWithin_list, Option.map_eq_map, Option.isSome_map, isSome_mapM]

theorem nests_mapping {id : MappingId} :
    s.Nests (n + 1) (.mapping id) ↔ ∀ p ∈ s.entriesOf (.mapping id), s.Nests n p.2 := by
  simp only [← isSome_entryWithin]
  rw [Nests, displayWithin_mapping, Option.map_eq_map, Option.isSome_map, isSome_mapM]

theorem nests_table {id : TableId} : s.Nests (n + 1) (.table id) ↔ ∀ e ∈ s.table id, s.Nests n e.2 := by
  have hentries : (∀ p ∈ s.entriesOf (.table id), s.Nests n p.2) ↔ ∀ e ∈ s.table id, s.Nests n e.2 :=
    List.forall_mem_map
  rw [← hentries]
  simp only [← isSome_entryWithin]
  rw [Nests, displayWithin_table, Option.map_eq_map, Option.isSome_map, isSome_mapM]

theorem nests_of_depth_le {v : Value} (h : s.Nests n v) (hn : s.depth ≤ n) : s.Nests s.depth v := by
  unfold Nests at h ⊢
  rwa [displayWithin_stable hn] at h

end Store

namespace Eval

open Correspondence (Keeps)

variable {base : Store} {α β : Type} {D E : Prop}

/-- A computation keeps a base and fails only because data nests too deep; where it does not fail, `D`
holds. -/
def Stays (base : Store) (x : Eval α) (D : Prop) : Prop :=
  ∀ s, Keeps base s → match x s with
    | .ok _ s' => Keeps base s' ∧ D
    | .error e s' => e = .tooDeep ∧ Keeps base s'

namespace Stays

theorem pure {a : α} : Stays base (pure a : Eval α) True := fun _ hs => ⟨hs, trivial⟩

theorem mono {x : Eval α} (h : Stays base x D) (hDE : D → E) : Stays base x E := by
  intro s hs
  have hx := h s hs
  cases hr : x s with
  | ok a t =>
    rw [hr] at hx
    exact ⟨hx.1, hDE hx.2⟩
  | error e t =>
    rw [hr] at hx
    exact hx

theorem bind {x : Eval α} {f : α → Eval β} (h : Stays base x D) (hf : ∀ a, D → Stays base (f a) E) :
    Stays base (x >>= f) E := by
  intro s hs
  have hx := h s hs
  cases hr : x s with
  | ok a t =>
    rw [hr] at hx
    rw [bind_ok hr]
    exact hf a hx.2 t hx.1
  | error e t =>
    rw [hr] at hx
    rw [bind_error hr]
    exact hx

theorem alloc {f : Store → α × Store} (h : ∀ s, Keeps base s → Keeps base (f s).2) :
    Stays base (alloc f) True :=
  fun s hs => ⟨h s hs, trivial⟩

/-- What the base has is read from every store that keeps it. -/
theorem read_bind {f : Store → α} {a : α} {g : α → Eval β} (hf : ∀ s, Keeps base s → f s = a)
    (hg : Stays base (g a) D) : Stays base (read f >>= g) D := by
  intro s hs
  change match g (f s) s with | .ok _ s' => _ | .error e s' => _
  rw [hf s hs]
  exact hg s hs

theorem mapM {l : List α} {f : α → Eval β} {P : α → Prop} (h : ∀ a ∈ l, Stays base (f a) (P a)) :
    Stays base (l.mapM f) (∀ a ∈ l, P a) := by
  induction l with
  | nil => exact pure.mono fun _ _ ha => nomatch ha
  | cons b l ih =>
    obtain ⟨hb, hl⟩ := List.forall_mem_cons.mp h
    rw [List.mapM_cons]
    refine hb.bind fun _ hPb => (ih hl).bind fun _ hPl => pure.mono fun _ => ?_
    exact List.forall_mem_cons.mpr ⟨hPb, hPl⟩

end Stays

end Eval

namespace Correspondence

variable {σ : Correspondence} {base : Store} {κ : Known} {v w : Value}

theorem isCompound_eq (hvw : σ.Alike v w) : v.isCompound = w.isCompound := by
  cases hvw <;> rfl

theorem any_compound_eq {xs ys : List (Text × Value)} (hxs : List.Forall₂ σ.NamedAlike xs ys) :
    (xs.any fun (key, item) => key = reservedKey && item.isCompound) =
      ys.any fun (key, item) => key = reservedKey && item.isCompound := by
  induction hxs with
  | nil => rfl
  | cons hpq _ ih =>
    rw [List.any_cons, List.any_cons, ih]
    dsimp only
    rw [hpq.1, isCompound_eq hpq.2]

variable (hσ : σ.Over base)
include hσ

end Correspondence
end Stencil
