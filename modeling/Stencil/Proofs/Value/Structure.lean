import Stencil.Proofs.Giving
import Stencil.Proofs.Value.Reach

/-!
Values of two stores that have one structure: containers of the same kind with the same keys in the same order, and the
same values where nothing is contained. Data that is built in a store has the structure of the data.
-/

namespace Stencil

open Correspondence (Keeps)

/-- A value that is no list, mapping or table. -/
def Value.IsLeaf : Value → Prop
  | list _ | mapping _ | table _ => False
  | _ => True

namespace Store

/-- Two values are containers of one kind whose parts are related by `inner`, or one value that contains nothing. The
mapping of `t` holds data only. -/
def SameParts (s t : Store) (inner : Value → Value → Prop) : Value → Value → Prop
  | .list i, .list j => j < t.lists.size ∧ List.Forall₂ inner (s.list i) (t.list j)
  | .mapping i, .mapping j => j < t.mappings.size ∧
    List.Forall₂ (fun p q => p.1 = q.1 ∧ ∃ w, q.2 = .data w ∧ inner p.2.value w) (s.mapping i) (t.mapping j)
  | .table i, .table j => j < t.tables.size ∧
    List.Forall₂ (fun p q => p.1 = q.1 ∧ inner p.2 q.2) (s.table i) (t.table j)
  | v, w => v.IsLeaf ∧ v = w

/-- A value of `s` and one of `t` have one structure, and nest less than `n` containers. -/
def SameWithin (s t : Store) : Nat → Value → Value → Prop
  | 0 => fun _ _ => False
  | n + 1 => SameParts s t (SameWithin s t n)

/-- A value of `s` and one of `t` have the same structure. -/
def SameStructure (s t : Store) (v w : Value) : Prop := ∃ n, s.SameWithin t n v w

variable {s t u : Store} {v w : Value} {n : Nat}

theorem sameWithin_leaf (hv : v.IsLeaf) : s.SameWithin t (n + 1) v v := by
  cases v with
  | list i => exact hv.elim
  | mapping i => exact hv.elim
  | table i => exact hv.elim
  | _ => exact ⟨hv, rfl⟩

/-- A structure stands while the store of the second value grows. -/
theorem SameWithin.mono (hkeeps : Keeps t u) (h : s.SameWithin t n v w) : s.SameWithin u n v w := by
  induction n generalizing v w with
  | zero => exact h.elim
  | succ n ih =>
    unfold SameWithin SameParts at h ⊢
    split at h
    · obtain ⟨hj, hitems⟩ := h
      refine ⟨Nat.lt_of_lt_of_le hj (Keeps.size_le hkeeps.lists), ?_⟩
      rw [hkeeps.list hj]
      exact hitems.imp fun _ _ hvw => ih hvw
    · obtain ⟨hj, hentries⟩ := h
      refine ⟨Nat.lt_of_lt_of_le hj (Keeps.size_le hkeeps.mappings), ?_⟩
      rw [hkeeps.mapping hj]
      exact hentries.imp fun _ _ ⟨hkey, x, hx, hvw⟩ => ⟨hkey, x, hx, ih hvw⟩
    · obtain ⟨hj, hentries⟩ := h
      refine ⟨Nat.lt_of_lt_of_le hj (Keeps.size_le hkeeps.tables), ?_⟩
      rw [hkeeps.table hj]
      exact hentries.imp fun _ _ ⟨hkey, hvw⟩ => ⟨hkey, ih hvw⟩
    · exact h

theorem SameStructure.mono (hkeeps : Keeps t u) (h : s.SameStructure t v w) : s.SameStructure u v w := by
  obtain ⟨n, h⟩ := h
  exact ⟨n, h.mono hkeeps⟩

/-! ## Data -/

/-- A value is a datum in a store. -/
def Represents (t : Store) : Datum → Value → Prop
  | .none, v => v = .none
  | .bool b, v => v = .bool b
  | .number x, v => v = .number x
  | .text u, v => v = .text u
  | .list items, v => ∃ i < t.lists.size, v = .list i ∧ ofItems items (t.list i)
  | .mapping entries, v => ∃ i < t.mappings.size, v = .mapping i ∧
    ∃ ps, t.mapping i = Properties.ofList ps ∧ ofEntries entries ps
where
  ofItems : List Datum → List Value → Prop
    | [], [] => True
    | d :: ds, v :: vs => Represents t d v ∧ ofItems ds vs
    | _, _ => False
  ofEntries : List (Text × Datum) → Properties → Prop
    | [], [] => True
    | (key, d) :: ds, p :: ps => (p.1 = key ∧ ∃ v, p.2 = .data v ∧ Represents t d v) ∧ ofEntries ds ps
    | _, _ => False

/-- A value stays the datum that it is while the store grows. -/
theorem Represents.mono (hkeeps : Keeps t u) : (d : Datum) → {v : Value} → t.Represents d v → u.Represents d v
  | .none, _, h => h
  | .bool _, _, h => h
  | .number _, _, h => h
  | .text _, _, h => h
  | .list items, _, ⟨i, hi, hv, hitems⟩ => by
    refine ⟨i, Nat.lt_of_lt_of_le hi (Keeps.size_le hkeeps.lists), hv, ?_⟩
    rw [hkeeps.list hi]
    exact ofItems items hitems
  | .mapping entries, _, ⟨i, hi, hv, ps, hps, hentries⟩ => by
    refine ⟨i, Nat.lt_of_lt_of_le hi (Keeps.size_le hkeeps.mappings), hv, ps, ?_, ofEntries entries hentries⟩
    rw [hkeeps.mapping hi]
    exact hps
where
  ofItems : (items : List Datum) → {vs : List Value} → Represents.ofItems t items vs → Represents.ofItems u items vs
    | [], [], _ => trivial
    | d :: ds, _ :: _, ⟨hd, hds⟩ => ⟨Represents.mono hkeeps d hd, ofItems ds hds⟩
  ofEntries : (entries : List (Text × Datum)) → {ps : Properties} → Represents.ofEntries t entries ps →
      Represents.ofEntries u entries ps
    | [], [], _ => trivial
    | (_, d) :: ds, _ :: _, ⟨⟨hkey, v, hv, hd⟩, hds⟩ => ⟨⟨hkey, v, hv, Represents.mono hkeeps d hd⟩, ofEntries ds hds⟩

/-- What is built is the datum, in a store that has grown. -/
theorem represents_build (s : Store) : (d : Datum) → Keeps s (d.build s).2 ∧ (d.build s).2.Represents d (d.build s).1
  | .none => ⟨.refl s, rfl⟩
  | .bool _ => ⟨.refl s, rfl⟩
  | .number _ => ⟨.refl s, rfl⟩
  | .text _ => ⟨.refl s, rfl⟩
  | .list items => by
    obtain ⟨hkeeps, hitems⟩ := ofItems s items
    obtain ⟨_, _, hrun, hkeeps', _, rfl, hi, hlist, -⟩ :=
      Eval.gives_newList (s := (Datum.build.buildList s items).2) (Datum.build.buildList s items).1
    cases hrun
    replace hlist : (Datum.build s (.list items)).2.list _ = (Datum.build.buildList s items).1 := hlist
    refine ⟨hkeeps.trans hkeeps', _, hi, rfl, ?_⟩
    rw [hlist]
    exact Represents.mono.ofItems hkeeps' items hitems
  | .mapping entries => by
    obtain ⟨hkeeps, hentries⟩ := ofEntries s entries
    obtain ⟨_, _, hrun, hkeeps', _, rfl, hi, hmapping, -⟩ :=
      Eval.gives_newMapping (s := (Datum.build.buildEntries s entries).2)
        (Properties.ofList (Datum.build.buildEntries s entries).1)
    cases hrun
    exact ⟨hkeeps.trans hkeeps', _, hi, rfl, _, hmapping, Represents.mono.ofEntries hkeeps' entries hentries⟩
where
  ofItems (s : Store) : (items : List Datum) → Keeps s (Datum.build.buildList s items).2 ∧
      Represents.ofItems (Datum.build.buildList s items).2 items (Datum.build.buildList s items).1
    | [] => ⟨.refl s, trivial⟩
    | d :: rest => by
      obtain ⟨hkeeps, hd⟩ := represents_build s d
      obtain ⟨hkeeps', hrest⟩ := ofItems (d.build s).2 rest
      exact ⟨hkeeps.trans hkeeps', hd.mono hkeeps' d, hrest⟩
  ofEntries (s : Store) : (entries : List (Text × Datum)) → Keeps s (Datum.build.buildEntries s entries).2 ∧
      Represents.ofEntries (Datum.build.buildEntries s entries).2 entries (Datum.build.buildEntries s entries).1
    | [] => ⟨.refl s, trivial⟩
    | (key, d) :: rest => by
      obtain ⟨hkeeps, hd⟩ := represents_build s d
      obtain ⟨hkeeps', hrest⟩ := ofEntries (d.build s).2 rest
      exact ⟨hkeeps.trans hkeeps', ⟨rfl, _, rfl, Represents.mono hkeeps' d hd⟩, hrest⟩

end Store
end Stencil
