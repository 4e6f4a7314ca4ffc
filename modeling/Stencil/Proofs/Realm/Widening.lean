import Stencil.Proofs.Realm.Shift

/-! A body runs in a store as in one that has more in it, where the names that it reads mean the same. -/
namespace Stencil

open Correspondence (Ends Keeps ofPairing)

variable {features : Features} {s t : Store} {i j k : ScopeId} {n : Text}

namespace Store

theorem Encloses.of_parent (hk : (s.scope i).parent = some k) {l : ScopeId} (h : s.Encloses k l) : s.Encloses i l := by
  induction h with
  | here => exact .around .here hk
  | around _ hl ih => exact .around ih hl

/-- What lies around a scope is no younger. -/
theorem le_of_encloses (hs : Realm.whole.Rules s) (h : s.Encloses i j) (hi : i < s.scopes.size) : j ≤ i := by
  induction h with
  | here => exact le_refl i
  | @around j l _ hl ih =>
    have hj : Realm.whole.Has s (.scope, j) := Realm.has_whole (ih.trans_lt hi)
    exact ((hs.scope hj).parent l hl).1.le.trans ih

/-- What lies around a scope is the same after another was made. -/
theorem encloses_of_newScope (hs : Realm.whole.Rules s) {parent : Option ScopeId} {vars : List (Text × Value)}
    (hi : i < s.scopes.size) (h : (s.newScope parent vars).2.Encloses i j) : s.Encloses i j := by
  induction h with
  | here => exact .here
  | around _ hl ih =>
    rw [scope_newScope ((le_of_encloses hs ih hi).trans_lt hi)] at hl
    exact ih.around hl

/-- A store with all that another has. Its scopes may bind other names. -/
structure Widens (s t : Store) : Prop extends Keeps s t where
  macros : ∀ {i : MacroId} {x}, s.macros[i]? = some x → t.macros[i]? = some x
  scopes : s.scopes.size ≤ t.scopes.size
  parents : ∀ i < s.scopes.size, (t.scope i).parent = (s.scope i).parent

theorem Widens.taken_le (h : s.Widens t) (a : Area) : s.taken a ≤ t.taken a :=
  taken_le_of_keeps h.toKeeps h.scopes (Keeps.size_le h.macros) a

/-- A name is bound in a scope as in another store, and so it is in all scopes around. -/
def SameName (s t : Store) (i : ScopeId) (n : Text) : Prop :=
  ∀ k, s.Encloses i k → (t.scope k).vars.lookup n = (s.scope k).vars.lookup n

/-- Containers that are paired hold values that are alike. The keys of tables may also be the same. -/
structure Mirrors (R : Pairing) (s t : Store) : Prop where
  lists : ∀ {i j}, R .list i j → List.Forall₂ (Value.Alike R Set.univ) (s.list i) (t.list j)
  mappings : ∀ {i j}, R .mapping i j → List.Forall₂ (PropertyAlike R Set.univ) (s.mapping i) (t.mapping j)
  tables : ∀ {i j}, R .table i j → List.Forall₂
    (fun p q => (Value.Alike R Set.univ p.1 q.1 ∨ p.1 = q.1) ∧ Value.Alike R Set.univ p.2 q.2) (s.table i) (t.table j)

/-- Two computations have one outcome, and what they leave in the containers of a store is the same, up to the
identities that were not taken before. -/
def SameEffect {α : Type} (s : Store) (x y : Eval α) : Prop :=
  outcome x s = outcome y s ∧ ∃ R : Pairing, R.OneToOne ∧ (∀ a, ∀ i < s.taken a, R a i i) ∧
    Mirrors R (after x s) (after y s)

end Store

namespace Realm

/-- Things of the one store go with themselves, and what is made later goes in order. -/
def widening (features : Features) (h : s.Widens t) : Correspondence where
  __ := ofPairing features (.inOrder {p | p.2 < s.taken p.1} s t)
    (Pairing.oneToOne_inOrder (fun _ => id) fun _ hp => Nat.lt_of_lt_of_le hp (h.taken_le _))
  shown := ∅
  outer := {i | i < s.scopes.size ∧ (t.scope i).vars ≠ (s.scope i).vars}

/-- What is known at first: the names that mean the same. -/
def sameNames (s t : Store) : Known :=
  ⟨fun i => {n | i < s.scopes.size ∧ s.SameName t i n}, {i | i < s.scopes.size}⟩

variable {h : s.Widens t}

theorem rel_same {a : Area} {i : Nat} (hi : i < s.taken a) : (widening features h).rel a i i := .inr ⟨hi, rfl⟩

theorem alike_same {v : Value} (hv : whole.Owns s v) : (widening features h).Alike v v :=
  .self (fun p hp => rel_same ((hv p hp).elim (·.2) fun hp => absurd hp (Set.notMem_empty p))) fun _ _ => trivial

/-- What one store has is in the other, related to itself. -/
theorem rel_kept {α : Type} {R : α → α → Prop} {xs ys : Array α} {i : Nat} (hi : i < xs.size)
    (hkept : ∀ {x}, xs[i]? = some x → ys[i]? = some x) (hx : ∀ x, xs[i]? = some x → R x x) :
    Option.Rel R xs[i]? ys[i]? := by
  have hget := Array.getElem?_eq_getElem hi
  rw [hkept hget, hget]
  exact .some (hx _ hget)

/-- A store corresponds to a wider one, where macros read only names that mean the same. -/
theorem agree_widening (hs : whole.Rules s) (hmacros : ∀ m ∈ s.macros, ∃ known : Set Text,
      (∀ n ∈ known, s.SameName t m.scope n) ∧ m.Allowed (.free features) known) :
    (widening features h).Agree (sameNames s t) s t where
  fresh a k := .inl ⟨k, rfl, rfl⟩
  lists := by
    rintro i j (⟨k, rfl, rfl⟩ | ⟨hi, rfl⟩)
    · exact rel_beyond (Nat.le_add_right ..) (Nat.le_add_right ..)
    · exact rel_kept hi h.lists fun vs hvs => List.forall₂_same.mpr fun v hv =>
        alike_same (hs.lists i (Nat.zero_le i) vs hvs v hv)
  mappings := by
    rintro i j (⟨k, rfl, rfl⟩ | ⟨hi, rfl⟩)
    · exact rel_beyond (Nat.le_add_right ..) (Nat.le_add_right ..)
    · refine rel_kept hi h.mappings fun ps hps => List.forall₂_same.mpr fun p hp => ⟨rfl, ?_⟩
      have hvalue := hs.mappings i (Nat.zero_le i) ps hps p hp
      revert hvalue
      cases p.2 with
      | data v => exact fun hv => .data (alike_same hv)
      | computed v => exact fun hv => .computed (alike_same hv)
  tables := by
    rintro i j (⟨k, rfl, rfl⟩ | ⟨hi, rfl⟩)
    · exact rel_beyond (Nat.le_add_right ..) (Nat.le_add_right ..)
    · refine rel_kept hi h.tables fun es hes => List.forall₂_same.mpr fun e he => ?_
      obtain ⟨hkey, hvalue⟩ := hs.tables i (Nat.zero_le i) es hes e he
      exact ⟨.inl (alike_same hkey), alike_same hvalue⟩
  scopes := by
    rintro i j (⟨k, rfl, rfl⟩ | ⟨hi, rfl⟩)
    · exact rel_beyond (Nat.le_add_right ..) (Nat.le_add_right ..)
    · have hscope := hs.scope (has_whole hi)
      have hparent := h.parents i hi
      rw [getElem?_scope hi, getElem?_scope (Nat.lt_of_lt_of_le hi h.scopes)]
      refine .some ⟨?_, fun k hk => (hscope.parent k hk).1, fun k hk => ?_, fun ho => ?_, fun _ hn => nomatch hn⟩
      · rw [hparent]
        cases hp : (s.scope i).parent with
        | none => exact .none
        | some k => exact .some (rel_same (hs.lt (hscope.parent k hp).2))
      · rw [hparent] at hk
        exact (hscope.parent k hk).1
      · rw [show (t.scope i).vars = (s.scope i).vars from not_not.mp fun hne => ho ⟨hi, hne⟩]
        exact List.forall₂_same.mpr fun p hp => ⟨rfl, alike_same (hscope.vars p hp)⟩
  macros := by
    rintro i j (⟨k, rfl, rfl⟩ | ⟨hi, rfl⟩)
    · exact rel_beyond (Nat.le_add_right ..) (Nat.le_add_right ..)
    · refine rel_kept hi h.macros fun m hm => ?_
      have hhome := (hs.macros i (Nat.zero_le i) m hm).2
      obtain ⟨known, hknown, hallowed⟩ := hmacros m (Array.mem_of_getElem? hm)
      exact ⟨rfl, rfl, rfl, rfl, rel_same hhome, hhome, known, fun n hn => ⟨hhome, hknown n hn⟩, hallowed⟩
  known := by
    rintro i n ⟨hi, hn⟩
    have hscope := hs.scope (has_whole hi)
    refine .inr ⟨fun _ j hij => ?_, s.scope i, getElem?_scope hi, .inr fun k hk => ?_⟩
    · cases (widening features h).functional hij (rel_same hi)
      rw [hn i .here]
      cases hx : (s.scope i).vars.lookup n with
      | none => exact .none
      | some v =>
        obtain ⟨before, rest, hvars, -⟩ := List.lookup_eq_some_iff.mp hx
        exact .some (alike_same (hscope.vars (n, v) (by simp [hvars])))
    · exact ⟨(hscope.parent k hk).1.trans hi, fun l hl => hn l (.of_parent hk hl)⟩
  live _ hi := hi
  outer _ ho := ho.1
  left := .empty s
  right := .empty t
  still := Store.keepsOutside_empty s

theorem mirrors_widening {κ : Known} {u v : Store} (hagree : (widening features h).Agree κ u v) :
    u.Mirrors (widening features h).rel v where
  lists := hagree.list
  mappings := hagree.mapping
  tables hij := (hagree.table hij).imp fun _ _ hpq => ⟨hpq.1.imp_right (·.1), hpq.2⟩

/-- A body that reads only names that mean the same ends alike in both stores. -/
theorem ends_widening {K : Set Text} {body : List Stmt} (h : s.Widens t) (hs : whole.Rules s)
    (hmacros : ∀ m ∈ s.macros, ∃ known : Set Text,
      (∀ n ∈ known, s.SameName t m.scope n) ∧ m.Allowed (.free features) known)
    (hi : i < s.scopes.size) (hK : ∀ n ∈ K, s.SameName t i n) (hbody : bodyAllowed (.free features) K body)
    (depth : Nat) :
    Ends (widening features h) (sameNames s t) (fun _ a b => a = b) (Eval.render features depth i body s)
      (Eval.render features depth i body t) := by
  have hat : (widening features h).At (sameNames s t) K i i := ⟨rel_same hi, hi, fun n hn => ⟨hi, hK n hn⟩⟩
  exact ((Correspondence.simulates (widening features h) depth).render hat hbody s t (agree_widening hs hmacros)).mono
    (le_refl _) fun _ _ _ _ htu => htu.1

/-- Runs that end alike have the same effect on a store from which the one of them grew. -/
theorem sameEffect_of_ends {α : Type} {start : Store} {κ : Known} {x y : Eval α}
    {r r' : EStateM.Result Fault Store α} (hgrows : start.Grows s) (hx : x start = r) (hy : y start = r')
    (hends : Ends (widening features h) κ (fun _ a b => a = b) r r') : start.SameEffect x y := by
  have hone : (widening features h).rel.OneToOne := ⟨(widening features h).functional, (widening features h).injective⟩
  have hsame : ∀ a, ∀ i < start.taken a, (widening features h).rel a i i :=
    fun a i hi => rel_same (hi.trans_le (hgrows a))
  unfold Store.SameEffect outcome after
  rw [hx, hy]
  rcases hends.ok_or_error with ⟨_, u, _, v, rfl, rfl, _, _, hagree, rfl⟩ | ⟨_, u, v, rfl, rfl, _, _, hagree⟩
  · exact ⟨rfl, _, hone, hsame, mirrors_widening hagree⟩
  · exact ⟨rfl, _, hone, hsame, mirrors_widening hagree⟩

end Realm
end Stencil
