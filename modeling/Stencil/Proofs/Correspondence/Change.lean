import Stencil.Proofs.Correspondence.Values

/-! Stores still correspond after something was added to both or changed in both. -/
namespace Stencil

theorem getElem?_push_of_some {α : Type} {xs : Array α} {x y : α} {i : Nat} (h : xs[i]? = some y) :
    (xs.push x)[i]? = some y := by
  obtain ⟨hi, _⟩ := Array.getElem?_eq_some_iff.mp h
  rw [Array.getElem?_push, if_neg (Nat.ne_of_lt hi), h]

theorem getElem?_set_eq_modify {α : Type} (xs : Array α) (m i : Nat) (x : α) :
    (xs.setIfInBounds m x)[i]? = (xs.modify m fun _ => x)[i]? := by
  rw [Array.getElem?_setIfInBounds, Array.getElem?_modify]
  by_cases hm : m = i
  · subst hm
    by_cases hlt : m < xs.size
    · rw [if_pos rfl, if_pos rfl, if_pos hlt, Array.getElem?_eq_getElem hlt, Option.map_some]
    · rw [if_pos rfl, if_pos rfl, if_neg hlt, Array.getElem?_eq_none (Nat.not_lt.mp hlt), Option.map_none]
  · rw [if_neg hm, if_neg hm]

namespace Correspondence

variable {σ : Correspondence} {κ μ : Known} {s t : Store}

section arrays

variable {a : Area} {α β : Type} {R : Nat → Nat → α → β → Prop} {xs : Array α} {ys : Array β} {x : α} {y : β}
  (h : ∀ i j, σ.rel a i j → Option.Rel (R i j) xs[i]? ys[j]?)
include h

theorem rel_push (hn : σ.rel a xs.size ys.size) (hxy : R xs.size ys.size x y) (i j : Nat) (hij : σ.rel a i j) :
    Option.Rel (R i j) (xs.push x)[i]? (ys.push y)[j]? := by
  rw [Array.getElem?_push, Array.getElem?_push]
  by_cases hi : i = xs.size
  · subst hi
    cases σ.functional hij hn
    rw [if_pos rfl, if_pos rfl]
    exact .some hxy
  · have hj : j ≠ ys.size := by
      rintro rfl
      exact hi (σ.injective hij hn)
    rw [if_neg hi, if_neg hj]
    exact h i j hij

theorem rel_modify {m n : Nat} {f : α → α} {g : β → β} (hmn : σ.rel a m n)
    (hfg : ∀ x y, R m n x y → R m n (f x) (g y)) (i j : Nat) (hij : σ.rel a i j) :
    Option.Rel (R i j) (xs.modify m f)[i]? (ys.modify n g)[j]? := by
  rw [Array.getElem?_modify, Array.getElem?_modify]
  have hold := h i j hij
  by_cases hi : m = i
  · subst hi
    cases σ.functional hmn hij
    rw [if_pos rfl, if_pos rfl]
    cases hx : xs[m]? <;> cases hy : ys[n]? <;> rw [hx, hy] at hold <;> cases hold
    · exact .none
    · exact .some (hfg _ _ ‹_›)
  · have hj : n ≠ j := by
      rintro rfl
      exact hi (σ.injective hmn hij)
    rw [if_neg hi, if_neg hj]
    exact hold

theorem rel_set {m n : Nat} (hmn : σ.rel a m n) (hxy : R m n x y) (i j : Nat) (hij : σ.rel a i j) :
    Option.Rel (R i j) (xs.setIfInBounds m x)[i]? (ys.setIfInBounds n y)[j]? := by
  rw [getElem?_set_eq_modify, getElem?_set_eq_modify]
  exact rel_modify h hmn (fun _ _ _ => hxy) i j hij

end arrays

theorem MacroAlike.mono {m n : Macro} (h : σ.MacroAlike κ m n) (hκ : κ ≤ μ) : σ.MacroAlike μ m n :=
  { h with
    live := hκ.2 h.live
    allowed := by
      obtain ⟨known, hknown, hallowed⟩ := h.allowed
      exact ⟨known, hknown.trans (hκ.1 _), hallowed⟩ }

namespace Keeps

variable {base s : Store} (h : Keeps base s)
include h

theorem newList (items : List Value) : Keeps base (s.newList items).2 :=
  { h with lists := fun hi => getElem?_push_of_some (h.lists hi) }

theorem newMapping (ps : Properties) : Keeps base (s.newMapping ps).2 :=
  { h with mappings := fun hi => getElem?_push_of_some (h.mappings hi) }

theorem newTable (es : List (Value × Value)) : Keeps base (s.newTable es).2 :=
  { h with tables := fun hi => getElem?_push_of_some (h.tables hi) }

theorem nextSerial : Keeps base { s with serial := s.serial + 1 } :=
  { h with serial := h.serial.trans (Nat.le_succ _) }

end Keeps

/-- What lies beyond the base can change. -/
theorem getElem?_set_of_apart {α : Type} {base xs : Array α} {m i : Nat} {x y : α} (hm : base.size ≤ m)
    (hx : base[i]? = some x → xs[i]? = some x) (hi : base[i]? = some x) :
    (xs.setIfInBounds m y)[i]? = some x := by
  obtain ⟨hlt, _⟩ := Array.getElem?_eq_some_iff.mp hi
  rw [Array.getElem?_setIfInBounds_ne (Nat.ne_of_gt (hlt.trans_le hm))]
  exact hx hi

end Correspondence

namespace Store.KeepsOutside

variable {s t : Store} {R : Pairing} (h : s.KeepsOutside R t)
include h

theorem newList (items : List Value) : s.KeepsOutside R (t.newList items).2 :=
  { h with lists := fun hx hi => getElem?_push_of_some (h.lists hx hi) }

theorem newMapping (ps : Properties) : s.KeepsOutside R (t.newMapping ps).2 :=
  { h with mappings := fun hx hi => getElem?_push_of_some (h.mappings hx hi) }

theorem newTable (es : List (Value × Value)) : s.KeepsOutside R (t.newTable es).2 :=
  { h with tables := fun hx hi => getElem?_push_of_some (h.tables hx hi) }

theorem setList {i j : ListId} (hij : R .list i j) (items : List Value) : s.KeepsOutside R (t.setList i items) :=
  { h with
    lists := by
      intro k x hx hk
      have hne : i ≠ k := by
        rintro rfl
        exact hk j hij
      exact (Array.getElem?_setIfInBounds_ne hne).trans (h.lists hx hk) }

theorem setMapping {i j : MappingId} (hij : R .mapping i j) (ps : Properties) :
    s.KeepsOutside R (t.setMapping i ps) :=
  { h with
    mappings := by
      intro k x hx hk
      have hne : i ≠ k := by
        rintro rfl
        exact hk j hij
      exact (Array.getElem?_setIfInBounds_ne hne).trans (h.mappings hx hk) }

theorem setTable {i j : TableId} (hij : R .table i j) (es : List (Value × Value)) :
    s.KeepsOutside R (t.setTable i es) :=
  { h with
    tables := by
      intro k x hx hk
      have hne : i ≠ k := by
        rintro rfl
        exact hk j hij
      exact (Array.getElem?_setIfInBounds_ne hne).trans (h.tables hx hk) }

end Store.KeepsOutside

namespace Correspondence

variable {σ : Correspondence} {κ μ : Known} {s t : Store}

section entries

variable {α β : Type} [DecidableEq α] {R : α × β → α × β → Prop} {xs ys : List (α × β)} {k : α} {v w : β}

theorem forall₂_assocSet (h : List.Forall₂ R xs ys) (hkey : ∀ p q, R p q → (p.1 = k ↔ q.1 = k))
    (hnew : R (k, v) (k, w)) : List.Forall₂ R (assocSet k v xs) (assocSet k w ys) := by
  induction h with
  | nil => exact .cons hnew .nil
  | @cons p q _ _ hpq hrest ih =>
    obtain ⟨k₁, x⟩ := p
    obtain ⟨k₂, y⟩ := q
    have hiff := hkey _ _ hpq
    dsimp only at hiff
    rw [assocSet, assocSet]
    by_cases hk : k₁ = k
    · cases hk
      cases hiff.mp rfl
      rw [if_pos rfl, if_pos rfl]
      exact .cons hnew hrest
    · rw [if_neg hk, if_neg (mt hiff.mpr hk)]
      exact .cons hpq ih

theorem lookup_cons_eq [BEq α] [LawfulBEq α] (n k : α) (v : β) (xs : List (α × β)) :
    ((k, v) :: xs).lookup n = if n = k then some v else xs.lookup n := by
  rw [List.lookup_cons]
  by_cases hn : n = k
  · rw [if_pos hn, beq_iff_eq.mpr hn]
  · rw [if_neg hn, beq_eq_false_iff_ne.mpr hn]

theorem lookup_assocSet [BEq α] [LawfulBEq α] (n : α) :
    (assocSet k v xs).lookup n = if n = k then some v else xs.lookup n := by
  induction xs with
  | nil => exact lookup_cons_eq n k v []
  | cons p xs ih =>
    obtain ⟨k₁, x⟩ := p
    rw [assocSet, lookup_cons_eq n k₁ x]
    by_cases hk : k₁ = k
    · subst hk
      rw [if_pos rfl, lookup_cons_eq]
      split <;> rfl
    · rw [if_neg hk, lookup_cons_eq, ih]
      by_cases hn : n = k₁
      · rw [if_pos hn, if_neg (hn ▸ hk), if_pos hn]
      · rw [if_neg hn, if_neg hn]

end entries

end Correspondence

/-! ## Scopes after a change -/

namespace Store

variable {s : Store} {i k : ScopeId} {name n : Text} {v : Value}

theorem scope_newScope {parent : Option ScopeId} {vars : List (Text × Value)} (hi : i < s.scopes.size) :
    (s.newScope parent vars).2.scope i = s.scope i := by
  simp [newScope, scope, Array.getElem?_push, Nat.ne_of_lt hi]

theorem setVar_newScope (s : Store) (parent : Option ScopeId) (vars : List (Text × Value)) (name : Text) (v : Value) :
    (s.newScope parent vars).2.setVar s.scopes.size name v = (s.newScope parent (assocSet name v vars)).2 := by
  have hscopes : (s.scopes.push ⟨parent, vars⟩).modify s.scopes.size
      (fun scope => { scope with vars := assocSet name v scope.vars }) = s.scopes.push ⟨parent, assocSet name v vars⟩ := by
    refine Array.ext_getElem? fun i => ?_
    rw [Array.getElem?_modify]
    split
    · rename_i hi
      rw [← hi, Array.getElem?_push_size, Array.getElem?_push_size]
      rfl
    · rename_i hi
      rw [Array.getElem?_push, Array.getElem?_push, if_neg (Ne.symm hi), if_neg (Ne.symm hi)]
  exact congrArg (fun scopes => { s with scopes := scopes }) hscopes

theorem scope_newScope_self (s : Store) (parent : Option ScopeId) (vars : List (Text × Value)) :
    (s.newScope parent vars).2.scope s.scopes.size = ⟨parent, vars⟩ := by
  unfold scope newScope
  rw [Array.getElem?_push_size]
  rfl

theorem lt_or_eq_of_newScope {parent : Option ScopeId} {vars : List (Text × Value)}
    (hi : i < (s.newScope parent vars).2.scopes.size) : i < s.scopes.size ∨ i = s.scopes.size :=
  Nat.lt_or_eq_of_le (Nat.le_of_lt_succ (hi.trans_eq (Array.size_push _)))

theorem scope_setVar_ne (h : i ≠ k) : (s.setVar i name v).scope k = s.scope k := by
  simp [setVar, scope, Array.getElem?_modify, h]

theorem scope_setVar (hi : i < s.scopes.size) :
    (s.setVar i name v).scope i = { s.scope i with vars := assocSet name v (s.scope i).vars } := by
  simp [setVar, scope, Array.getElem?_modify, Array.getElem?_eq_getElem hi]

theorem parent_setVar : ((s.setVar i name v).scope k).parent = (s.scope k).parent := by
  unfold setVar scope
  dsimp only
  rw [Array.getElem?_modify]
  split
  · cases s.scopes[k]? <;> rfl
  · rfl

theorem lookup_setVar (hk : k < s.scopes.size) : ((s.setVar i name v).scope k).vars.lookup n =
    if i = k ∧ n = name then some v else (s.scope k).vars.lookup n := by
  by_cases hik : i = k
  · subst hik
    rw [scope_setVar hk]
    simp [Correspondence.lookup_assocSet]
  · simp [scope_setVar_ne hik, hik]

/-- Setting a variable only adds names, and moves no scope. -/
theorem exists_scope_setVar {p : Scope} (hp : s.scopes[k]? = some p) :
    ∃ p', (s.setVar i name v).scopes[k]? = some p' ∧ p'.parent = p.parent ∧
      (∀ n, (p.vars.lookup n).isSome → (p'.vars.lookup n).isSome) ∧ (k = i → (p'.vars.lookup name).isSome) := by
  have hget : (s.setVar i name v).scopes[k]? =
      if i = k then some { p with vars := assocSet name v p.vars } else some p := by
    unfold setVar
    rw [Array.getElem?_modify, hp, Option.map_some]
  by_cases hk : i = k
  · rw [if_pos hk] at hget
    refine ⟨_, hget, rfl, fun n hn => ?_, fun _ => ?_⟩
    · dsimp only
      rw [Correspondence.lookup_assocSet]
      split
      · rfl
      · exact hn
    · dsimp only
      rw [Correspondence.lookup_assocSet, if_pos rfl]
      rfl
  · rw [if_neg hk] at hget
    exact ⟨p, hget, rfl, fun _ => id, fun h => absurd h.symm hk⟩

end Store

namespace Correspondence

variable {σ : Correspondence} {κ μ : Known} {s t : Store}

/-! ## Names that are set one after another -/

section names

variable {α : Type} {name key : Text} {v : α}

theorem keys_assocSet (xs : List (Text × α)) : (assocSet key v xs).map (·.1) =
    if key ∈ xs.map (·.1) then xs.map (·.1) else xs.map (·.1) ++ [key] := by
  induction xs with
  | nil => rfl
  | cons p xs ih =>
    obtain ⟨k, x⟩ := p
    rw [assocSet]
    by_cases hk : k = key
    · rw [if_pos hk, if_pos (List.mem_map.mpr ⟨_, List.mem_cons_self, hk⟩)]
      rfl
    · rw [if_neg hk, List.map_cons, ih]
      by_cases hmem : key ∈ xs.map (·.1)
      · have hcons : key ∈ ((k, x) :: xs).map (·.1) := List.mem_cons_of_mem _ hmem
        rw [if_pos hmem, if_pos hcons]
        rfl
      · have hnot : key ∉ ((k, x) :: xs).map (·.1) := fun h =>
          (List.mem_cons.mp h).elim (fun heq => hk heq.symm) hmem
        rw [if_neg hmem, if_neg hnot]
        rfl

theorem nodup_assocSets (vars : List (Text × α)) {done : List (Text × α)} (hdone : (done.map (·.1)).Nodup) :
    ((vars.foldl (fun done (key, v) => assocSet key v done) done).map (·.1)).Nodup := by
  induction vars generalizing done with
  | nil => exact hdone
  | cons p vars ih =>
    obtain ⟨key, v⟩ := p
    refine ih ?_
    rw [keys_assocSet]
    split
    · exact hdone
    · rename_i hkey
      exact List.nodup_append.mpr ⟨hdone, List.nodup_singleton key, fun k hk l hl => by
        cases List.mem_singleton.mp hl
        exact fun heq => hkey (heq ▸ hk)⟩

/-- A name has the last of the values that were set under it. -/
theorem lookup_last (vars done : List (Text × α)) :
    (vars.foldl (fun done (key, v) => assocSet key v done) done).lookup name =
      (vars.reverse.lookup name).or (done.lookup name) := by
  induction vars generalizing done with
  | nil => rfl
  | cons p vars ih =>
    obtain ⟨key, v⟩ := p
    rw [List.foldl_cons, ih, List.reverse_cons, List.lookup_append, Option.or_assoc, lookup_assocSet,
      lookup_cons_eq]
    split <;> rfl

/-- Where names are set one after another, each once, a name has the value that was set, or the one it had. -/
theorem lookup_assocSets {vars : List (Text × α)} (hnames : (vars.map (·.1)).Nodup) (done : List (Text × α)) :
    (vars.foldl (fun done (key, v) => assocSet key v done) done).lookup name =
      (vars.lookup name).or (done.lookup name) := by
  induction vars generalizing done with
  | nil => rfl
  | cons p vars ih =>
    obtain ⟨key, v⟩ := p
    obtain ⟨hkey, hnames⟩ := List.nodup_cons.mp hnames
    replace hkey : key ∉ vars.map (·.1) := hkey
    rw [List.foldl_cons, ih hnames, lookup_cons_eq, lookup_assocSet]
    split
    · rename_i heq
      have hnone : vars.lookup name = none := by
        refine List.lookup_eq_none_iff.mpr fun q hq => ?_
        have hne : name ≠ q.1 := by
          intro h
          rw [← heq, h] at hkey
          exact hkey (List.mem_map_of_mem hq)
        simpa using hne
      rw [hnone]
      rfl
    · rfl

/-- Lists without a common name can change places. -/
theorem lookup_append_comm {xs ys : List (Text × α)} (h : List.Disjoint (xs.map (·.1)) (ys.map (·.1))) :
    (xs ++ ys).lookup name = (ys ++ xs).lookup name := by
  have hmem : ∀ {zs : List (Text × α)} {x : α}, zs.lookup name = some x → name ∈ zs.map (·.1) := by
    intro zs x hx
    obtain ⟨before, after, rfl, -⟩ := List.lookup_eq_some_iff.mp hx
    simp
  rw [List.lookup_append, List.lookup_append]
  cases hx : xs.lookup name with
  | none => rw [Option.none_or, Option.or_none]
  | some x =>
    cases hy : ys.lookup name with
    | none => rfl
    | some y => exact absurd (hmem hy) (h (hmem hx))

end names

section properties

variable {ps qs : Properties} {key : Text} {x y : Slot} (h : List.Forall₂ (PropertyAlike σ.rel σ.good) ps qs)
  (hxy : Slot.Alike σ.rel σ.good x y)
include h hxy

theorem forall₂_insertIndex (n : Nat) : List.Forall₂ (PropertyAlike σ.rel σ.good)
    (Properties.insertIndex key n x ps) (Properties.insertIndex key n y qs) := by
  induction h with
  | nil => exact .cons ⟨rfl, hxy⟩ .nil
  | @cons p q _ _ hpq hrest ih =>
    rw [Properties.insertIndex, Properties.insertIndex, hpq.1]
    split
    · split
      · exact .cons hpq ih
      · exact .cons ⟨rfl, hxy⟩ (.cons hpq hrest)
    · exact .cons ⟨rfl, hxy⟩ (.cons hpq hrest)

theorem forall₂_set :
    List.Forall₂ (PropertyAlike σ.rel σ.good) (ps.set key x) (qs.set key y) := by
  have hsome : (ps.get? key).isSome = (qs.get? key).isSome := by
    have hrel := rel_get? h key
    generalize ps.get? key = a at hrel ⊢
    generalize qs.get? key = b at hrel ⊢
    cases hrel <;> rfl
  unfold Properties.set
  rw [hsome]
  split
  · refine forall₂_map h fun p q hpq => ?_
    rw [hpq.1]
    split
    · exact ⟨rfl, hxy⟩
    · exact hpq
  · split
    · exact forall₂_insertIndex h hxy _
    · exact List.rel_append h (.cons ⟨rfl, hxy⟩ .nil)

end properties

theorem forall₂_assocSets {xs ys done done' : List (Text × Value)}
    (hxs : List.Forall₂ σ.NamedAlike xs ys) (hdone : List.Forall₂ σ.NamedAlike done done') :
    List.Forall₂ σ.NamedAlike (xs.foldl (fun context (key, v) => assocSet key v context) done)
      (ys.foldl (fun context (key, v) => assocSet key v context) done') := by
  induction hxs generalizing done done' with
  | nil => exact hdone
  | @cons p q _ _ hpq _ ih =>
    obtain ⟨name, v⟩ := p
    obtain ⟨_, w⟩ := q
    obtain ⟨rfl, hvw⟩ := hpq
    exact ih (forall₂_assocSet hdone (fun _ _ hpq => by rw [hpq.1]) ⟨rfl, hvw⟩)

theorem forall₂_setAll {ps qs : List (Text × Slot)} {done done' : Properties}
    (h : List.Forall₂ (PropertyAlike σ.rel σ.good) ps qs)
    (hdone : List.Forall₂ (PropertyAlike σ.rel σ.good) done done') :
    List.Forall₂ (PropertyAlike σ.rel σ.good)
      (ps.foldl (fun (ps : Properties) (key, slot) => ps.set key slot) done)
      (qs.foldl (fun (ps : Properties) (key, slot) => ps.set key slot) done') := by
  induction h generalizing done done' with
  | nil => exact hdone
  | @cons p q _ _ hpq _ ih =>
    obtain ⟨key, x⟩ := p
    obtain ⟨_, y⟩ := q
    obtain ⟨rfl, hxy⟩ := hpq
    exact ih (forall₂_set hdone hxy)

theorem forall₂_ofList {ps qs : List (Text × Slot)} (h : List.Forall₂ (PropertyAlike σ.rel σ.good) ps qs) :
    List.Forall₂ (PropertyAlike σ.rel σ.good) (Properties.ofList ps) (Properties.ofList qs) :=
  forall₂_setAll h .nil

/-- Scopes stay alike where one name is set to the same in both. -/
theorem ScopeAlike.setVar {i j : ScopeId} {p q : Scope} {v w : Value} (hpq : σ.ScopeAlike i j p q) (name : Text)
    (hvw : σ.Alike v w) :
    σ.ScopeAlike i j { p with vars := assocSet name v p.vars } { q with vars := assocSet name w q.vars } := by
  refine { hpq with vars := fun hi => ?_, shown := fun n hn => ?_ }
  · refine forall₂_assocSet (hpq.vars hi) (fun p q hpq => ?_) ⟨rfl, hvw⟩
    rw [hpq.1]
  · dsimp only
    rw [lookup_assocSet, lookup_assocSet]
    split
    · exact .some hvw
    · exact hpq.shown n hn

namespace Agree

variable (h : σ.Agree κ s t)
include h

theorem fresh_of_taken {s' t' : Store} (hs : ∀ a, ∃ n, s'.taken a = s.taken a + n ∧ t'.taken a = t.taken a + n)
    (a : Area) (k : Nat) : σ.rel a (s'.taken a + k) (t'.taken a + k) := by
  obtain ⟨n, hs, ht⟩ := hs a
  rw [hs, ht, Nat.add_assoc, Nat.add_assoc]
  exact h.fresh a (n + k)

theorem fresh_id (a : Area) : σ.rel a (s.taken a) (t.taken a) := h.fresh a 0

theorem newList {items items' : List Value} (hitems : List.Forall₂ σ.Alike items items') :
    σ.Agree κ (s.newList items).2 (t.newList items').2 ∧
      σ.Alike (s.newList items).1 (t.newList items').1 := by
  refine ⟨{ h with
      fresh := h.fresh_of_taken fun a => ?_, lists := ?_, left := h.left.newList _, right := h.right.newList _
      still := h.still.newList _ },
    .list (h.fresh_id .list)⟩
  · cases a with
    | list => exact ⟨1, Array.size_push _, Array.size_push _⟩
    | _ => exact ⟨0, rfl, rfl⟩
  · exact rel_push h.lists (h.fresh_id .list) hitems

theorem newMapping {ps qs : Properties} (hps : List.Forall₂ (PropertyAlike σ.rel σ.good) ps qs) :
    σ.Agree κ (s.newMapping ps).2 (t.newMapping qs).2 ∧
      σ.Alike (s.newMapping ps).1 (t.newMapping qs).1 := by
  refine ⟨{ h with
      fresh := h.fresh_of_taken fun a => ?_, mappings := ?_, left := h.left.newMapping _, right := h.right.newMapping _
      still := h.still.newMapping _ },
    .mapping (h.fresh_id .mapping)⟩
  · cases a with
    | mapping => exact ⟨1, Array.size_push _, Array.size_push _⟩
    | _ => exact ⟨0, rfl, rfl⟩
  · exact rel_push h.mappings (h.fresh_id .mapping) hps

theorem newTable {es es' : List (Value × Value)} (hes : List.Forall₂ σ.EntryAlike es es') :
    σ.Agree κ (s.newTable es).2 (t.newTable es').2 ∧ σ.Alike (s.newTable es).1 (t.newTable es').1 := by
  refine ⟨{ h with
      fresh := h.fresh_of_taken fun a => ?_, tables := ?_, left := h.left.newTable _, right := h.right.newTable _
      still := h.still.newTable _ },
    .table (h.fresh_id .table)⟩
  · cases a with
    | table => exact ⟨1, Array.size_push _, Array.size_push _⟩
    | _ => exact ⟨0, rfl, rfl⟩
  · exact rel_push h.tables (h.fresh_id .table) hes

theorem nextSerial : σ.Agree κ { s with serial := s.serial + 1 } { t with serial := t.serial + 1 } := by
  refine { h with
    fresh := h.fresh_of_taken fun a => ?_, left := h.left.nextSerial, right := h.right.nextSerial, still := { h.still with } }
  cases a with
  | native | foreign => exact ⟨1, rfl, rfl⟩
  | _ => exact ⟨0, rfl, rfl⟩

theorem newNative {f g : Native} (hfg : Native.Alike σ.rel f g) :
    σ.Agree κ (s.newNative f).2 (t.newNative g).2 ∧ σ.Alike (s.newNative f).1 (t.newNative g).1 :=
  ⟨h.nextSerial, .native (h.fresh_id .native) hfg⟩

theorem newForeign : σ.Agree κ s.newForeign.2 t.newForeign.2 ∧ σ.Alike s.newForeign.1 t.newForeign.1 :=
  ⟨h.nextSerial, .foreign (h.fresh_id .foreign)⟩

theorem newMacro {m n : Macro} (hmn : σ.MacroAlike κ m n) :
    σ.Agree κ (s.newMacro m).2 (t.newMacro n).2 ∧ σ.Alike (s.newMacro m).1 (t.newMacro n).1 := by
  refine ⟨{ h with
      fresh := h.fresh_of_taken fun a => ?_, macros := ?_, left := { h.left with }, right := { h.right with }
      still := { h.still with } },
    .ofMacro (h.fresh_id .ofMacro)⟩
  · cases a with
    | ofMacro => exact ⟨1, Array.size_push _, Array.size_push _⟩
    | _ => exact ⟨0, rfl, rfl⟩
  · exact rel_push h.macros (h.fresh_id .ofMacro) hmn

theorem setList {i j : ListId} {items items' : List Value} (hij : σ.rel .list i j)
    (hitems : List.Forall₂ σ.Alike items items') : σ.Agree κ (s.setList i items) (t.setList j items') := by
  have hapart := σ.apart hij trivial
  refine { h with
    fresh := h.fresh_of_taken fun a => ⟨0, ?_⟩, lists := ?_, left := ?_, right := ?_
    still := h.still.setList hij _ }
  · cases a <;> simp [Store.taken, Store.setList]
  · exact rel_set h.lists hij hitems
  · exact { h.left with lists := getElem?_set_of_apart hapart.1 h.left.lists }
  · exact { h.right with lists := getElem?_set_of_apart hapart.2 h.right.lists }

theorem setMapping {i j : MappingId} {ps qs : Properties} (hij : σ.rel .mapping i j)
    (hps : List.Forall₂ (PropertyAlike σ.rel σ.good) ps qs) :
    σ.Agree κ (s.setMapping i ps) (t.setMapping j qs) := by
  have hapart := σ.apart hij trivial
  refine { h with
    fresh := h.fresh_of_taken fun a => ⟨0, ?_⟩, mappings := ?_, left := ?_, right := ?_
    still := h.still.setMapping hij _ }
  · cases a <;> simp [Store.taken, Store.setMapping]
  · exact rel_set h.mappings hij hps
  · exact { h.left with mappings := getElem?_set_of_apart hapart.1 h.left.mappings }
  · exact { h.right with mappings := getElem?_set_of_apart hapart.2 h.right.mappings }

theorem setTable {i j : TableId} {es es' : List (Value × Value)} (hij : σ.rel .table i j)
    (hes : List.Forall₂ σ.EntryAlike es es') : σ.Agree κ (s.setTable i es) (t.setTable j es') := by
  have hapart := σ.apart hij trivial
  refine { h with
    fresh := h.fresh_of_taken fun a => ⟨0, ?_⟩, tables := ?_, left := ?_, right := ?_
    still := h.still.setTable hij _ }
  · cases a <;> simp [Store.taken, Store.setTable]
  · exact rel_set h.tables hij hes
  · exact { h.left with tables := getElem?_set_of_apart hapart.1 h.left.tables }
  · exact { h.right with tables := getElem?_set_of_apart hapart.2 h.right.tables }

theorem setEntry {c d : Keyed} {v w : Value} (hcd : Keyed.Alike σ.rel c d) (key : Text) (hvw : σ.Alike v w) :
    σ.Agree κ (s.setEntry c key v) (t.setEntry d key w) := by
  cases hcd with
  | mapping hij => exact h.setMapping hij (forall₂_set (h.mapping hij) (.data hvw))
  | table hij =>
    refine h.setTable hij (forall₂_assocSet (h.table hij) ?_ ⟨.inl (.text key), hvw⟩)
    exact fun p q hpq => keyAlike_text hpq.1 key

omit h in
theorem setEntries {c d : Keyed} {xs ys : List (Text × Value)} (hcd : Keyed.Alike σ.rel c d)
    (hxs : List.Forall₂ σ.NamedAlike xs ys) {s t : Store} (h : σ.Agree κ s t) :
    σ.Agree κ (xs.foldl (fun s (key, v) => s.setEntry c key v) s)
      (ys.foldl (fun s (key, v) => s.setEntry d key v) t) := by
  induction hxs generalizing s t with
  | nil => exact h
  | @cons p q _ _ hpq _ ih =>
    obtain ⟨key, v⟩ := p
    obtain ⟨key', w⟩ := q
    obtain ⟨hkey, hvw⟩ := hpq
    cases hkey
    exact ih (h.setEntry hcd key hvw)

/-- What is known may grow by what holds. -/
theorem know (hκ : κ ≤ μ)
    (hknown : ∀ i, ∀ n ∈ μ.names i, n ∈ σ.shown ∨ (i ∈ σ.outer → σ.Clear s t i n) ∧ ∃ p, s.scopes[i]? = some p ∧
      ((p.vars.lookup n).isSome ∨ ∀ k ∈ p.parent, n ∈ μ.names k))
    (hlive : ∀ i ∈ μ.live, i < s.scopes.size) : σ.Agree μ s t := by
  refine { h with macros := fun m n hmn => ?_, known := hknown, live := hlive }
  have hrel := h.macros m n hmn
  generalize s.macros[m]? = x at hrel ⊢
  generalize t.macros[n]? = y at hrel ⊢
  cases hrel with
  | none => exact .none
  | some hrel => exact .some (hrel.mono hκ)

theorem taken_right {i j : ScopeId} (hij : σ.rel .scope i j) (hi : i < s.scopes.size) : j < t.scopes.size := by
  have hrel := h.scopes i j hij
  rw [Array.getElem?_eq_getElem hi] at hrel
  by_contra hj
  rw [Array.getElem?_eq_none (Nat.not_lt.mp hj)] at hrel
  cases hrel

theorem newScope {p q : Option ScopeId} {vars vars' : List (Text × Value)}
    (hscope : σ.ScopeAlike s.scopes.size t.scopes.size ⟨p, vars⟩ ⟨q, vars'⟩) :
    σ.Agree κ (s.newScope p vars).2 (t.newScope q vars').2 := by
  refine { h with
    fresh := h.fresh_of_taken fun a => ?_, scopes := ?_, known := ?_, live := ?_, outer := ?_
    left := { h.left with }, right := { h.right with }, still := { h.still with } }
  · cases a with
    | scope => exact ⟨1, Array.size_push _, Array.size_push _⟩
    | _ => exact ⟨0, rfl, rfl⟩
  · exact rel_push h.scopes (h.fresh_id .scope) hscope
  · intro i n hn
    rcases h.known i n hn with hn | ⟨hclear, p, hp, hn⟩
    · exact .inl hn
    · refine .inr ⟨fun ho j hij => ?_, p, getElem?_push_of_some hp, hn⟩
      rw [Store.scope_newScope (h.outer i ho), Store.scope_newScope (h.taken_right hij (h.outer i ho))]
      exact hclear ho j hij
  · intro i hi
    exact (h.live i hi).trans_le (by simp [Store.newScope])
  · intro i hi
    exact (h.outer i hi).trans_le (by simp [Store.newScope])

theorem not_outer : s.scopes.size ∉ σ.outer := fun ho => Nat.lt_irrefl _ (h.outer _ ho)

/-- A new scope inside another knows what that knows. -/
theorem newInner {i j : ScopeId} {vars vars' : List (Text × Value)} (hij : σ.rel .scope i j)
    (hlt : i < s.scopes.size) (hvars : List.Forall₂ σ.NamedAlike vars vars') :
    σ.Agree (κ.enter s.scopes.size i) (s.newScope (some i) vars).2 (t.newScope (some j) vars').2 := by
  have hlt' := h.taken_right hij hlt
  have hnew : σ.Agree κ (s.newScope (some i) vars).2 (t.newScope (some j) vars').2 := h.newScope
    { parent := .some hij
      older_left := by rintro k ⟨⟩; exact hlt
      older_right := by rintro k ⟨⟩; exact hlt'
      vars := fun _ => hvars
      shown := fun n _ => rel_lookup hvars n }
  refine hnew.know Known.le_enter ?_ ?_
  · rintro k n (hn | ⟨rfl, hn⟩)
    · rcases hnew.known k n hn with hn | ⟨hclear, p, hp, hn⟩
      · exact .inl hn
      · exact .inr ⟨hclear, p, hp, hn.imp_right fun hn m hm => .inl (hn m hm)⟩
    · refine .inr ⟨fun ho => absurd ho h.not_outer, ⟨some i, vars⟩, Array.getElem?_push_size, .inr ?_⟩
      rintro m ⟨⟩
      exact .inl hn
  · rintro k (rfl | hk)
    · simp [Store.newScope]
    · exact hnew.live k hk

/-- A variable that is set to the same on both sides is clear, and no other variable becomes less so. -/
theorem clear_setVar {i j k : ScopeId} {v w : Value} (hij : σ.rel .scope i j) (hvw : σ.Alike v w)
    (hk : k < s.scopes.size) (hclear : ¬ (i = k ∧ n = name) → σ.Clear s t k n) :
    σ.Clear (s.setVar i name v) (t.setVar j name w) k n := by
  intro l hkl
  have hiff : i = k ↔ j = l := ⟨fun h => σ.functional (h ▸ hij) hkl, fun h => σ.injective (h ▸ hij) hkl⟩
  rw [Store.lookup_setVar hk, Store.lookup_setVar (h.taken_right hkl hk)]
  by_cases hn : i = k ∧ n = name
  · rw [if_pos hn, if_pos ⟨hiff.mp hn.1, hn.2⟩]
    exact .some hvw
  · rw [if_neg hn, if_neg fun hn' => hn ⟨hiff.mpr hn'.1, hn'.2⟩]
    exact hclear hn l hkl

theorem setVar {i j : ScopeId} {v w : Value} (hij : σ.rel .scope i j) (name : Text) (hvw : σ.Alike v w) :
    σ.Agree (κ.learn i name) (s.setVar i name v) (t.setVar j name w) := by
  have hsize : (s.setVar i name v).scopes.size = s.scopes.size := Array.size_modify ..
  have hset : σ.Agree κ (s.setVar i name v) (t.setVar j name w) := by
    refine { h with
      fresh := h.fresh_of_taken fun a => ⟨0, ?_⟩, scopes := rel_modify h.scopes hij fun p q hpq => hpq.setVar name hvw
      known := ?_, live := ?_, outer := ?_, left := { h.left with }, right := { h.right with }
      still := { h.still with } }
    · cases a <;> simp [Store.taken, Store.setVar]
    · intro k n hn
      rcases h.known k n hn with hn | ⟨hclear, p, hp, hn⟩
      · exact .inl hn
      · obtain ⟨p', hp', hparent, hbound, -⟩ := Store.exists_scope_setVar hp
        have hlt := (Array.getElem?_eq_some_iff.mp hp).1
        refine .inr ⟨fun ho => h.clear_setVar hij hvw hlt fun _ => hclear ho, p', hp', hn.imp (hbound n) ?_⟩
        rw [hparent]
        exact id
    · intro k hk
      rw [hsize]
      exact h.live k hk
    · intro k hk
      rw [hsize]
      exact h.outer k hk
  refine hset.know Known.le_learn ?_ hset.live
  rintro k n (hn | ⟨rfl, rfl, hlive⟩)
  · exact (hset.known k n hn).imp_right fun ⟨hclear, p, hp, hn⟩ =>
      ⟨hclear, p, hp, hn.imp_right fun hn m hm => .inl (hn m hm)⟩
  · have hlt := h.live k hlive
    obtain ⟨p', hp', -, -, hbound⟩ := Store.exists_scope_setVar (Array.getElem?_eq_getElem hlt)
    exact .inr ⟨fun _ => h.clear_setVar hij hvw hlt fun hne => absurd ⟨rfl, rfl⟩ hne, p', hp', .inl (hbound rfl)⟩

end Agree
end Correspondence
end Stencil
