import Stencil.Proofs.Correspondence.Change

/-!
What a computation can reach. It starts from a store and shares a few things of it that it never changes; everything else
that it reads or changes is its own, made since the start. No identity is used before it is taken.
-/

namespace Stencil

open Correspondence (Keeps getElem?_set_of_apart)

namespace Store

variable {s t u : Store}

theorem taken_le_of_keeps (h : Keeps s t) (hscopes : s.scopes.size ≤ t.scopes.size)
    (hmacros : s.macros.size ≤ t.macros.size) (a : Area) : s.taken a ≤ t.taken a := by
  cases a with
  | list => exact Keeps.size_le h.lists
  | mapping => exact Keeps.size_le h.mappings
  | table => exact Keeps.size_le h.tables
  | scope => exact hscopes
  | ofMacro => exact hmacros
  | native => exact h.serial
  | foreign => exact h.serial

/-- A store that has everything of another as it was, and perhaps more. -/
structure Extends (s t : Store) : Prop extends Keeps s t where
  scopes : ∀ {i : ScopeId} {x}, s.scopes[i]? = some x → t.scopes[i]? = some x
  macros : ∀ {i : MacroId} {x}, s.macros[i]? = some x → t.macros[i]? = some x

namespace Extends

theorem refl (s : Store) : s.Extends s := ⟨.refl s, id, id⟩

theorem trans (h : s.Extends t) (h' : t.Extends u) : s.Extends u :=
  ⟨h.toKeeps.trans h'.toKeeps, fun hx => h'.scopes (h.scopes hx), fun hx => h'.macros (h.macros hx)⟩

theorem taken_le (h : s.Extends t) (a : Area) : s.taken a ≤ t.taken a :=
  taken_le_of_keeps h.toKeeps (Keeps.size_le h.scopes) (Keeps.size_le h.macros) a

end Extends

/-- No fewer identities are taken. -/
def Grows (s t : Store) : Prop := ∀ a, s.taken a ≤ t.taken a

theorem Grows.refl (s : Store) : s.Grows s := fun _ => le_refl _

theorem Grows.trans (h : s.Grows t) (h' : t.Grows u) : s.Grows u := fun a => (h a).trans (h' a)

end Store

/-! ## What is in a list after an entry was set -/

section entries

theorem mem_assocSet {α β : Type} [DecidableEq α] {k : α} {b : β} {xs : List (α × β)} {p : α × β}
    (hp : p ∈ assocSet k b xs) : p = (k, b) ∨ p ∈ xs := by
  induction xs with
  | nil => exact .inl (List.mem_singleton.mp hp)
  | cons q xs ih =>
    obtain ⟨k', b'⟩ := q
    rw [assocSet] at hp
    split at hp
    · rename_i hk
      rcases List.mem_cons.mp hp with rfl | hp
      · exact .inl (by rw [hk])
      · exact .inr (List.mem_cons_of_mem _ hp)
    · rcases List.mem_cons.mp hp with rfl | hp
      · exact .inr List.mem_cons_self
      · exact (ih hp).imp_right (List.mem_cons_of_mem _)

variable {key : Text} {slot : Slot} {p : Text × Slot}

theorem Properties.mem_insertIndex {n : Nat} {ps : Properties} (hp : p ∈ insertIndex key n slot ps) :
    p = (key, slot) ∨ p ∈ ps := by
  induction ps with
  | nil => exact .inl (List.mem_singleton.mp hp)
  | cons q ps ih =>
    rw [insertIndex] at hp
    split at hp
    · split at hp
      · rcases List.mem_cons.mp hp with rfl | hp
        · exact .inr List.mem_cons_self
        · exact (ih hp).imp_right (List.mem_cons_of_mem _)
      · exact List.mem_cons.mp hp
    · exact List.mem_cons.mp hp

theorem Properties.mem_set {ps : Properties} (hp : p ∈ ps.set key slot) : p = (key, slot) ∨ p ∈ ps := by
  unfold Properties.set at hp
  split at hp
  · obtain ⟨q, hq, rfl⟩ := List.mem_map.mp hp
    split
    · exact .inl rfl
    · exact .inr hq
  · split at hp
    · exact mem_insertIndex hp
    · exact (List.mem_append.mp hp).symm.imp_left List.mem_singleton.mp

theorem Properties.mem_ofList {entries : List (Text × Slot)} (hp : p ∈ ofList entries) : p ∈ entries := by
  have hmem : ∀ (entries done : List (Text × Slot)),
      p ∈ entries.foldl (fun (ps : Properties) q => ps.set q.1 q.2) done → p ∈ entries ∨ p ∈ done := by
    intro entries
    induction entries with
    | nil => exact fun _ => .inr
    | cons q entries ih =>
      intro done hp
      rcases ih _ hp with hp | hp
      · exact .inl (List.mem_cons_of_mem _ hp)
      · rcases mem_set hp with rfl | hp
        · exact .inl List.mem_cons_self
        · exact .inr hp
  exact (hmem entries [] hp).resolve_right List.not_mem_nil

end entries

/-- Where a computation starts, and what it shares of the start: scopes, functions and opaque objects. What is shared
leads to nothing else. -/
structure Realm where
  start : Store
  shared : Set Place
  fixed {p : Place} : p ∈ shared → p.1 = .scope ∨ p.1 = .native ∨ p.1 = .foreign
  taken {p : Place} : p ∈ shared → p.2 < start.taken p.1
  closed {i : ScopeId} : (.scope, i) ∈ shared → (∀ k ∈ (start.scope i).parent, k < i ∧ (.scope, k) ∈ shared) ∧
    ∀ p ∈ (start.scope i).vars, ∀ q ∈ p.2.places, q ∈ shared

namespace Realm

variable (ρ : Realm)

/-- A thing of the realm: one made since the start, or one that is shared. -/
def Has (s : Store) (p : Place) : Prop := (ρ.start.taken p.1 ≤ p.2 ∧ p.2 < s.taken p.1) ∨ p ∈ ρ.shared

/-- A value of the realm holds things of the realm only. -/
def Owns (s : Store) (v : Value) : Prop := ∀ p ∈ v.places, ρ.Has s p

/-- A scope that was made since the start. -/
def Home (s : Store) (i : ScopeId) : Prop := ρ.start.scopes.size ≤ i ∧ i < s.scopes.size

/-- A scope lies inside of older ones of the realm, and its variables are of the realm. -/
structure OwnsScope (s : Store) (i : ScopeId) (scope : Scope) : Prop where
  parent : ∀ k ∈ scope.parent, k < i ∧ ρ.Has s (.scope, k)
  vars : ∀ p ∈ scope.vars, ρ.Owns s p.2

/-- The start stands as it was, and what was made since then is of the realm all through. -/
structure Rules (s : Store) : Prop where
  kept : ρ.start.Extends s
  lists : ∀ i, ρ.start.lists.size ≤ i → ∀ vs, s.lists[i]? = some vs → ∀ v ∈ vs, ρ.Owns s v
  mappings : ∀ i, ρ.start.mappings.size ≤ i → ∀ ps, s.mappings[i]? = some ps → ∀ p ∈ ps, ρ.Owns s p.2.value
  tables : ∀ i, ρ.start.tables.size ≤ i → ∀ es, s.tables[i]? = some es → ∀ e ∈ es, ρ.Owns s e.1 ∧ ρ.Owns s e.2
  scopes : ∀ i, ρ.Has s (.scope, i) → ∀ x, s.scopes[i]? = some x → ρ.OwnsScope s i x
  macros : ∀ i, ρ.start.macros.size ≤ i → ∀ m, s.macros[i]? = some m → ρ.Home s m.scope

variable {ρ} {s t : Store} {v w : Value} {p : Place} {i : Nat}

theorem Has.mono (h : ρ.Has s p) (hst : s.Grows t) : ρ.Has t p := h.imp_left fun h => ⟨h.1, h.2.trans_le (hst p.1)⟩

theorem Owns.mono (h : ρ.Owns s v) (hst : s.Grows t) : ρ.Owns t v := fun p hp => (h p hp).mono hst

theorem Home.mono (h : ρ.Home s i) (hst : s.Grows t) : ρ.Home t i := ⟨h.1, h.2.trans_le (hst .scope)⟩

theorem OwnsScope.mono {x : Scope} (h : ρ.OwnsScope s i x) (hst : s.Grows t) : ρ.OwnsScope t i x :=
  ⟨fun k hk => ⟨(h.parent k hk).1, (h.parent k hk).2.mono hst⟩, fun p hp => (h.vars p hp).mono hst⟩

theorem Home.has (h : ρ.Home s i) : ρ.Has s (.scope, i) := .inl h

/-- A value without identities is of every realm. -/
theorem owns_of_places (h : v.places = []) : ρ.Owns s v := by
  intro p hp
  rw [h] at hp
  cases hp

theorem owns_text (u : Text) : ρ.Owns s (.text u) := owns_of_places rfl

theorem owns_absent : ρ.Owns s .absent := owns_of_places rfl

theorem owns_undefined (reason : Missing) : ρ.Owns s (.undefined reason) := owns_of_places rfl

/-- Containers and macros are never shared. -/
theorem not_shared {a : Area} (ha : a = .list ∨ a = .mapping ∨ a = .table ∨ a = .ofMacro) : (a, i) ∉ ρ.shared := by
  intro hp
  rcases ha with rfl | rfl | rfl | rfl <;> rcases ρ.fixed hp with h | h | h <;> cases h

theorem Owns.list {id : ListId} (h : ρ.Owns s (.list id)) : ρ.start.lists.size ≤ id ∧ id < s.lists.size :=
  (h _ List.mem_cons_self).resolve_right (not_shared (.inl rfl))

theorem Owns.mapping {id : MappingId} (h : ρ.Owns s (.mapping id)) :
    ρ.start.mappings.size ≤ id ∧ id < s.mappings.size :=
  (h _ List.mem_cons_self).resolve_right (not_shared (.inr (.inl rfl)))

theorem Owns.table {id : TableId} (h : ρ.Owns s (.table id)) : ρ.start.tables.size ≤ id ∧ id < s.tables.size :=
  (h _ List.mem_cons_self).resolve_right (not_shared (.inr (.inr (.inl rfl))))

theorem Owns.ofMacro {id : MacroId} (h : ρ.Owns s (.ofMacro id)) : ρ.start.macros.size ≤ id ∧ id < s.macros.size :=
  (h _ List.mem_cons_self).resolve_right (not_shared (.inr (.inr (.inr rfl))))

/-- The container that a method is bound to is of the realm if the method is. -/
theorem Owns.receiver {n : Nat} {f : Native} (h : ρ.Owns s (.native n f)) : ∀ p ∈ f.places, ρ.Has s p :=
  fun p hp => h p (List.mem_cons_of_mem _ hp)

theorem getElem?_scope (h : i < s.scopes.size) : s.scopes[i]? = some (s.scope i) := by
  rw [Store.scope, Array.getElem?_eq_getElem h]
  rfl

/-- The realm of everything: only what is taken is used. -/
def whole : Realm where
  start := .empty
  shared := ∅
  fixed hp := nomatch hp
  taken hp := nomatch hp
  closed hp := nomatch hp

theorem has_whole (hp : p.2 < s.taken p.1) : whole.Has s p := by
  obtain ⟨x, i⟩ := p
  refine .inl ⟨?_, hp⟩
  cases x <;> exact Nat.zero_le _

/-- A realm holds at its start. -/
theorem rules_start (ρ : Realm) : ρ.Rules ρ.start where
  kept := .refl _
  lists i hi vs hvs := absurd (Array.getElem?_eq_some_iff.mp hvs).1 (Nat.not_lt.mpr hi)
  mappings i hi ps hps := absurd (Array.getElem?_eq_some_iff.mp hps).1 (Nat.not_lt.mpr hi)
  tables i hi es hes := absurd (Array.getElem?_eq_some_iff.mp hes).1 (Nat.not_lt.mpr hi)
  scopes i hi x hx := by
    have hlt : i < ρ.start.scopes.size := (Array.getElem?_eq_some_iff.mp hx).1
    have hshared : (.scope, i) ∈ ρ.shared := hi.resolve_left fun h => Nat.not_lt.mpr h.1 hlt
    obtain ⟨hparent, hvars⟩ := ρ.closed hshared
    rw [getElem?_scope hlt] at hx
    cases hx
    exact ⟨fun k hk => ⟨(hparent k hk).1, .inr (hparent k hk).2⟩, fun p hp q hq => .inr (hvars p hp q hq)⟩
  macros i hi m hm := absurd (Array.getElem?_eq_some_iff.mp hm).1 (Nat.not_lt.mpr hi)

/-- The scopes that are shared stay as they are. -/
theorem shared_scope (h : ρ.start.Extends s) (hi : (.scope, i) ∈ ρ.shared) :
    s.scopes[i]? = some (ρ.start.scope i) :=
  h.scopes (getElem?_scope (ρ.taken hi))

/-- What is shared, from a later store on. -/
def later (ρ : Realm) {s : Store} (h : ρ.start.Extends s) : Realm where
  start := s
  shared := ρ.shared
  fixed := ρ.fixed
  taken hp := (ρ.taken hp).trans_le (h.taken_le _)
  closed {i} hi := by
    have hsame : s.scope i = ρ.start.scope i := by
      rw [Store.scope, shared_scope h hi]
      rfl
    rw [hsame]
    exact ρ.closed hi

namespace Rules

/-! ## Reading -/

section reading

variable (h : ρ.Rules s)
include h

theorem grows : ρ.start.Grows s := h.kept.taken_le

/-- What a realm has is there. -/
theorem lt (hp : ρ.Has s p) : p.2 < s.taken p.1 := hp.elim (·.2) fun hp => (ρ.taken hp).trans_le (h.grows p.1)

theorem list {id : ListId} (hid : ρ.Owns s (.list id)) : ∀ v ∈ s.list id, ρ.Owns s v := by
  intro v hv
  rw [Store.list, Array.getElem?_eq_getElem hid.list.2] at hv
  exact h.lists id hid.list.1 _ (Array.getElem?_eq_getElem hid.list.2) v hv

theorem mapping {id : MappingId} (hid : ρ.Owns s (.mapping id)) : ∀ p ∈ s.mapping id, ρ.Owns s p.2.value := by
  intro p hp
  rw [Store.mapping, Array.getElem?_eq_getElem hid.mapping.2] at hp
  exact h.mappings id hid.mapping.1 _ (Array.getElem?_eq_getElem hid.mapping.2) p hp

theorem table {id : TableId} (hid : ρ.Owns s (.table id)) : ∀ e ∈ s.table id, ρ.Owns s e.1 ∧ ρ.Owns s e.2 := by
  intro e he
  rw [Store.table, Array.getElem?_eq_getElem hid.table.2] at he
  exact h.tables id hid.table.1 _ (Array.getElem?_eq_getElem hid.table.2) e he

theorem scope (hi : ρ.Has s (.scope, i)) : ρ.OwnsScope s i (s.scope i) := by
  unfold Store.scope
  cases hx : s.scopes[i]? with
  | none => exact ⟨fun _ hk => (nomatch hk), fun _ hp => nomatch hp⟩
  | some x => exact h.scopes i hi x hx

end reading

/-! ## Changing -/

section changing

/-- The invariant in a store with more things, once the change itself is seen to. -/
theorem grow (h : ρ.Rules s) (hst : s.Grows t) (kept : ρ.start.Extends t)
    (lists : ∀ i, ρ.start.lists.size ≤ i → ∀ vs, t.lists[i]? = some vs →
      s.lists[i]? = some vs ∨ ∀ v ∈ vs, ρ.Owns t v)
    (mappings : ∀ i, ρ.start.mappings.size ≤ i → ∀ ps, t.mappings[i]? = some ps →
      s.mappings[i]? = some ps ∨ ∀ p ∈ ps, ρ.Owns t p.2.value)
    (tables : ∀ i, ρ.start.tables.size ≤ i → ∀ es, t.tables[i]? = some es →
      s.tables[i]? = some es ∨ ∀ e ∈ es, ρ.Owns t e.1 ∧ ρ.Owns t e.2)
    (scopes : ∀ i, ρ.Has t (.scope, i) → ∀ x, t.scopes[i]? = some x →
      s.scopes[i]? = some x ∨ ρ.OwnsScope t i x)
    (macros : ∀ i, ρ.start.macros.size ≤ i → ∀ m, t.macros[i]? = some m →
      s.macros[i]? = some m ∨ ρ.Home t m.scope) : ρ.Rules t where
  kept := kept
  lists i hi vs hvs := (lists i hi vs hvs).elim (fun hold v hv => (h.lists i hi vs hold v hv).mono hst) id
  mappings i hi ps hps :=
    (mappings i hi ps hps).elim (fun hold p hp => (h.mappings i hi ps hold p hp).mono hst) id
  tables i hi es hes := (tables i hi es hes).elim
    (fun hold e he => ⟨(h.tables i hi es hold e he).1.mono hst, (h.tables i hi es hold e he).2.mono hst⟩) id
  scopes i hi x hx := by
    rcases scopes i hi x hx with hold | hnew
    · refine (h.scopes i ?_ x hold).mono hst
      exact hi.imp_left fun hi => ⟨hi.1, (Array.getElem?_eq_some_iff.mp hold).1⟩
    · exact hnew
  macros i hi m hm := (macros i hi m hm).elim (fun hold => (h.macros i hi m hold).mono hst) id

/-- What is in an array after something was added. -/
theorem push_cases {α : Type} {xs : Array α} {x y : α} (hy : (xs.push x)[i]? = some y) : xs[i]? = some y ∨ y = x := by
  rw [Array.getElem?_push] at hy
  split at hy
  · cases hy
    exact .inr rfl
  · exact .inl hy

/-- What is in an array after something in it was set. -/
theorem set_cases {α : Type} {xs : Array α} {x y : α} {m : Nat} (hy : (xs.setIfInBounds m x)[i]? = some y) :
    xs[i]? = some y ∨ y = x := by
  rw [Array.getElem?_setIfInBounds] at hy
  split at hy
  · split at hy
    · cases hy
      exact .inr rfl
    · cases hy
  · exact .inl hy

theorem lt_size_push {α : Type} (xs : Array α) (x : α) : xs.size < (xs.push x).size := by
  rw [Array.size_push]
  exact Nat.lt_succ_self _

variable (h : ρ.Rules s)
include h

theorem newList {vs : List Value} (hvs : ∀ v ∈ vs, ρ.Owns s v) :
    ρ.Rules (s.newList vs).2 ∧ s.Grows (s.newList vs).2 ∧ ρ.Owns (s.newList vs).2 (s.newList vs).1 := by
  have hst : s.Grows (s.newList vs).2 := by
    intro a
    cases a with
    | list => exact (lt_size_push s.lists vs).le
    | _ => exact le_refl _
  refine ⟨h.grow hst ?_ (fun i _ ws hws => ?_) (fun _ _ _ => .inl) (fun _ _ _ => .inl) (fun _ _ _ => .inl)
    (fun _ _ _ => .inl), hst, ?_⟩
  · exact { h.kept with toKeeps := h.kept.toKeeps.newList vs }
  · rcases push_cases hws with hold | rfl
    · exact .inl hold
    · exact .inr fun v hv => (hvs v hv).mono hst
  · intro p hp
    cases List.mem_singleton.mp hp
    exact .inl ⟨h.grows .list, lt_size_push s.lists vs⟩

theorem newMapping {ps : Properties} (hps : ∀ p ∈ ps, ρ.Owns s p.2.value) :
    ρ.Rules (s.newMapping ps).2 ∧ s.Grows (s.newMapping ps).2 ∧ ρ.Owns (s.newMapping ps).2 (s.newMapping ps).1 := by
  have hst : s.Grows (s.newMapping ps).2 := by
    intro a
    cases a with
    | mapping => exact (lt_size_push s.mappings ps).le
    | _ => exact le_refl _
  refine ⟨h.grow hst ?_ (fun _ _ _ => .inl) (fun i _ qs hqs => ?_) (fun _ _ _ => .inl) (fun _ _ _ => .inl)
    (fun _ _ _ => .inl), hst, ?_⟩
  · exact { h.kept with toKeeps := h.kept.toKeeps.newMapping ps }
  · rcases push_cases hqs with hold | rfl
    · exact .inl hold
    · exact .inr fun q hq => (hps q hq).mono hst
  · intro p hp
    cases List.mem_singleton.mp hp
    exact .inl ⟨h.grows .mapping, lt_size_push s.mappings ps⟩

/-- A further function or opaque object was counted. -/
theorem nextSerial : ρ.Rules { s with serial := s.serial + 1 } ∧ s.Grows { s with serial := s.serial + 1 } := by
  have hst : s.Grows { s with serial := s.serial + 1 } := by
    intro a
    cases a with
    | native | foreign => exact Nat.le_succ _
    | _ => exact le_refl _
  refine ⟨h.grow hst ?_ (fun _ _ _ => .inl) (fun _ _ _ => .inl) (fun _ _ _ => .inl) (fun _ _ _ => .inl)
    (fun _ _ _ => .inl), hst⟩
  exact { h.kept with toKeeps := h.kept.toKeeps.nextSerial }

theorem newNative {f : Native} (hf : ∀ p ∈ f.places, ρ.Has s p) :
    ρ.Rules (s.newNative f).2 ∧ s.Grows (s.newNative f).2 ∧ ρ.Owns (s.newNative f).2 (s.newNative f).1 := by
  obtain ⟨hrules, hst⟩ := h.nextSerial
  refine ⟨hrules, hst, fun p hp => ?_⟩
  rcases List.mem_cons.mp hp with rfl | hp
  · exact .inl ⟨h.grows .native, Nat.lt_succ_self _⟩
  · exact (hf p hp).mono hst

/-- A scope with variables of the realm, inside of one of the realm if in any. -/
theorem newScope {parent : Option ScopeId} (hparent : ∀ k ∈ parent, ρ.Has s (.scope, k)) {vars : List (Text × Value)}
    (hvars : ∀ p ∈ vars, ρ.Owns s p.2) :
    ρ.Rules (s.newScope parent vars).2 ∧ s.Grows (s.newScope parent vars).2 ∧
      ρ.Home (s.newScope parent vars).2 s.scopes.size := by
  have hst : s.Grows (s.newScope parent vars).2 := by
    intro a
    cases a with
    | scope => exact (lt_size_push s.scopes _).le
    | _ => exact le_refl _
  refine ⟨h.grow hst ?_ (fun _ _ _ => .inl) (fun _ _ _ => .inl) (fun _ _ _ => .inl) (fun j _ x hx => ?_)
    (fun _ _ _ => .inl), hst, h.grows .scope, lt_size_push s.scopes _⟩
  · exact { h.kept with scopes := fun hx => getElem?_push_of_some (h.kept.scopes hx) }
  · by_cases hj : j < s.scopes.size
    · refine .inl ?_
      change (s.scopes.push _)[j]? = some x at hx
      rwa [Array.getElem?_push, if_neg (Nat.ne_of_lt hj)] at hx
    · rcases push_cases hx with hold | rfl
      · exact .inl hold
      · refine .inr ⟨fun k hk => ?_, fun p hp => (hvars p hp).mono hst⟩
        exact ⟨(h.lt (hparent k hk)).trans_le (Nat.not_lt.mp hj), (hparent k hk).mono hst⟩

theorem newMacro {m : Macro} (hm : ρ.Home s m.scope) :
    ρ.Rules (s.newMacro m).2 ∧ s.Grows (s.newMacro m).2 ∧ ρ.Owns (s.newMacro m).2 (s.newMacro m).1 := by
  have hst : s.Grows (s.newMacro m).2 := by
    intro a
    cases a with
    | ofMacro => exact (lt_size_push s.macros m).le
    | _ => exact le_refl _
  refine ⟨h.grow hst ?_ (fun _ _ _ => .inl) (fun _ _ _ => .inl) (fun _ _ _ => .inl) (fun _ _ _ => .inl)
    (fun i _ m' hm' => ?_), hst, ?_⟩
  · exact { h.kept with macros := fun hx => getElem?_push_of_some (h.kept.macros hx) }
  · rcases push_cases hm' with hold | rfl
    · exact .inl hold
    · exact .inr (hm.mono hst)
  · intro p hp
    cases List.mem_singleton.mp hp
    exact .inl ⟨h.grows .ofMacro, lt_size_push s.macros m⟩

theorem setList {id : ListId} (hid : ρ.Owns s (.list id)) {vs : List Value} (hvs : ∀ v ∈ vs, ρ.Owns s v) :
    ρ.Rules (s.setList id vs) ∧ s.Grows (s.setList id vs) := by
  have hst : s.Grows (s.setList id vs) := by
    intro a
    cases a <;> simp [Store.taken, Store.setList]
  refine ⟨h.grow hst ?_ (fun i _ ws hws => ?_) (fun _ _ _ => .inl) (fun _ _ _ => .inl) (fun _ _ _ => .inl)
    (fun _ _ _ => .inl), hst⟩
  · exact { h.kept with lists := getElem?_set_of_apart hid.list.1 h.kept.lists }
  · rcases set_cases hws with hold | rfl
    · exact .inl hold
    · exact .inr fun v hv => (hvs v hv).mono hst

theorem setMapping {id : MappingId} (hid : ρ.Owns s (.mapping id)) {ps : Properties}
    (hps : ∀ p ∈ ps, ρ.Owns s p.2.value) : ρ.Rules (s.setMapping id ps) ∧ s.Grows (s.setMapping id ps) := by
  have hst : s.Grows (s.setMapping id ps) := by
    intro a
    cases a <;> simp [Store.taken, Store.setMapping]
  refine ⟨h.grow hst ?_ (fun _ _ _ => .inl) (fun i _ qs hqs => ?_) (fun _ _ _ => .inl) (fun _ _ _ => .inl)
    (fun _ _ _ => .inl), hst⟩
  · exact { h.kept with mappings := getElem?_set_of_apart hid.mapping.1 h.kept.mappings }
  · rcases set_cases hqs with hold | rfl
    · exact .inl hold
    · exact .inr fun q hq => (hps q hq).mono hst

theorem setTable {id : TableId} (hid : ρ.Owns s (.table id)) {es : List (Value × Value)}
    (hes : ∀ e ∈ es, ρ.Owns s e.1 ∧ ρ.Owns s e.2) : ρ.Rules (s.setTable id es) ∧ s.Grows (s.setTable id es) := by
  have hst : s.Grows (s.setTable id es) := by
    intro a
    cases a <;> simp [Store.taken, Store.setTable]
  refine ⟨h.grow hst ?_ (fun _ _ _ => .inl) (fun _ _ _ => .inl) (fun i _ ds hds => ?_) (fun _ _ _ => .inl)
    (fun _ _ _ => .inl), hst⟩
  · exact { h.kept with tables := getElem?_set_of_apart hid.table.1 h.kept.tables }
  · rcases set_cases hds with hold | rfl
    · exact .inl hold
    · exact .inr fun e he => ⟨(hes e he).1.mono hst, (hes e he).2.mono hst⟩

theorem setEntry {target : Keyed} (htarget : ρ.Owns s (.ofKeyed target)) (key : Text) (hv : ρ.Owns s v) :
    ρ.Rules (s.setEntry target key v) ∧ s.Grows (s.setEntry target key v) := by
  cases target with
  | mapping id =>
    refine h.setMapping htarget fun p hp => ?_
    rcases Properties.mem_set hp with rfl | hp
    · exact hv
    · exact h.mapping htarget p hp
  | table id =>
    refine h.setTable htarget fun e he => ?_
    rcases mem_assocSet he with rfl | he
    · exact ⟨owns_text key, hv⟩
    · exact h.table htarget e he

omit h in
theorem setEntries {target : Keyed} {entries : List (Text × Value)} {s : Store} (h : ρ.Rules s)
    (htarget : ρ.Owns s (.ofKeyed target)) (hentries : ∀ p ∈ entries, ρ.Owns s p.2) :
    ρ.Rules (entries.foldl (fun s (key, v) => s.setEntry target key v) s) ∧
      s.Grows (entries.foldl (fun s (key, v) => s.setEntry target key v) s) := by
  induction entries generalizing s with
  | nil => exact ⟨h, .refl s⟩
  | cons p entries ih =>
    obtain ⟨key, v⟩ := p
    obtain ⟨hv, hentries⟩ := List.forall_mem_cons.mp hentries
    obtain ⟨hrules, hst⟩ := h.setEntry htarget key hv
    obtain ⟨hrules', hst'⟩ := ih hrules (htarget.mono hst) fun p hp => (hentries p hp).mono hst
    exact ⟨hrules', hst.trans hst'⟩

/-- A variable is set in a scope that was made since the start. -/
theorem setVar {i : ScopeId} (hi : ρ.Home s i) (name : Text) (hv : ρ.Owns s v) :
    ρ.Rules (s.setVar i name v) ∧ s.Grows (s.setVar i name v) := by
  have hst : s.Grows (s.setVar i name v) := by
    intro a
    cases a <;> simp [Store.taken, Store.setVar]
  have hget : ∀ j, (s.setVar i name v).scopes[j]? =
      if i = j then (s.scopes[j]?).map fun x => { x with vars := assocSet name v x.vars } else s.scopes[j]? := by
    intro j
    unfold Store.setVar
    rw [Array.getElem?_modify]
  refine ⟨h.grow hst ?_ (fun _ _ _ => .inl) (fun _ _ _ => .inl) (fun _ _ _ => .inl) (fun j hj x hx => ?_)
    (fun _ _ _ => .inl), hst⟩
  · refine { h.kept with scopes := fun {j x} hx => ?_ }
    have hlt : j < ρ.start.scopes.size := (Array.getElem?_eq_some_iff.mp hx).1
    rw [hget, if_neg (Nat.ne_of_gt (hlt.trans_le hi.1))]
    exact h.kept.scopes hx
  · rw [hget] at hx
    split at hx
    · rename_i hij
      obtain ⟨y, hy, rfl⟩ := Option.map_eq_some_iff.mp hx
      have hold := (h.scopes j (.inl (hij ▸ hi)) y hy).mono hst
      refine .inr ⟨hold.parent, fun p hp => ?_⟩
      rcases mem_assocSet hp with rfl | hp
      · exact hv.mono hst
      · exact hold.vars p hp
    · exact .inl hx

end changing
end Rules
end Realm
end Stencil
