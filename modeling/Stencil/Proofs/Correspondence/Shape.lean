import Stencil.Proofs.Correspondence.Values
import Stencil.Proofs.Value.Reach

/-! Values of the same shape in one store, and the pairings that show it. -/
namespace Stencil

theorem forall₂_comp {α β γ : Type} {R : α → β → Prop} {S : β → γ → Prop} {T : α → γ → Prop} {l : List α}
    {m : List β} {n : List γ} (h : List.Forall₂ R l m) (h' : List.Forall₂ S m n)
    (hT : ∀ a b c, R a b → S b c → T a c) : List.Forall₂ T l n := by
  induction h generalizing n with
  | nil =>
    cases h'
    exact .nil
  | cons hab _ ih =>
    cases h' with
    | cons hbc hrest => exact .cons (hT _ _ _ hab hbc) (ih hrest)

/-- The kinds of things that templates can change or that are opaque. -/
def Area.IsObject : Area → Prop
  | .list | .mapping | .table | .foreign => True
  | _ => False

def Value.IsObject : Value → Prop
  | list _ | mapping _ | table _ | foreign _ => True
  | _ => False

namespace Pairing

/-- No two things are paired with one. -/
structure OneToOne (R : Pairing) : Prop where
  functional : R.Functional
  injective : R.Injective

/-- Things are paired that are paired with one thing in between. -/
def comp (R S : Pairing) : Pairing := fun a i k => ∃ j, R a i j ∧ S a j k

theorem OneToOne.comp {R S : Pairing} (h : R.OneToOne) (h' : S.OneToOne) : (R.comp S).OneToOne where
  functional := by
    rintro a i j k ⟨m, hm, hj⟩ ⟨n, hn, hk⟩
    cases h.functional hm hn
    exact h'.functional hj hk
  injective := by
    rintro a i j k ⟨m, hm, hi⟩ ⟨n, hn, hj⟩
    cases h'.injective hi hj
    exact h.injective hm hn

/-- Pairings that are one-to-one and do not meet are one-to-one together. -/
theorem OneToOne.union {ι : Type} {P : ι → Pairing} (h : ∀ x, (P x).OneToOne)
    (hleft : ∀ ⦃x y a i j k⦄, x ≠ y → P x a i j → P y a i k → j = k)
    (hright : ∀ ⦃x y a i j k⦄, x ≠ y → P x a i k → P y a j k → i = j) :
    OneToOne fun a i j => ∃ x, P x a i j where
  functional := by
    rintro a i j k ⟨x, hj⟩ ⟨y, hk⟩
    by_cases hxy : x = y
    · subst hxy
      exact (h x).functional hj hk
    · exact hleft hxy hj hk
  injective := by
    rintro a i j k ⟨x, hi⟩ ⟨y, hj⟩
    by_cases hxy : x = y
    · subst hxy
      exact (h x).injective hi hj
    · exact hright hxy hi hj

/-- What is shared goes with itself, and what is younger than two stores goes in order. -/
def inOrder (shared : Set Place) (s t : Store) : Pairing := fun a i j =>
  (∃ k, i = s.taken a + k ∧ j = t.taken a + k) ∨ (a, i) ∈ shared ∧ i = j

theorem oneToOne_inOrder {shared : Set Place} {s t : Store} (hs : ∀ p ∈ shared, p.2 < s.taken p.1)
    (ht : ∀ p ∈ shared, p.2 < t.taken p.1) : (inOrder shared s t).OneToOne where
  functional := by
    rintro a i j k (⟨m, rfl, rfl⟩ | ⟨hi, rfl⟩) (⟨n, hn, rfl⟩ | ⟨hi', rfl⟩)
    · omega
    · exact absurd (hs _ hi') (Nat.not_lt.mpr (Nat.le_add_right ..))
    · exact absurd (hs _ hi) (hn ▸ Nat.not_lt.mpr (Nat.le_add_right ..))
    · rfl
  injective := by
    rintro a i j k (⟨m, rfl, rfl⟩ | ⟨hi, rfl⟩) (⟨n, rfl, hn⟩ | ⟨hi', rfl⟩)
    · omega
    · exact absurd (ht _ hi') (Nat.not_lt.mpr (Nat.le_add_right ..))
    · exact absurd (ht _ hi) (hn ▸ Nat.not_lt.mpr (Nat.le_add_right ..))
    · rfl

end Pairing

section alike

variable {R S : Pairing} {u v w : Value}

theorem Keyed.Alike.mono {c d : Keyed} (h : Keyed.Alike R c d) (hRS : ∀ a i j, R a i j → S a i j) :
    Keyed.Alike S c d := by
  cases h with
  | mapping h => exact .mapping (hRS _ _ _ h)
  | table h => exact .table (hRS _ _ _ h)

theorem Native.Alike.mono {f g : Native} (h : Native.Alike R f g) (hRS : ∀ a i j, R a i j → S a i j) :
    Native.Alike S f g := by
  cases h with
  | range => exact .range
  | dict => exact .dict
  | cycle index => exact .cycle index
  | text m self => exact .text m self
  | list m h => exact .list m (hRS _ _ _ h)
  | keyed m h => exact .keyed m (h.mono hRS)

theorem Value.Alike.mono {good : Set Text} (h : Value.Alike R good v w) (hRS : ∀ a i j, R a i j → S a i j) :
    Value.Alike S good v w := by
  cases h with
  | absent => exact .absent
  | none => exact .none
  | bool b => exact .bool b
  | number x => exact .number x
  | text t => exact .text t
  | safe h => exact .safe h
  | undefined reason => exact .undefined reason
  | list h => exact .list (hRS _ _ _ h)
  | mapping h => exact .mapping (hRS _ _ _ h)
  | table h => exact .table (hRS _ _ _ h)
  | ofMacro h => exact .ofMacro (hRS _ _ _ h)
  | native h hf => exact .native (hRS _ _ _ h) (hf.mono hRS)
  | foreign h => exact .foreign (hRS _ _ _ h)

theorem Slot.Alike.mono {good : Set Text} {x y : Slot} (h : Slot.Alike R good x y)
    (hRS : ∀ a i j, R a i j → S a i j) : Slot.Alike S good x y := by
  cases h with
  | data h => exact .data (h.mono hRS)
  | computed h => exact .computed (h.mono hRS)

theorem Keyed.Alike.comp {c d e : Keyed} (h : Keyed.Alike R c d) (h' : Keyed.Alike S d e) :
    Keyed.Alike (R.comp S) c e := by
  cases h with
  | mapping h => cases h' with | mapping h' => exact .mapping ⟨_, h, h'⟩
  | table h => cases h' with | table h' => exact .table ⟨_, h, h'⟩

theorem Native.Alike.comp {f g k : Native} (h : Native.Alike R f g) (h' : Native.Alike S g k) :
    Native.Alike (R.comp S) f k := by
  cases h with
  | list m h => cases h' with | list _ h' => exact .list m ⟨_, h, h'⟩
  | keyed m h => cases h' with | keyed _ h' => exact .keyed m (h.comp h')
  | _ => cases h'; constructor

theorem Value.Alike.comp {good : Set Text} (h : Value.Alike R good u v) (h' : Value.Alike S good v w) :
    Value.Alike (R.comp S) good u w := by
  cases h with
  | list h => cases h' with | list h' => exact .list ⟨_, h, h'⟩
  | mapping h => cases h' with | mapping h' => exact .mapping ⟨_, h, h'⟩
  | table h => cases h' with | table h' => exact .table ⟨_, h, h'⟩
  | ofMacro h => cases h' with | ofMacro h' => exact .ofMacro ⟨_, h, h'⟩
  | native h hf => cases h' with | native h' hf' => exact .native ⟨_, h, h'⟩ (hf.comp hf')
  | foreign h => cases h' with | foreign h' => exact .foreign ⟨_, h, h'⟩
  | safe h => cases h'; exact .safe h
  | _ => cases h'; constructor

theorem Slot.Alike.comp {good : Set Text} {x y z : Slot} (h : Slot.Alike R good x y) (h' : Slot.Alike S good y z) :
    Slot.Alike (R.comp S) good x z := by
  cases h with
  | data h => cases h' with | data h' => exact .data (h.comp h')
  | computed h => cases h' with | computed h' => exact .computed (h.comp h')

end alike

/-- Entries of tables with keys and values that are alike. -/
def EntryAlike (R : Pairing) (good : Set Text) (p q : Value × Value) : Prop :=
  Value.Alike R good p.1 q.1 ∧ Value.Alike R good p.2 q.2

namespace Store

/-- A pairing of things of a store that have the same contents in the same order, up to the pairing.
Functions are paired with themselves, and so is what surrounds macros. -/
structure Pairs (s : Store) (R : Pairing) : Prop where
  taken : ∀ {a i j}, R a i j → i = j ∨ i < s.taken a ∧ j < s.taken a
  list : ∀ {i j}, R .list i j → List.Forall₂ (Value.Alike R Set.univ) (s.list i) (s.list j)
  mapping : ∀ {i j}, R .mapping i j → List.Forall₂ (PropertyAlike R Set.univ) (s.mapping i) (s.mapping j)
  table : ∀ {i j}, R .table i j → List.Forall₂ (EntryAlike R Set.univ) (s.table i) (s.table j)
  same : ∀ {a i j}, ¬ a.IsObject → R a i j → i = j
  scope : ∀ {i}, R .scope i i → (∀ k ∈ (s.scope i).parent, R .scope k k) ∧
    List.Forall₂ (NamedAlike R Set.univ) (s.scope i).vars (s.scope i).vars
  ofMacro : ∀ {i}, R .ofMacro i i → ∀ m ∈ s.macros[i]?, R .scope m.scope m.scope

/-- Values with equal contents at every depth. -/
def Similar (s : Store) (v w : Value) : Prop := ∃ R, s.Pairs R ∧ Value.Alike R Set.univ v w

/-- Values with equal contents at every depth that also share the same things inside. -/
def Isomorphic (s : Store) (v w : Value) : Prop :=
  ∃ R : Pairing, R.OneToOne ∧ s.Pairs R ∧ Value.Alike R Set.univ v w

/-- No object is reached from both values. -/
def Apart (s : Store) (v w : Value) : Prop := ∀ x, s.Reaches v x → s.Reaches w x → ¬ x.IsObject

theorem Apart.of_contents {s : Store} {v w : Value} (hw : s.contents w = []) (hne : ∀ id, w ≠ .ofMacro id)
    (hobject : ¬ w.IsObject) : s.Apart v w := by
  intro x _ hx
  rw [hx.eq_of_contents hw hne]
  exact hobject

theorem Apart.symm {s : Store} {v w : Value} (h : s.Apart v w) : s.Apart w v := fun x hw hv => h x hv hw

/-- What is seen from a value, each thing paired with itself. -/
inductive Seen (s : Store) (v : Value) : Pairing where
  | list {i : ListId} (h : s.Reaches v (.list i)) : Seen s v .list i i
  | mapping {i : MappingId} (h : s.Reaches v (.mapping i)) : Seen s v .mapping i i
  | table {i : TableId} (h : s.Reaches v (.table i)) : Seen s v .table i i
  | ofMacro {i : MacroId} (h : s.Reaches v (.ofMacro i)) : Seen s v .ofMacro i i
  | native {n : Nat} {f : Native} (h : s.Reaches v (.native n f)) : Seen s v .native n n
  | foreign {n : Nat} (h : s.Reaches v (.foreign n)) : Seen s v .foreign n n
  | scope {i : MacroId} {m : Macro} {k : ScopeId} (h : s.Reaches v (.ofMacro i)) (hm : s.macros[i]? = some m)
    (hk : s.Encloses m.scope k) : Seen s v .scope k k

variable {s : Store} {v w x : Value} {a : Area} {i j : Nat}

theorem Seen.eq (h : s.Seen v a i j) : i = j := by cases h <;> rfl

theorem Seen.not_isObject (h : s.Seen v a i i) (h' : s.Seen w a i i) (hvw : s.Apart v w) : ¬ a.IsObject := by
  cases h with
  | list h => cases h' with | list h' => exact fun _ => hvw _ h h' trivial
  | mapping h => cases h' with | mapping h' => exact fun _ => hvw _ h h' trivial
  | table h => cases h' with | table h' => exact fun _ => hvw _ h h' trivial
  | foreign h => cases h' with | foreign h' => exact fun _ => hvw _ h h' trivial
  | ofMacro | native | scope => exact id

theorem Seen.oneToOne : (s.Seen v).OneToOne where
  functional _ _ _ _ h h' := h.eq.symm.trans h'.eq
  injective _ _ _ _ h h' := h.eq.trans h'.eq.symm

theorem alike_seen (h : s.Reaches v x) : Value.Alike (s.Seen v) Set.univ x x := by
  refine .self (fun p hp => ?_) fun _ _ => trivial
  cases x with
  | list i => cases List.mem_singleton.mp hp; exact .list h
  | mapping i => cases List.mem_singleton.mp hp; exact .mapping h
  | table i => cases List.mem_singleton.mp hp; exact .table h
  | ofMacro i => cases List.mem_singleton.mp hp; exact .ofMacro h
  | foreign n => cases List.mem_singleton.mp hp; exact .foreign h
  | native n f =>
    rcases List.mem_cons.mp hp with rfl | hp
    · exact .native h
    · cases f with
      | list m i =>
        cases List.mem_singleton.mp hp
        exact .list (h.step List.mem_cons_self)
      | keyed m target =>
        cases List.mem_singleton.mp hp
        cases target with
        | mapping i => exact .mapping (h.step List.mem_cons_self)
        | table i => exact .table (h.step List.mem_cons_self)
      | _ => exact nomatch hp
  | _ => exact nomatch hp

theorem slot_seen {y : Slot} (h : s.Reaches v y.value) : Slot.Alike (s.Seen v) Set.univ y y := by
  cases y with
  | data x => exact .data (alike_seen h)
  | computed x => exact .computed (alike_seen h)

/-- What is seen from a value has the contents that it has. -/
theorem pairs_seen : s.Pairs (s.Seen v) where
  taken h := .inl h.eq
  list := by
    rintro i _ (h | _)
    exact List.forall₂_same.mpr fun x hx => alike_seen (h.step hx)
  mapping := by
    rintro i _ (_ | h)
    exact List.forall₂_same.mpr fun p hp => ⟨rfl, slot_seen (h.step (value_mem_contents hp))⟩
  table := by
    rintro i _ (_ | _ | h)
    exact List.forall₂_same.mpr fun e he =>
      ⟨alike_seen (h.step (entry_mem_contents he).1), alike_seen (h.step (entry_mem_contents he).2)⟩
  same _ h := h.eq
  scope := by
    rintro i h
    cases h with
    | scope h hm hk =>
      exact ⟨fun k hparent => .scope h hm (hk.around hparent),
        List.forall₂_same.mpr fun p hp => ⟨rfl, alike_seen (h.captured hm hk hp)⟩⟩
  ofMacro := by
    rintro i h m hm
    cases h with
    | ofMacro h => exact .scope h hm .here

/-- What is seen from the variables of a scope and of those around it. -/
inductive SeenAround (s : Store) (i : ScopeId) : Pairing where
  | scope {k : ScopeId} (hk : s.Encloses i k) : SeenAround s i .scope k k
  | value {k : ScopeId} {p : Text × Value} {a : Area} {m n : Nat} (hk : s.Encloses i k)
    (hp : p ∈ (s.scope k).vars) (h : s.Seen p.2 a m n) : SeenAround s i a m n

theorem SeenAround.eq {k : ScopeId} (h : s.SeenAround k a i j) : i = j := by
  cases h with
  | scope => rfl
  | value _ _ h => exact h.eq

theorem SeenAround.oneToOne {k : ScopeId} : (s.SeenAround k).OneToOne where
  functional _ _ _ _ h h' := h.eq.symm.trans h'.eq
  injective _ _ _ _ h h' := h.eq.trans h'.eq.symm

theorem pairs_seenAround {k : ScopeId} : s.Pairs (s.SeenAround k) where
  taken h := .inl h.eq
  list := by
    rintro i j (_ | ⟨hk, hp, h⟩)
    exact (pairs_seen.list h).imp fun _ _ hvw => hvw.mono fun _ _ _ => .value hk hp
  mapping := by
    rintro i j (_ | ⟨hk, hp, h⟩)
    exact (pairs_seen.mapping h).imp fun _ _ hpq => ⟨hpq.1, hpq.2.mono fun _ _ _ => .value hk hp⟩
  table := by
    rintro i j (_ | ⟨hk, hp, h⟩)
    exact (pairs_seen.table h).imp fun _ _ hpq =>
      ⟨hpq.1.mono fun _ _ _ => .value hk hp, hpq.2.mono fun _ _ _ => .value hk hp⟩
  same _ h := h.eq
  scope := by
    rintro i h
    cases h with
    | scope hk =>
      exact ⟨fun l hl => .scope (hk.around hl), List.forall₂_same.mpr fun p hp =>
        ⟨rfl, (alike_seen .refl).mono fun _ _ _ => .value hk hp⟩⟩
    | value hk hp h =>
      refine ⟨fun l hl => .value hk hp ((pairs_seen.scope h).1 l hl), (pairs_seen.scope h).2.imp fun _ _ hpq => ?_⟩
      exact ⟨hpq.1, hpq.2.mono fun _ _ _ => .value hk hp⟩
  ofMacro := by
    rintro i (_ | ⟨hk, hp, h⟩) m hm
    exact .value hk hp (pairs_seen.ofMacro h m hm)

namespace Pairs

variable {R S : Pairing}

theorem empty : s.Pairs fun _ _ _ => False where
  taken h := h.elim
  list h := h.elim
  mapping h := h.elim
  table h := h.elim
  same _ h := h.elim
  scope h := h.elim
  ofMacro h := h.elim

theorem comp (h : s.Pairs R) (h' : s.Pairs S) : s.Pairs (R.comp S) where
  taken := by
    rintro a i k ⟨j, hij, hjk⟩
    rcases h.taken hij with rfl | ⟨hi, hj⟩
    · exact h'.taken hjk
    · rcases h'.taken hjk with rfl | ⟨_, hk⟩
      · exact .inr ⟨hi, hj⟩
      · exact .inr ⟨hi, hk⟩
  list := by
    rintro i k ⟨j, hij, hjk⟩
    exact forall₂_comp (h.list hij) (h'.list hjk) fun _ _ _ hxy hyz => hxy.comp hyz
  mapping := by
    rintro i k ⟨j, hij, hjk⟩
    exact forall₂_comp (h.mapping hij) (h'.mapping hjk) fun _ _ _ hxy hyz =>
      ⟨hxy.1.trans hyz.1, hxy.2.comp hyz.2⟩
  table := by
    rintro i k ⟨j, hij, hjk⟩
    exact forall₂_comp (h.table hij) (h'.table hjk) fun _ _ _ hxy hyz =>
      ⟨hxy.1.comp hyz.1, hxy.2.comp hyz.2⟩
  same := by
    rintro a i k ha ⟨j, hij, hjk⟩
    exact (h.same ha hij).trans (h'.same ha hjk)
  scope := by
    rintro i ⟨j, hij, hji⟩
    cases h.same id hij
    refine ⟨fun k hk => ⟨k, (h.scope hij).1 k hk, (h'.scope hji).1 k hk⟩, ?_⟩
    exact forall₂_comp (h.scope hij).2 (h'.scope hji).2 fun _ _ _ hxy hyz =>
      ⟨hxy.1.trans hyz.1, hxy.2.comp hyz.2⟩
  ofMacro := by
    rintro i ⟨j, hij, hji⟩ m hm
    cases h.same id hij
    exact ⟨m.scope, h.ofMacro hij m hm, h'.ofMacro hji m hm⟩

theorem union {ι : Type} {P : ι → Pairing} (h : ∀ x, s.Pairs (P x)) : s.Pairs fun a i j => ∃ x, P x a i j where
  taken := by
    rintro a i j ⟨x, hij⟩
    exact (h x).taken hij
  list := by
    rintro i j ⟨x, hij⟩
    exact ((h x).list hij).imp fun _ _ hvw => hvw.mono fun _ _ _ hkl => ⟨x, hkl⟩
  mapping := by
    rintro i j ⟨x, hij⟩
    exact ((h x).mapping hij).imp fun _ _ hpq => ⟨hpq.1, hpq.2.mono fun _ _ _ hkl => ⟨x, hkl⟩⟩
  table := by
    rintro i j ⟨x, hij⟩
    exact ((h x).table hij).imp fun _ _ hpq =>
      ⟨hpq.1.mono fun _ _ _ hkl => ⟨x, hkl⟩, hpq.2.mono fun _ _ _ hkl => ⟨x, hkl⟩⟩
  same := by
    rintro a i j ha ⟨x, hij⟩
    exact (h x).same ha hij
  scope := by
    rintro i ⟨x, hi⟩
    refine ⟨fun k hk => ⟨x, ((h x).scope hi).1 k hk⟩, ((h x).scope hi).2.imp fun _ _ hpq => ?_⟩
    exact ⟨hpq.1, hpq.2.mono fun _ _ _ hkl => ⟨x, hkl⟩⟩
  ofMacro := by
    rintro i ⟨x, hi⟩ m hm
    exact ⟨x, (h x).ofMacro hi m hm⟩

end Pairs

/-- Values of one shape are paired by what is seen from them. -/
theorem Isomorphic.seen (h : s.Isomorphic v w) : ∃ R : Pairing, R.OneToOne ∧ s.Pairs R ∧
    Value.Alike R Set.univ v w ∧ ∀ a i j, R a i j → s.Seen v a i i ∧ s.Seen w a j j := by
  obtain ⟨R, hR, hpairs, hvw⟩ := h
  refine ⟨(s.Seen v).comp (R.comp (s.Seen w)), Seen.oneToOne.comp (hR.comp Seen.oneToOne),
    pairs_seen.comp (hpairs.comp pairs_seen), (alike_seen .refl).comp (hvw.comp (alike_seen .refl)), ?_⟩
  rintro a i l ⟨j, hij, k, _, hkl⟩
  cases hij.eq
  cases hkl.eq
  exact ⟨hij, hkl⟩

end Store
end Stencil
