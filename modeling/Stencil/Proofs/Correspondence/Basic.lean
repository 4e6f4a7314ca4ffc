import Mathlib.Data.List.Forall2
import Mathlib.Data.Option.Basic
import Mathlib.Data.Set.Insert
import Stencil.Proofs.Correspondence.Policy
import Stencil.Value.Display

/-! Two stores that agree up to the identities of the things in them. -/
namespace Stencil

/-- The kinds of things that have an identity. -/
inductive Area where
  | list | mapping | table | scope | ofMacro | native | foreign
deriving DecidableEq

/-- The kinds of things that have contents. -/
def Area.Stored : Area → Prop
  | .native | .foreign => False
  | _ => True

/-- How many identities of a kind are taken. -/
def Store.taken (s : Store) : Area → Nat
  | .list => s.lists.size
  | .mapping => s.mappings.size
  | .table => s.tables.size
  | .scope => s.scopes.size
  | .ofMacro => s.macros.size
  | .native | .foreign => s.serial

/-- Which identities stand for each other. -/
abbrev Pairing := Area → Nat → Nat → Prop

def Pairing.Functional (R : Pairing) : Prop := ∀ ⦃a : Area⦄ ⦃i j k : Nat⦄, R a i j → R a i k → j = k

def Pairing.Injective (R : Pairing) : Prop := ∀ ⦃a : Area⦄ ⦃i j k : Nat⦄, R a i k → R a j k → i = j

/-- An identity of some kind. -/
abbrev Place := Area × Nat

def Keyed.place : Keyed → Place
  | mapping id => (.mapping, id)
  | table id => (.table, id)

def Native.places : Native → List Place
  | list _ id => [(.list, id)]
  | keyed _ target => [target.place]
  | _ => []

/-- The identities in a value. -/
def Value.places : Value → List Place
  | list id => [(.list, id)]
  | mapping id => [(.mapping, id)]
  | table id => [(.table, id)]
  | ofMacro id => [(.ofMacro, id)]
  | native n f => (.native, n) :: f.places
  | foreign n => [(.foreign, n)]
  | _ => []

/-- What is paired with nothing is as it was in a first store. -/
structure Store.KeepsOutside (s : Store) (R : Pairing) (t : Store) : Prop where
  lists : ∀ {i : ListId} {x}, s.lists[i]? = some x → (∀ j, ¬ R .list i j) → t.lists[i]? = some x
  mappings : ∀ {i : MappingId} {x}, s.mappings[i]? = some x → (∀ j, ¬ R .mapping i j) → t.mappings[i]? = some x
  tables : ∀ {i : TableId} {x}, s.tables[i]? = some x → (∀ j, ¬ R .table i j) → t.tables[i]? = some x

theorem Store.keepsOutside_empty {R : Pairing} (t : Store) : empty.KeepsOutside R t where
  lists hx := nomatch hx
  mappings hx := nomatch hx
  tables hx := nomatch hx

inductive Keyed.Alike (R : Pairing) : Keyed → Keyed → Prop where
  | mapping {i j : MappingId} (h : R .mapping i j) : Alike R (.mapping i) (.mapping j)
  | table {i j : TableId} (h : R .table i j) : Alike R (.table i) (.table j)

inductive Native.Alike (R : Pairing) : Native → Native → Prop where
  | range : Alike R .range .range
  | dict : Alike R .dict .dict
  | cycle (index : Nat) : Alike R (.cycle index) (.cycle index)
  | text (m : TextMethod) (self : Text) : Alike R (.text m self) (.text m self)
  | list (m : ListMethod) {i j : ListId} (h : R .list i j) : Alike R (.list m i) (.list m j)
  | keyed (m : KeyedMethod) {c d : Keyed} (h : Keyed.Alike R c d) : Alike R (.keyed m c) (.keyed m d)

/-- Values that differ at most in the identities they hold. Only good text is safe. -/
inductive Value.Alike (R : Pairing) (good : Set Text) : Value → Value → Prop where
  | absent : Alike R good .absent .absent
  | none : Alike R good .none .none
  | bool (b : Bool) : Alike R good (.bool b) (.bool b)
  | number (x : Number) : Alike R good (.number x) (.number x)
  | text (t : Text) : Alike R good (.text t) (.text t)
  | safe {t : Text} (h : t ∈ good) : Alike R good (.safe t) (.safe t)
  | undefined (reason : Missing) : Alike R good (.undefined reason) (.undefined reason)
  | list {i j : ListId} (h : R .list i j) : Alike R good (.list i) (.list j)
  | mapping {i j : MappingId} (h : R .mapping i j) : Alike R good (.mapping i) (.mapping j)
  | table {i j : TableId} (h : R .table i j) : Alike R good (.table i) (.table j)
  | ofMacro {i j : MacroId} (h : R .ofMacro i j) : Alike R good (.ofMacro i) (.ofMacro j)
  | native {m n : Nat} {f g : Native} (h : R .native m n) (hf : Native.Alike R f g) :
    Alike R good (.native m f) (.native n g)
  | foreign {m n : Nat} (h : R .foreign m n) : Alike R good (.foreign m) (.foreign n)

/-- A value is alike to itself where its identities are paired with themselves. -/
theorem Value.Alike.self {R : Pairing} {good : Set Text} {v : Value} (h : ∀ p ∈ v.places, R p.1 p.2 p.2)
    (hsafe : ∀ t, v = .safe t → t ∈ good) : Alike R good v v := by
  cases v with
  | absent => exact .absent
  | none => exact .none
  | bool b => exact .bool b
  | number x => exact .number x
  | text t => exact .text t
  | safe t => exact .safe (hsafe t rfl)
  | undefined reason => exact .undefined reason
  | list i => exact .list (h _ List.mem_cons_self)
  | mapping i => exact .mapping (h _ List.mem_cons_self)
  | table i => exact .table (h _ List.mem_cons_self)
  | ofMacro i => exact .ofMacro (h _ List.mem_cons_self)
  | foreign n => exact .foreign (h _ List.mem_cons_self)
  | native n f =>
    obtain ⟨hn, hf⟩ := List.forall_mem_cons.mp h
    refine .native hn ?_
    cases f with
    | range => exact .range
    | dict => exact .dict
    | cycle index => exact .cycle index
    | text m self => exact .text m self
    | list m i => exact .list m (hf _ List.mem_cons_self)
    | keyed m target =>
      cases target with
      | mapping i => exact .keyed m (.mapping (hf _ List.mem_cons_self))
      | table i => exact .keyed m (.table (hf _ List.mem_cons_self))

/-- Names with values, in the same order under the same names. -/
def NamedAlike (R : Pairing) (good : Set Text) (p q : Text × Value) : Prop :=
  p.1 = q.1 ∧ Value.Alike R good p.2 q.2

inductive Slot.Alike (R : Pairing) (good : Set Text) : Slot → Slot → Prop where
  | data {v w : Value} (h : Value.Alike R good v w) : Alike R good (.data v) (.data w)
  | computed {v w : Value} (h : Value.Alike R good v w) : Alike R good (.computed v) (.computed w)

def PropertyAlike (R : Pairing) (good : Set Text) (p q : Text × Slot) : Prop :=
  p.1 = q.1 ∧ Slot.Alike R good p.2 q.2

/-- A correspondence between two stores that grew from a common base. What is in the base never changes;
templates reach what corresponds, and read frozen lists of the base in keys of tables. What corresponds to nothing
stays on the left as it is in the origin. The outer scopes agree on some names only. -/
structure Correspondence extends Policy where
  rel : Pairing
  functional : rel.Functional
  injective : rel.Injective
  base : Store
  frozen : Set ListId
  frozen_lt {i : ListId} : i ∈ frozen → i < base.lists.size
  closed {i k : ListId} : i ∈ frozen → .list k ∈ base.list i → k ∈ frozen
  apart {a : Area} {i j : Nat} : rel a i j → a.Stored → base.taken a ≤ i ∧ base.taken a ≤ j
  origin : Store
  shown : Set Text
  outer : Set ScopeId

/-- The names that are known to have alike values in a scope, and the scopes that can be written. -/
structure Known where
  names : ScopeId → Set Text
  live : Set ScopeId

namespace Known

instance : Preorder Known where
  le κ μ := (∀ i, κ.names i ⊆ μ.names i) ∧ κ.live ⊆ μ.live
  le_refl κ := ⟨fun _ => subset_rfl, subset_rfl⟩
  le_trans κ μ ν h k := ⟨fun i => (h.1 i).trans (k.1 i), h.2.trans k.2⟩

/-- The knowledge of a new scope inside another. -/
def enter (κ : Known) (i parent : ScopeId) : Known :=
  ⟨fun j => κ.names j ∪ {n | j = i ∧ n ∈ κ.names parent}, insert i κ.live⟩

/-- The knowledge after a variable was set. -/
def learn (κ : Known) (i : ScopeId) (name : Text) : Known :=
  ⟨fun j => κ.names j ∪ {n | j = i ∧ n = name ∧ i ∈ κ.live}, κ.live⟩

variable {κ : Known} {i parent : ScopeId} {name : Text}

theorem le_enter : κ ≤ κ.enter i parent := ⟨fun _ => Set.subset_union_left, Set.subset_insert _ _⟩

theorem le_learn : κ ≤ κ.learn i name := ⟨fun _ => Set.subset_union_left, subset_rfl⟩

theorem names_enter : κ.names parent ⊆ (κ.enter i parent).names i := fun _ hn => .inr ⟨rfl, hn⟩

theorem live_enter : i ∈ (κ.enter i parent).live := Set.mem_insert _ _

theorem names_learn (h : i ∈ κ.live) : name ∈ (κ.learn i name).names i := .inr ⟨rfl, rfl, h⟩

end Known

namespace Correspondence

variable (σ : Correspondence)

abbrev Alike : Value → Value → Prop := Value.Alike σ.rel σ.good

abbrev NamedAlike : Text × Value → Text × Value → Prop := Stencil.NamedAlike σ.rel σ.good

/-- The lists that keys of tables can reach. -/
def listRel (i j : ListId) : Prop := σ.rel .list i j ∨ i = j ∧ i ∈ σ.frozen

/-- Alike keys of tables: alike values, or one value of the base. -/
def KeyAlike (v w : Value) : Prop := σ.Alike v w ∨ v = w ∧ ∀ i, v = .list i → i ∈ σ.frozen

def EntryAlike (p q : Value × Value) : Prop := σ.KeyAlike p.1 q.1 ∧ σ.Alike p.2 q.2

/-- Alike scopes; both enclosing scopes are older. -/
structure ScopeAlike (i j : ScopeId) (p q : Scope) : Prop where
  parent : Option.Rel (σ.rel .scope) p.parent q.parent
  older_left : ∀ k ∈ p.parent, k < i
  older_right : ∀ k ∈ q.parent, k < j
  vars : i ∉ σ.outer → List.Forall₂ σ.NamedAlike p.vars q.vars
  shown : ∀ n ∈ σ.shown, Option.Rel σ.Alike (p.vars.lookup n) (q.vars.lookup n)

structure MacroAlike (κ : Known) (m n : Macro) : Prop where
  name : m.name = n.name
  params : m.params = n.params
  defaults : m.defaults = n.defaults
  body : m.body = n.body
  scope : σ.rel .scope m.scope n.scope
  live : m.scope ∈ κ.live
  allowed : ∃ known ⊆ κ.names m.scope, m.Allowed σ.toPolicy known

/-- The base as a part of a store. -/
structure Keeps (base s : Store) : Prop where
  lists : ∀ {i : ListId} {x}, base.lists[i]? = some x → s.lists[i]? = some x
  mappings : ∀ {i : MappingId} {x}, base.mappings[i]? = some x → s.mappings[i]? = some x
  tables : ∀ {i : TableId} {x}, base.tables[i]? = some x → s.tables[i]? = some x
  serial : base.serial ≤ s.serial

namespace Keeps

variable {base s t : Store}

theorem empty (s : Store) : Keeps .empty s where
  lists h := nomatch h
  mappings h := nomatch h
  tables h := nomatch h
  serial := Nat.zero_le _

theorem refl (base : Store) : Keeps base base := ⟨id, id, id, le_refl _⟩

theorem trans (h : Keeps base s) (h' : Keeps s t) : Keeps base t :=
  ⟨fun hx => h'.lists (h.lists hx), fun hx => h'.mappings (h.mappings hx), fun hx => h'.tables (h.tables hx),
    h.serial.trans h'.serial⟩

section arrays

variable {α : Type} {xs ys : Array α} (h : ∀ {i : Nat} {x}, xs[i]? = some x → ys[i]? = some x)
include h

theorem size_le : xs.size ≤ ys.size := by
  by_contra hlt
  rw [Nat.not_le] at hlt
  have hlast := h (Array.getElem?_eq_getElem hlt)
  rw [Array.getElem?_eq_none (Nat.le_refl _)] at hlast
  cases hlast

theorem getElem?_eq {i : Nat} (hi : i < xs.size) : ys[i]? = xs[i]? := by
  rw [Array.getElem?_eq_getElem hi]
  exact h (Array.getElem?_eq_getElem hi)

end arrays

variable (h : Keeps base s)
include h

theorem list {i : ListId} (hi : i < base.lists.size) : s.list i = base.list i := by
  rw [Store.list, Store.list, getElem?_eq h.lists hi]

theorem mapping {i : MappingId} (hi : i < base.mappings.size) : s.mapping i = base.mapping i := by
  rw [Store.mapping, Store.mapping, getElem?_eq h.mappings hi]

theorem entriesOf_mapping {i : MappingId} (hi : i < base.mappings.size) :
    s.entriesOf (.mapping i) = base.entriesOf (.mapping i) := by
  rw [Store.entriesOf, Store.entriesOf, h.mapping hi]

theorem table {i : TableId} (hi : i < base.tables.size) : s.table i = base.table i := by
  rw [Store.table, Store.table, getElem?_eq h.tables hi]

theorem depth_le : base.depth ≤ s.depth := by
  have hlists := size_le h.lists
  have hmappings := size_le h.mappings
  have htables := size_le h.tables
  unfold Store.depth
  omega

end Keeps

/-- A name has alike values, or none, in a scope itself and in the one that corresponds to it. -/
def Clear (s t : Store) (i : ScopeId) (n : Text) : Prop :=
  ∀ j, σ.rel .scope i j → Option.Rel σ.Alike ((s.scope i).vars.lookup n) ((t.scope j).vars.lookup n)

/-- Two stores correspond: identities not yet taken are paired in their order, and things that are paired
have alike contents. -/
structure Agree (κ : Known) (s t : Store) : Prop where
  fresh : ∀ a k, σ.rel a (s.taken a + k) (t.taken a + k)
  lists : ∀ i j, σ.rel .list i j → Option.Rel (List.Forall₂ σ.Alike) s.lists[i]? t.lists[j]?
  mappings : ∀ i j, σ.rel .mapping i j →
    Option.Rel (List.Forall₂ (PropertyAlike σ.rel σ.good)) s.mappings[i]? t.mappings[j]?
  tables : ∀ i j, σ.rel .table i j → Option.Rel (List.Forall₂ σ.EntryAlike) s.tables[i]? t.tables[j]?
  scopes : ∀ i j, σ.rel .scope i j → Option.Rel (σ.ScopeAlike i j) s.scopes[i]? t.scopes[j]?
  macros : ∀ i j, σ.rel .ofMacro i j → Option.Rel (σ.MacroAlike κ) s.macros[i]? t.macros[j]?
  known : ∀ i, ∀ n ∈ κ.names i, n ∈ σ.shown ∨ (i ∈ σ.outer → σ.Clear s t i n) ∧ ∃ p, s.scopes[i]? = some p ∧
    ((p.vars.lookup n).isSome ∨ ∀ k ∈ p.parent, n ∈ κ.names k)
  live : ∀ i ∈ κ.live, i < s.scopes.size
  outer : ∀ i ∈ σ.outer, i < s.scopes.size
  left : Keeps σ.base s
  right : Keeps σ.base t
  still : σ.origin.KeepsOutside σ.rel s

end Correspondence
end Stencil
