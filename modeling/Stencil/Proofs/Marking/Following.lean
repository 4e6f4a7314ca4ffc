import Stencil.Proofs.Correspondence.Values
import Stencil.Proofs.Marking.Stores
import Stencil.Proofs.Running

/-!
Computations that follow others: where the one ends well, so does the other, with the same result and the same store but
for the marks of safe text, or else it stops at a slice of a marked text.
-/
namespace Stencil

section lists

variable {α β γ : Type} {f : α → γ} {g : β → γ} {l : List α} {l' : List β}

theorem forall₂_map_eq_iff : List.Forall₂ (fun a b => f a = g b) l l' ↔ l.map f = l'.map g := by
  rw [← List.forall₂_eq_eq_eq, List.forall₂_map_left_iff, List.forall₂_map_right_iff]

theorem forall₂_of_eq {l l' : List α} (h : l = l') : List.Forall₂ (fun a b => a = b) l l' := by
  cases h
  exact List.forall₂_same.mpr fun _ _ => rfl

theorem rel_of_map_eq {a : Option α} {b : Option β} (h : a.map f = b.map g) :
    Option.Rel (fun a b => f a = g b) a b := by
  cases a with
  | none =>
    cases b with
    | none => exact .none
    | some b => cases h
  | some a =>
    cases b with
    | none => cases h
    | some b => exact .some (Option.some.inj h)

end lists

namespace Marking

/-- On what terms two runs are compared: how their macros are related, whether the marks must not differ either, and
whether the second may stop at a slice of a marked text. -/
structure Terms where
  macros : Macro → Macro → Prop
  strict : Prop
  mayStop : Prop

variable {R : Terms}

/-- The values differ at most in the mark of safe text, or in the reason why they are missing. -/
structure Terms.Same (R : Terms) (v w : Value) : Prop where
  unmarked : v.unmarked = w.unmarked
  strict : R.strict → v = w

/-- The ways in which values are the same. -/
inductive Form : Value → Value → Prop where
  | refl (v : Value) : Form v v
  | marked (t : Text) : Form (.text t) (.safe t)
  | unmarked (t : Text) : Form (.safe t) (.text t)
  | undefined (r r' : Missing) : Form (.undefined r) (.undefined r')

structure Terms.SameEntry (R : Terms) (p q : Text × Value) : Prop where
  key : p.1 = q.1
  value : R.Same p.2 q.2

namespace Terms.Same

variable {v w : Value}

theorem refl (v : Value) : R.Same v v := ⟨rfl, fun _ => rfl⟩

theorem of_eq (h : v = w) : R.Same v w := ⟨congrArg Value.unmarked h, fun _ => h⟩

variable (h : R.Same v w)
include h

theorem symm : R.Same w v := ⟨h.unmarked.symm, fun hstrict => (h.strict hstrict).symm⟩

theorem text?_eq : v.text? = w.text? := by rw [← Store.text?_unmarked v, ← Store.text?_unmarked w, h.unmarked]

theorem keyed?_eq : v.keyed? = w.keyed? := by rw [← Store.keyed?_unmarked v, ← Store.keyed?_unmarked w, h.unmarked]

theorem eq_absent_iff : v = .absent ↔ w = .absent := by
  rw [← Store.unmarked_eq_absent v, ← Store.unmarked_eq_absent w, h.unmarked]

theorem form : Form v w := by
  have hunmarked := h.unmarked
  cases v <;> cases w <;> cases hunmarked <;> constructor

theorem kind_eq : v.kind = w.kind := by
  cases h.form <;> rfl

/-- Values that are the same are equal, unless both are texts or both are undefined. -/
theorem eq_or : v = w ∨ (∃ t, v.text? = some t ∧ w.text? = some t) ∨ ∃ r r', v = .undefined r ∧ w = .undefined r' := by
  cases h.form with
  | refl => exact .inl rfl
  | marked t | unmarked t => exact .inr (.inl ⟨t, rfl, rfl⟩)
  | undefined r r' => exact .inr (.inr ⟨r, r', rfl, rfl⟩)

theorem eq_number {x : Number} (hv : v = .number x) : w = .number x := by
  cases h.form with
  | refl => exact hv
  | _ => cases hv

theorem defined (hv : ∀ r, v ≠ .undefined r) : ∀ r, w ≠ .undefined r := by
  cases h.form with
  | refl => exact hv
  | marked t | unmarked t =>
    intro r hr
    cases hr
  | undefined r r' => exact absurd rfl (hv r)

/-- What is neither a text nor undefined has no mark. -/
theorem eq_of_not_text (htext : v.text? = none) (hv : ∀ r, v ≠ .undefined r) : v = w := by
  rcases h.eq_or with h | ⟨t, ht, _⟩ | ⟨r, _, hr, _⟩
  · exact h
  · rw [htext] at ht
    cases ht
  · exact absurd hr (hv r)

end Terms.Same

theorem Terms.SameEntry.of {key : Text} {v w : Value} (h : R.Same v w) : R.SameEntry (key, v) (key, w) := ⟨rfl, h⟩

section lists

variable {xs ys : List Value} {ps qs : List (Text × Value)}

theorem forall₂_same_iff :
    List.Forall₂ R.Same xs ys ↔ xs.map Value.unmarked = ys.map Value.unmarked ∧ (R.strict → xs = ys) := by
  constructor
  · intro h
    refine ⟨forall₂_map_eq_iff.mp (h.imp fun _ _ hvw => hvw.unmarked), fun hstrict => ?_⟩
    exact List.forall₂_eq_eq_eq ▸ h.imp fun _ _ hvw => hvw.strict hstrict
  · rintro ⟨hmap, hstrict⟩
    have hunmarked := forall₂_map_eq_iff.mpr hmap
    by_cases h : R.strict
    · cases hstrict h
      exact List.forall₂_same.mpr fun v _ => .refl v
    · exact hunmarked.imp fun _ _ hvw => ⟨hvw, fun hs => absurd hs h⟩

theorem forall₂_sameEntry_iff :
    List.Forall₂ R.SameEntry ps qs ↔ ps.map unmarkedEntry = qs.map unmarkedEntry ∧ (R.strict → ps = qs) := by
  constructor
  · intro h
    refine ⟨forall₂_map_eq_iff.mp (h.imp fun _ _ hpq => Prod.ext hpq.key hpq.value.unmarked), fun hstrict => ?_⟩
    exact List.forall₂_eq_eq_eq ▸ h.imp fun _ _ hpq => Prod.ext hpq.key (hpq.value.strict hstrict)
  · rintro ⟨hmap, hstrict⟩
    have hunmarked := forall₂_map_eq_iff.mpr hmap
    by_cases h : R.strict
    · cases hstrict h
      exact List.forall₂_same.mpr fun p _ => ⟨rfl, .refl p.2⟩
    · exact hunmarked.imp fun _ _ hpq => ⟨(Prod.ext_iff.mp hpq).1, (Prod.ext_iff.mp hpq).2, fun hs => absurd hs h⟩

theorem rel_same_of_eq {x? y? : Option Value} (h : x?.map Value.unmarked = y?.map Value.unmarked)
    (hstrict : R.strict → x? = y?) : Option.Rel R.Same x? y? := by
  rcases rel_cases (rel_of_map_eq h) with ⟨rfl, rfl⟩ | ⟨v, w, rfl, rfl, hvw⟩
  · exact .none
  · exact .some ⟨hvw, fun hs => Option.some.inj (hstrict hs)⟩

theorem rel_lists_of_eq {xs? ys? : Option (List Value)}
    (h : xs?.map (·.map Value.unmarked) = ys?.map (·.map Value.unmarked)) (hstrict : R.strict → xs? = ys?) :
    Option.Rel (List.Forall₂ R.Same) xs? ys? := by
  rcases rel_cases (rel_of_map_eq h) with ⟨rfl, rfl⟩ | ⟨xs, ys, rfl, rfl, hxs⟩
  · exact .none
  · exact .some (forall₂_same_iff.mpr ⟨hxs, fun hs => Option.some.inj (hstrict hs)⟩)

theorem forall₂_text (ts : List Text) : List.Forall₂ R.Same (ts.map .text) (ts.map .text) :=
  List.forall₂_same.mpr fun v _ => .refl v

end lists

/-! ## Stores -/

/-- The stores differ at most in marks, and in the code of macros, which is related. -/
structure Alike (R : Terms) (s t : Store) : Prop where
  unmarked : s.unmarked = t.unmarked
  strict : R.strict → s.uncoded = t.uncoded
  macros : ∀ id : MacroId, Option.Rel R.macros s.macros[id]? t.macros[id]?

namespace Alike

variable {s t : Store} {v w v' w' : Value} (h : Alike R s t)
include h

theorem list (id : ListId) : List.Forall₂ R.Same (s.list id) (t.list id) := by
  refine forall₂_same_iff.mpr ⟨?_, fun hstrict => ?_⟩
  · rw [← Store.list_unmarked, h.unmarked, Store.list_unmarked]
  · rw [← s.list_uncoded, h.strict hstrict, t.list_uncoded]

theorem entriesOf (target : Keyed) : List.Forall₂ R.SameEntry (s.entriesOf target) (t.entriesOf target) := by
  refine forall₂_sameEntry_iff.mpr ⟨?_, fun hstrict => ?_⟩
  · rw [← Store.entriesOf_unmarked, h.unmarked, Store.entriesOf_unmarked]
  · rw [← s.entriesOf_uncoded, h.strict hstrict, t.entriesOf_uncoded]

theorem entries? (hvw : R.Same v w) : Option.Rel (List.Forall₂ R.SameEntry) (s.entries? v) (t.entries? w) := by
  unfold Store.entries?
  rw [hvw.keyed?_eq]
  cases w.keyed? with
  | none => exact .none
  | some target => exact .some (h.entriesOf target)

theorem ownValue? (target : Keyed) (key : Text) :
    Option.Rel R.Same (s.ownValue? target key) (t.ownValue? target key) := by
  refine rel_same_of_eq ?_ fun hstrict => ?_
  · rw [← Store.ownValue?_unmarked, h.unmarked, Store.ownValue?_unmarked]
  · rw [← s.ownValue?_uncoded, h.strict hstrict, t.ownValue?_uncoded]

theorem display?_eq (hvw : R.Same v w) : s.display? v = t.display? w := by
  rw [← Store.display?_unmarked, h.unmarked, hvw.unmarked, Store.display?_unmarked]

theorem repr?_eq (hvw : R.Same v w) : s.repr? v = t.repr? w := by
  rw [← Store.repr?_unmarked, h.unmarked, hvw.unmarked, Store.repr?_unmarked]

theorem isTruthy_eq (hvw : R.Same v w) : s.isTruthy v = t.isTruthy w := by
  rw [← Store.isTruthy_unmarked, h.unmarked, hvw.unmarked, Store.isTruthy_unmarked]

theorem keyText_eq (hvw : R.Same v w) : s.keyText v = t.keyText w := by
  rw [← Store.keyText_unmarked, h.unmarked, hvw.unmarked, Store.keyText_unmarked]

theorem equal?_eq (hv : R.Same v v') (hw : R.Same w w') : s.equal? v w = t.equal? v' w' := by
  rw [← Store.equal?_unmarked, h.unmarked, hv.unmarked, hw.unmarked, Store.equal?_unmarked]

theorem length?_eq (hvw : R.Same v w) : s.length? v = t.length? w := by
  rw [← Store.length?_unmarked, h.unmarked, hvw.unmarked, Store.length?_unmarked]

theorem items? (hvw : R.Same v w) : Option.Rel (List.Forall₂ R.Same) (s.items? v) (t.items? w) := by
  refine rel_lists_of_eq ?_ fun hstrict => ?_
  · rw [← Store.items?_unmarked, h.unmarked, hvw.unmarked, Store.items?_unmarked]
  · rw [← s.items?_uncoded, h.strict hstrict, hvw.strict hstrict, t.items?_uncoded]

theorem sorted? (caseSensitive : Bool) {xs ys : List Value} (hxs : List.Forall₂ R.Same xs ys) :
    Option.Rel (List.Forall₂ R.Same) (s.sorted? caseSensitive xs) (t.sorted? caseSensitive ys) := by
  obtain ⟨hunmarked, heq⟩ := forall₂_same_iff.mp hxs
  refine rel_lists_of_eq ?_ fun hstrict => ?_
  · rw [← Store.sorted?_unmarked, h.unmarked, hunmarked, Store.sorted?_unmarked]
  · rw [← s.sorted?_uncoded, h.strict hstrict, heq hstrict, t.sorted?_uncoded]

theorem unique? {xs ys : List Value} (hxs : List.Forall₂ R.Same xs ys) :
    Option.Rel (List.Forall₂ R.Same) (s.unique? xs) (t.unique? ys) := by
  obtain ⟨hunmarked, heq⟩ := forall₂_same_iff.mp hxs
  refine rel_lists_of_eq ?_ fun hstrict => ?_
  · rw [← Store.unique?_unmarked, h.unmarked, hunmarked, Store.unique?_unmarked]
  · rw [← s.unique?_uncoded, h.strict hstrict, heq hstrict, t.unique?_uncoded]

theorem positionsOf?_eq (hvw : R.Same v w) {xs ys : List Value} (hxs : List.Forall₂ R.Same xs ys) :
    s.positionsOf? v xs = t.positionsOf? w ys := by
  rw [← Store.positionsOf?_unmarked, h.unmarked, hvw.unmarked, (forall₂_same_iff.mp hxs).1, Store.positionsOf?_unmarked]

theorem contextVars (hvw : R.Same v w) : List.Forall₂ R.SameEntry (s.contextVars v) (t.contextVars w) := by
  refine forall₂_sameEntry_iff.mpr ⟨?_, fun hstrict => ?_⟩
  · rw [← Store.contextVars_unmarked, h.unmarked, hvw.unmarked, Store.contextVars_unmarked]
  · rw [← s.contextVars_uncoded, h.strict hstrict, hvw.strict hstrict, t.contextVars_uncoded]

theorem resolve (id : ScopeId) (name : Text) : R.Same (s.resolve id name) (t.resolve id name) := by
  have hresolved : Option.Rel R.Same (s.resolveWithin name (id + 1) id) (t.resolveWithin name (id + 1) id) := by
    refine rel_same_of_eq ?_ fun hstrict => ?_
    · rw [← Store.resolveWithin_unmarked, h.unmarked, Store.resolveWithin_unmarked]
    · rw [← s.resolveWithin_uncoded, h.strict hstrict, t.resolveWithin_uncoded]
  exact rel_getD hresolved (.refl _)

/-! ## Changes -/

theorem setList (id : ListId) {xs ys : List Value} (hxs : List.Forall₂ R.Same xs ys) :
    Alike R (s.setList id xs) (t.setList id ys) := by
  obtain ⟨hunmarked, heq⟩ := forall₂_same_iff.mp hxs
  refine ⟨?_, fun hstrict => ?_, h.macros⟩
  · rw [Store.setList_unmarked, Store.setList_unmarked, h.unmarked, hunmarked]
  · rw [Store.setList_uncoded, Store.setList_uncoded, h.strict hstrict, heq hstrict]

theorem setVar (id : ScopeId) (name : Text) (hvw : R.Same v w) : Alike R (s.setVar id name v) (t.setVar id name w) where
  unmarked := by rw [Store.setVar_unmarked, Store.setVar_unmarked, h.unmarked, hvw.unmarked]
  strict hstrict := by rw [Store.setVar_uncoded, Store.setVar_uncoded, h.strict hstrict, hvw.strict hstrict]
  macros := h.macros

theorem setEntry (target : Keyed) (key : Text) (hvw : R.Same v w) :
    Alike R (s.setEntry target key v) (t.setEntry target key w) where
  unmarked := by rw [Store.setEntry_unmarked, Store.setEntry_unmarked, h.unmarked, hvw.unmarked]
  strict hstrict := by rw [Store.setEntry_uncoded, Store.setEntry_uncoded, h.strict hstrict, hvw.strict hstrict]
  macros := by
    cases target <;> exact h.macros

theorem setEntries (target : Keyed) {xs ys : List (Text × Value)} (hxs : List.Forall₂ R.SameEntry xs ys) :
    Alike R (xs.foldl (fun s p => s.setEntry target p.1 p.2) s)
      (ys.foldl (fun s p => s.setEntry target p.1 p.2) t) := by
  induction hxs generalizing s t with
  | nil => exact h
  | cons hpq _ ih =>
    rw [List.foldl_cons, List.foldl_cons, hpq.key]
    exact ih (h.setEntry target _ hpq.value)

theorem lists_size : s.lists.size = t.lists.size := by
  have hsize := congrArg (fun u : Store => u.lists.size) h.unmarked
  simpa [Store.unmarked] using hsize

theorem mappings_size : s.mappings.size = t.mappings.size := by
  have hsize := congrArg (fun u : Store => u.mappings.size) h.unmarked
  simpa [Store.unmarked] using hsize

theorem scopes_size : s.scopes.size = t.scopes.size := by
  have hsize := congrArg (fun u : Store => u.scopes.size) h.unmarked
  simpa [Store.unmarked] using hsize

theorem macros_size : s.macros.size = t.macros.size := by
  have hsize := congrArg (fun u : Store => u.macros.size) h.unmarked
  simpa [Store.unmarked] using hsize

theorem serial_eq : s.serial = t.serial := by
  have hserial : s.unmarked.serial = t.unmarked.serial := congrArg Store.serial h.unmarked
  exact hserial

theorem newList {xs ys : List Value} (hxs : List.Forall₂ R.Same xs ys) :
    Alike R (s.newList xs).2 (t.newList ys).2 ∧ R.Same (s.newList xs).1 (t.newList ys).1 := by
  obtain ⟨hunmarked, heq⟩ := forall₂_same_iff.mp hxs
  refine ⟨⟨?_, fun hstrict => ?_, h.macros⟩, .of_eq (congrArg Value.list h.lists_size)⟩
  · rw [Store.newList_unmarked, Store.newList_unmarked, h.unmarked, hunmarked]
  · rw [Store.newList_uncoded, Store.newList_uncoded, h.strict hstrict, heq hstrict]

theorem newMapping {xs ys : List (Text × Value)} (hxs : List.Forall₂ R.SameEntry xs ys) :
    Alike R (s.newMapping (Properties.ofList (xs.map fun p => (p.1, .data p.2)))).2
        (t.newMapping (Properties.ofList (ys.map fun p => (p.1, .data p.2)))).2 ∧
      R.Same (s.newMapping (Properties.ofList (xs.map fun p => (p.1, .data p.2)))).1
        (t.newMapping (Properties.ofList (ys.map fun p => (p.1, .data p.2)))).1 := by
  have hslots : ∀ entries : List (Text × Value), ((entries.map fun p => (p.1, Slot.data p.2)).map unmarkedProperty) =
      (entries.map unmarkedEntry).map fun p => (p.1, Slot.data p.2) := by
    intro entries
    rw [List.map_map, List.map_map]
    rfl
  obtain ⟨hunmarked, heq⟩ := forall₂_sameEntry_iff.mp hxs
  refine ⟨⟨?_, fun hstrict => ?_, h.macros⟩, .of_eq (congrArg Value.mapping h.mappings_size)⟩
  · rw [Store.newMapping_unmarked, Store.newMapping_unmarked, Store.ofList_unmarked, Store.ofList_unmarked, hslots,
      hslots, h.unmarked, hunmarked]
  · rw [Store.newMapping_uncoded, Store.newMapping_uncoded, h.strict hstrict, heq hstrict]

theorem newNative (f : Native) :
    Alike R (s.newNative f).2 (t.newNative f).2 ∧ R.Same (s.newNative f).1 (t.newNative f).1 := by
  refine ⟨⟨?_, fun hstrict => ?_, h.macros⟩, .of_eq (congrArg (fun n => Value.native n f) h.serial_eq)⟩
  · rw [Store.newNative_unmarked, Store.newNative_unmarked, h.unmarked]
  · rw [Store.newNative_uncoded, Store.newNative_uncoded, h.strict hstrict]

theorem newScope (parent : Option ScopeId) {xs ys : List (Text × Value)} (hxs : List.Forall₂ R.SameEntry xs ys) :
    Alike R (s.newScope parent xs).2 (t.newScope parent ys).2 ∧
      (s.newScope parent xs).1 = (t.newScope parent ys).1 := by
  obtain ⟨hunmarked, heq⟩ := forall₂_sameEntry_iff.mp hxs
  refine ⟨⟨?_, fun hstrict => ?_, h.macros⟩, h.scopes_size⟩
  · rw [Store.newScope_unmarked, Store.newScope_unmarked, h.unmarked, hunmarked]
  · rw [Store.newScope_uncoded, Store.newScope_uncoded, h.strict hstrict, heq hstrict]

theorem newMacro {m n : Macro} (hsignature : m.signature = n.signature) (hmn : R.macros m n) :
    Alike R (s.newMacro m).2 (t.newMacro n).2 ∧ R.Same (s.newMacro m).1 (t.newMacro n).1 := by
  refine ⟨⟨?_, fun hstrict => ?_, fun id => ?_⟩, .of_eq (congrArg Value.ofMacro h.macros_size)⟩
  · rw [Store.newMacro_unmarked, Store.newMacro_unmarked, h.unmarked, hsignature]
  · rw [Store.newMacro_uncoded, Store.newMacro_uncoded, h.strict hstrict, hsignature]
  · change Option.Rel R.macros (s.macros.push m)[id]? (t.macros.push n)[id]?
    rw [Array.getElem?_push, Array.getElem?_push, h.macros_size]
    by_cases hid : id = t.macros.size
    · rw [if_pos hid, if_pos hid]
      exact .some hmn
    · rw [if_neg hid, if_neg hid]
      exact h.macros id

end Alike

/-! ## Computations -/

/-- The computation stops at a slice of a marked text, and may do so. -/
def Stops (R : Terms) {α : Type} (y : Eval α) (t : Store) : Prop :=
  R.mayStop ∧ ∃ w, y t = .error (.notSliceable .text) w

/-- Where `x` ends well, `y` ends well on an alike store, with a related result and an alike store, unless it stops. -/
def Follows (R : Terms) {α : Type} (x y : Eval α) (Q : α → α → Prop) : Prop :=
  ∀ s t, Alike R s t → ∀ a u, x s = .ok a u → (∃ b w, y t = .ok b w ∧ Alike R u w ∧ Q a b) ∨ Stops R y t

theorem Stops.bind {α β : Type} {y : Eval α} {t : Store} (h : Stops R y t) (g : α → Eval β) :
    Stops R (y >>= g) t := by
  obtain ⟨hmay, w, hy⟩ := h
  exact ⟨hmay, w, bind_error hy⟩

namespace Follows

variable {α β γ : Type} {x y : Eval α} {P Q : α → α → Prop} {S : β → β → Prop}

theorem pure {a b : α} (h : Q a b) : Follows R (pure a) (pure b) Q := by
  intro s t hst a' u hx
  cases hx
  exact .inl ⟨b, t, rfl, hst, h⟩

/-- A computation that fails is followed by any other. -/
theorem throw {e : Fault} : Follows R (throw e) y Q := fun _ _ _ _ _ hx => nomatch hx

theorem mono (h : Follows R x y P) (hPQ : ∀ a b, P a b → Q a b) : Follows R x y Q := by
  intro s t hst a u hx
  rcases h s t hst a u hx with ⟨b, w, hy, huw, hab⟩ | hstops
  · exact .inl ⟨b, w, hy, huw, hPQ a b hab⟩
  · exact .inr hstops

theorem bind {f g : α → Eval β} (h : Follows R x y P) (hfg : ∀ a b, P a b → Follows R (f a) (g b) S) :
    Follows R (x >>= f) (y >>= g) S := by
  intro s t hst c u hx
  obtain ⟨a, s', hx, hf⟩ := exists_of_bind_ok hx
  rcases h s t hst a s' hx with ⟨b, t', hy, hst', hab⟩ | hstops
  · rcases hfg a b hab s' t' hst' c u hf with ⟨d, w, hg, huw, hcd⟩ | ⟨hmay, w, hg⟩
    · exact .inl ⟨d, w, (bind_ok hy).trans hg, huw, hcd⟩
    · exact .inr ⟨hmay, w, (bind_ok hy).trans hg⟩
  · exact .inr (hstops.bind g)

theorem bind_same {f g : α → Eval β} (h : Follows R x y Eq) (hfg : ∀ a, Follows R (f a) (g a) S) :
    Follows R (x >>= f) (y >>= g) S := by
  apply h.bind
  rintro a _ rfl
  exact hfg a

/-- A computation that looks at the store first. -/
theorem get_bind {f g : Store → Eval β} (h : ∀ s t, Alike R s t → Follows R (f s) (g t) S) :
    Follows R (get >>= f) (get >>= g) S := fun s t hst => h s t hst s t hst

theorem read {f g : Store → α} (h : ∀ s t, Alike R s t → Q (f s) (g t)) : Follows R (Eval.read f) (Eval.read g) Q :=
  get_bind fun s t hst => .pure (h s t hst)

theorem readDeep {f g : Store → Option α} (h : ∀ s t, Alike R s t → Option.Rel Q (f s) (g t)) :
    Follows R (Eval.readDeep f) (Eval.readDeep g) Q := by
  refine get_bind fun s t hst => ?_
  rcases rel_cases (h s t hst) with ⟨hf, hg⟩ | ⟨a, b, hf, hg, hab⟩ <;> rw [hf, hg]
  · exact .throw
  · exact .pure hab

theorem readDeep_same {f g : Store → Option α} (h : ∀ s t, Alike R s t → f s = g t) :
    Follows R (Eval.readDeep f) (Eval.readDeep g) Eq := by
  apply readDeep
  intro s t hst
  rw [h s t hst]
  cases g t with
  | none => exact .none
  | some a => exact .some rfl

theorem alloc {f g : Store → α × Store} (h : ∀ s t, Alike R s t → Alike R (f s).2 (g t).2 ∧ Q (f s).1 (g t).1) :
    Follows R (Eval.alloc f) (Eval.alloc g) Q := by
  intro s t hst a u hx
  cases hx
  exact .inl ⟨(g t).1, (g t).2, rfl, h s t hst⟩

theorem modify {f g : Store → Store} (h : ∀ s t, Alike R s t → Alike R (f s) (g t)) :
    Follows R (modify f : Eval Unit) (modify g) fun _ _ => True := by
  intro s t hst a u hx
  cases hx
  exact .inl ⟨(), g t, rfl, h s t hst, trivial⟩

variable {A B : Type} {T : A → B → Prop} {l : List A} {l' : List B}

theorem mapM {f : A → Eval γ} {g : B → Eval γ} {P : γ → γ → Prop} (hl : List.Forall₂ T l l')
    (hfg : ∀ a b, T a b → Follows R (f a) (g b) P) : Follows R (l.mapM f) (l'.mapM g) (List.Forall₂ P) := by
  induction hl with
  | nil => exact .pure .nil
  | cons hab _ ih =>
    rw [List.mapM_cons, List.mapM_cons]
    exact (hfg _ _ hab).bind fun c d hcd => ih.bind fun cs ds hcds => .pure (.cons hcd hcds)

theorem foldlM {f : γ → A → Eval γ} {g : γ → B → Eval γ} {P : γ → γ → Prop} {c d : γ} (hl : List.Forall₂ T l l')
    (hcd : P c d) (hfg : ∀ c d a b, P c d → T a b → Follows R (f c a) (g d b) P) :
    Follows R (l.foldlM f c) (l'.foldlM g d) P := by
  induction hl generalizing c d with
  | nil => exact .pure hcd
  | cons hab _ ih =>
    rw [List.foldlM_cons, List.foldlM_cons]
    exact (hfg c d _ _ hcd hab).bind fun c d hcd => ih hcd

theorem foldlM_same {f g : γ → A → Eval γ} {P : γ → γ → Prop} {c d : γ} (hcd : P c d)
    (hfg : ∀ c d a, P c d → Follows R (f c a) (g d a) P) : Follows R (l.foldlM f c) (l.foldlM g d) P := by
  apply foldlM (List.forall₂_same.mpr fun _ _ => rfl) hcd
  rintro c d a _ hcd rfl
  exact hfg c d a hcd

theorem anyM {f : A → Eval Bool} {g : B → Eval Bool} (hl : List.Forall₂ T l l')
    (hfg : ∀ a b, T a b → Follows R (f a) (g b) Eq) : Follows R (l.anyM f) (l'.anyM g) Eq := by
  induction hl with
  | nil => exact .pure rfl
  | cons hab _ ih =>
    rw [List.anyM, List.anyM]
    refine (hfg _ _ hab).bind_same fun holds => ?_
    cases holds with
    | true => exact .pure rfl
    | false => exact ih

theorem filterM {l l' : List γ} {f g : γ → Eval Bool} {P : γ → γ → Prop} (hl : List.Forall₂ P l l')
    (hfg : ∀ a b, P a b → Follows R (f a) (g b) Eq) : Follows R (l.filterM f) (l'.filterM g) (List.Forall₂ P) := by
  have haux : ∀ {done done' : List γ}, List.Forall₂ P done done' →
      Follows R (l.filterAuxM f done) (l'.filterAuxM g done') (List.Forall₂ P) := by
    induction hl with
    | nil => exact fun hdone => .pure hdone
    | cons hab _ ih =>
      intro done done' hdone
      refine (hfg _ _ hab).bind_same fun keep => ?_
      cases keep with
      | true => exact ih (.cons hab hdone)
      | false => exact ih hdone
  exact (haux .nil).bind fun _ _ hkept => .pure (List.rel_reverse hkept)

end Follows

end Marking
end Stencil
