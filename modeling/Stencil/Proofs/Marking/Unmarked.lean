import Stencil.Proofs.Value.Fuel
import Stencil.Render.Filter

/-!
Values without the marks of safe text, and without the reasons why values are missing. What is read from a value or a
store without them is what is read with them.
-/
namespace Stencil

/-- The value without the mark of safe text, and without the reason why it is missing. -/
def Value.unmarked : Value → Value
  | .safe t => .text t
  | .undefined _ => .undefined .otherwise
  | v => v

def Slot.unmarked : Slot → Slot
  | .data v => .data v.unmarked
  | .computed v => .computed v.unmarked

/-- A name or a key with a value, without a mark. -/
def unmarkedEntry {κ : Type} (p : κ × Value) : κ × Value := (p.1, p.2.unmarked)

def unmarkedProperty (p : Text × Slot) : Text × Slot := (p.1, p.2.unmarked)

def Scope.unmarked (scope : Scope) : Scope := ⟨scope.parent, scope.vars.map unmarkedEntry⟩

/-- The macro without its code. -/
def Macro.signature (m : Macro) : Macro := ⟨m.name, m.params, [], [], m.scope⟩

namespace Store

/-- The store without marks, and without the code of macros. Keys of tables stay as they are. -/
def unmarked (s : Store) : Store where
  lists := s.lists.map (·.map Value.unmarked)
  mappings := s.mappings.map (·.map unmarkedProperty)
  tables := s.tables.map (·.map unmarkedEntry)
  scopes := s.scopes.map Scope.unmarked
  macros := s.macros.map Macro.signature
  serial := s.serial

variable (s : Store) (v w : Value)

@[simp] theorem list_unmarked (id : ListId) : s.unmarked.list id = (s.list id).map Value.unmarked := by
  unfold list unmarked
  dsimp only
  rw [Array.getElem?_map]
  cases s.lists[id]? <;> rfl

@[simp] theorem mapping_unmarked (id : MappingId) :
    s.unmarked.mapping id = (s.mapping id).map unmarkedProperty := by
  unfold mapping unmarked
  dsimp only
  rw [Array.getElem?_map]
  cases s.mappings[id]? <;> rfl

@[simp] theorem table_unmarked (id : TableId) : s.unmarked.table id = (s.table id).map unmarkedEntry := by
  unfold table unmarked
  dsimp only
  rw [Array.getElem?_map]
  cases s.tables[id]? <;> rfl

@[simp] theorem scope_unmarked (id : ScopeId) : s.unmarked.scope id = (s.scope id).unmarked := by
  unfold scope unmarked
  dsimp only
  rw [Array.getElem?_map]
  cases s.scopes[id]? <;> rfl

@[simp] theorem depth_unmarked : s.unmarked.depth = s.depth := by simp [unmarked, depth]

@[simp] theorem isTruthy_unmarked : s.unmarked.isTruthy v.unmarked = s.isTruthy v := by
  cases v <;> simp [Value.unmarked, isTruthy]

/-! ## Keys and texts -/

theorem text?_unmarked : v.unmarked.text? = v.text? := by cases v <;> rfl

@[simp] theorem unmarked_eq_none : v.unmarked = .none ↔ v = .none := by cases v <;> simp [Value.unmarked]

@[simp] theorem unmarked_eq_absent : v.unmarked = .absent ↔ v = .absent := by cases v <;> simp [Value.unmarked]

theorem keyTextWithin_unmarked (n : Nat) (visiting : List ListId) (v : Value) :
    s.unmarked.keyTextWithin n visiting v.unmarked = s.keyTextWithin n visiting v := by
  induction n generalizing visiting v with
  | zero => rfl
  | succ n ih =>
    cases v with
    | list id =>
      have hitem : ∀ item : Value, (if item.unmarked = .none || item.unmarked = .absent then []
          else s.unmarked.keyTextWithin n (id :: visiting) item.unmarked) =
            if item = .none || item = .absent then [] else s.keyTextWithin n (id :: visiting) item := by
        intro item
        simp only [unmarked_eq_none, unmarked_eq_absent, ih]
      change s.unmarked.keyTextWithin (n + 1) visiting (.list id) = _
      rw [keyTextWithin_list, keyTextWithin_list, list_unmarked, List.map_map]
      simp only [Function.comp_def, hitem]
    | _ => rfl

@[simp] theorem keyText_unmarked : s.unmarked.keyText v.unmarked = s.keyText v := by
  have hsize : s.unmarked.lists.size = s.lists.size := Array.size_map ..
  unfold keyText
  rw [hsize]
  exact s.keyTextWithin_unmarked _ [] v

/-- A key that has no mark, as all keys of tables that templates write, counts as the same text. -/
theorem keyText_unmarked_key (key : Value) : s.unmarked.keyText key = s.keyText key := by
  have h := s.keyText_unmarked key
  cases key with
  | safe t | undefined reason => rfl
  | _ => exact h

@[simp] theorem entriesOf_unmarked (target : Keyed) :
    s.unmarked.entriesOf target = (s.entriesOf target).map unmarkedEntry := by
  cases target with
  | mapping id =>
    unfold entriesOf
    dsimp only
    rw [mapping_unmarked, List.map_map, List.map_map]
    refine List.map_congr_left fun p _ => ?_
    obtain ⟨key, slot⟩ := p
    cases slot <;> rfl
  | table id =>
    unfold entriesOf
    dsimp only
    rw [table_unmarked, List.map_map, List.map_map]
    refine List.map_congr_left fun p _ => ?_
    exact Prod.ext (s.keyText_unmarked_key p.1) rfl

theorem keyed?_unmarked : v.unmarked.keyed? = v.keyed? := by cases v <;> rfl

@[simp] theorem entries?_unmarked : s.unmarked.entries? v.unmarked = (s.entries? v).map (·.map unmarkedEntry) := by
  unfold entries?
  rw [keyed?_unmarked]
  cases v.keyed? with
  | none => rfl
  | some target => exact congrArg some (s.entriesOf_unmarked target)

theorem displayWithin_unmarked (n : Nat) (quote : Bool) (v : Value) :
    s.unmarked.displayWithin n quote v.unmarked = s.displayWithin n quote v := by
  induction n generalizing quote v with
  | zero => rfl
  | succ n ih =>
    have hentry : ∀ p : Text × Value, s.unmarked.entryWithin n (unmarkedEntry p) = s.entryWithin n p := by
      intro p
      unfold entryWithin unmarkedEntry
      dsimp only
      rw [ih]
    cases v with
    | list id =>
      change s.unmarked.displayWithin (n + 1) quote (.list id) = _
      rw [displayWithin_list, displayWithin_list, list_unmarked, List.mapM_map]
      exact congrArg (bracket "[" "]" <$> (s.list id).mapM ·) (funext (ih true))
    | mapping id =>
      change s.unmarked.displayWithin (n + 1) quote (.mapping id) = _
      rw [displayWithin_mapping, displayWithin_mapping, entriesOf_unmarked, List.mapM_map]
      exact congrArg (bracket "\x7b" "\x7d" <$> (s.entriesOf (.mapping id)).mapM ·) (funext hentry)
    | table id =>
      change s.unmarked.displayWithin (n + 1) quote (.table id) = _
      rw [displayWithin_table, displayWithin_table, entriesOf_unmarked, List.mapM_map]
      exact congrArg (bracket "\x7b" "\x7d" <$> (s.entriesOf (.table id)).mapM ·) (funext hentry)
    | ofMacro id =>
      have hname : s.unmarked.macros[id]?.map (·.name) = s.macros[id]?.map (·.name) := by
        unfold unmarked
        dsimp only
        rw [Array.getElem?_map, Option.map_map]
        rfl
      change s.unmarked.displayWithin (n + 1) quote (.ofMacro id) = _
      rw [displayWithin, displayWithin, hname]
    | _ => rfl

@[simp] theorem display?_unmarked : s.unmarked.display? v.unmarked = s.display? v := by
  unfold display?
  rw [depth_unmarked, displayWithin_unmarked]

@[simp] theorem repr?_unmarked : s.unmarked.repr? v.unmarked = s.repr? v := by
  unfold repr?
  rw [depth_unmarked, displayWithin_unmarked]

/-! ## Equality -/

theorem sameScalar_unmarked : sameScalar v.unmarked w.unmarked = sameScalar v w := by
  cases v <;> cases w <;> simp [Value.unmarked, sameScalar]

theorem lookup_unmarked {κ : Type} [BEq κ] (entries : List (κ × Value)) (key : κ) :
    (entries.map unmarkedEntry).lookup key = (entries.lookup key).map Value.unmarked := by
  induction entries with
  | nil => rfl
  | cons p entries ih =>
    rw [List.map_cons, List.lookup_cons, List.lookup_cons, ih]
    unfold unmarkedEntry
    dsimp only
    cases key == p.1 <;> rfl

theorem lastLookup_unmarked (entries : List (Text × Value)) (key : Text) :
    lastLookup (entries.map unmarkedEntry) key = (lastLookup entries key).map Value.unmarked := by
  unfold lastLookup
  rw [← List.map_reverse, lookup_unmarked]

theorem allHold_map {α β : Type} (f : α → β) (p : β → Option Bool) (items : List α) :
    allHold p (items.map f) = allHold (p ∘ f) items := by
  induction items with
  | nil => rfl
  | cons a items ih =>
    rw [List.map_cons, allHold, allHold, ih]
    rfl

section parts

variable {f g : Value → Value → Option Bool} (hfg : ∀ x y : Value, f x.unmarked y.unmarked = g x y)
include hfg

theorem compareItems_unmarked (xs ys : List Value) :
    compareItems f (xs.map Value.unmarked) (ys.map Value.unmarked) = compareItems g xs ys := by
  unfold compareItems
  rw [List.length_map, List.length_map, List.zip_map, allHold_map]
  exact congrArg (fun p => if xs.length = ys.length then allHold p (xs.zip ys) else some false)
    (funext fun p => hfg p.1 p.2)

theorem compareEntries_unmarked (xs? ys? : Option (List (Text × Value))) (otherwise : Bool) :
    compareEntries f (xs?.map (·.map unmarkedEntry)) (ys?.map (·.map unmarkedEntry)) otherwise =
      compareEntries g xs? ys? otherwise := by
  cases xs? with
  | none => rfl
  | some xs =>
    cases ys? with
    | none => rfl
    | some ys =>
      simp only [Option.map_some, compareEntries]
      rw [List.length_map, List.length_map, allHold_map]
      apply congrArg (fun p => if xs.length = ys.length then allHold p xs else some false)
      funext p
      simp only [Function.comp, unmarkedEntry, lastLookup_unmarked]
      cases lastLookup ys p.1 with
      | none => rfl
      | some y => exact hfg p.2 y

theorem compareParts_unmarked : s.unmarked.compareParts f v.unmarked w.unmarked = s.compareParts g v w := by
  have hentries : compareEntries f (s.unmarked.entries? v.unmarked) (s.unmarked.entries? w.unmarked)
      (sameScalar v.unmarked w.unmarked) = compareEntries g (s.entries? v) (s.entries? w) (sameScalar v w) := by
    rw [entries?_unmarked, entries?_unmarked, sameScalar_unmarked]
    exact compareEntries_unmarked hfg _ _ _
  cases v with
  | list i =>
    cases w with
    | list j =>
      have hitems := compareItems_unmarked hfg (s.list i) (s.list j)
      rw [← list_unmarked, ← list_unmarked] at hitems
      exact hitems
    | _ => exact hentries
  | _ => exact hentries

end parts

/-- A value that may look different without marks. It has no parts. -/
def isPart : Value → Bool
  | .text _ | .safe _ | .undefined _ => true
  | _ => false

theorem isPart_unmarked : isPart v.unmarked = isPart v := by cases v <;> rfl

theorem unmarked_of_isPart {v : Value} (h : isPart v = false) : v.unmarked = v := by
  cases v with
  | safe t | undefined reason => cases h
  | _ => rfl

theorem compareParts_of_isPart (f : Value → Value → Option Bool) (h : (isPart v || isPart w) = true) :
    s.compareParts f v w = some (sameScalar v w) := by
  cases v with
  | list i | mapping i | table i =>
    cases w with
    | text t | safe t | undefined reason => rfl
    | _ => cases h
  | _ => rfl

theorem equalWithin_unmarked (n : Nat) (visiting : List (Value × Value))
    (hvisiting : ∀ p ∈ visiting, (isPart p.1 || isPart p.2) = false) (v w : Value) :
    s.unmarked.equalWithin n visiting v.unmarked w.unmarked = s.equalWithin n visiting v w := by
  induction n generalizing visiting v w with
  | zero => rfl
  | succ n ih =>
    rw [equalWithin_succ, equalWithin_succ]
    cases h : isPart v || isPart w with
    | false =>
      obtain ⟨hv, hw⟩ := Bool.or_eq_false_iff.mp h
      have hparts := s.compareParts_unmarked v w (ih ((v, w) :: visiting) (List.forall_mem_cons.mpr ⟨h, hvisiting⟩))
      rw [unmarked_of_isPart hv, unmarked_of_isPart hw] at hparts ⊢
      rw [hparts]
    | true =>
      -- Values without parts are not among the containers that are compared around them.
      have hcontains : ∀ x y : Value, (isPart x || isPart y) = true → visiting.contains (x, y) = false := by
        intro x y hxy
        apply Bool.eq_false_iff.mpr
        intro hmem
        rw [hvisiting _ (List.contains_iff_mem.mp hmem)] at hxy
        cases hxy
      have h' : (isPart v.unmarked || isPart w.unmarked) = true := by rwa [isPart_unmarked, isPart_unmarked]
      rw [hcontains _ _ h, hcontains _ _ h', compareParts_of_isPart _ _ _ _ h, compareParts_of_isPart _ _ _ _ h',
        sameScalar_unmarked]

@[simp] theorem equal?_unmarked : s.unmarked.equal? v.unmarked w.unmarked = s.equal? v w := by
  unfold equal?
  rw [depth_unmarked]
  exact s.equalWithin_unmarked _ [] (fun _ h => nomatch h) v w

end Store
end Stencil
