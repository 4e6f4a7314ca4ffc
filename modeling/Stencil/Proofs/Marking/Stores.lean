import Stencil.Proofs.Marking.Unmarked
import Stencil.Render.Environment

/-! Items, variables and changes of a store, without the marks of safe text. -/
namespace Stencil

namespace Store

variable (s : Store) (v : Value)

/-! ## Items -/

theorem map_unmarked_points (t : Text) : (t.points.map Value.text).map Value.unmarked = t.points.map Value.text := by
  rw [List.map_map]
  rfl

theorem map_unmarked_keys (entries : List (Text × Value)) :
    (entries.map unmarkedEntry).map (fun (key, _) => Value.text key) =
      (entries.map fun (key, _) => Value.text key).map Value.unmarked := by
  rw [List.map_map, List.map_map]
  rfl

theorem items?_unmarked : s.unmarked.items? v.unmarked = (s.items? v).map (·.map Value.unmarked) := by
  cases v with
  | text t | safe t => exact congrArg some (map_unmarked_points t).symm
  | list id => exact congrArg some (s.list_unmarked id)
  | mapping id =>
    refine congrArg some ?_
    rw [entriesOf_unmarked, map_unmarked_keys]
  | table id =>
    refine congrArg some ?_
    rw [entriesOf_unmarked, map_unmarked_keys]
  | _ => rfl

theorem length?_unmarked : s.unmarked.length? v.unmarked = s.length? v := by
  have hentries : (s.unmarked.entries? v.unmarked).map List.length = (s.entries? v).map List.length := by
    rw [entries?_unmarked, Option.map_map]
    exact congrArg (fun f => (s.entries? v).map f) (funext fun _ => List.length_map ..)
  cases v with
  | list id =>
    refine congrArg some ?_
    rw [list_unmarked, List.length_map]
  | mapping id | table id => exact hentries
  | _ => rfl

theorem sortKey?_unmarked (caseSensitive : Bool) :
    s.unmarked.sortKey? caseSensitive v.unmarked = s.sortKey? caseSensitive v := by
  have hdisplay := congrArg (Option.map fun t : Text => SortKey.text (if caseSensitive then t else t.toLower))
    (s.display?_unmarked v)
  cases v with
  | number x => rfl
  | _ => exact hdisplay

theorem sorted?_unmarked (caseSensitive : Bool) (items : List Value) :
    s.unmarked.sorted? caseSensitive (items.map Value.unmarked) =
      (s.sorted? caseSensitive items).map (·.map Value.unmarked) := by
  have hsplit : ∀ p : Value → Bool, (∀ v : Value, p v.unmarked = p v) →
      (items.map Value.unmarked).filter p = (items.filter p).map Value.unmarked := by
    intro p hp
    rw [List.filter_map]
    exact congrArg (fun q => (items.filter q).map Value.unmarked) (funext hp)
  have habsent : ∀ v : Value, decide (v.unmarked = .absent) = decide (v = .absent) :=
    fun v => decide_eq_decide.mpr (Store.unmarked_eq_absent v)
  unfold sorted?
  rw [List.partition_eq_filter_filter, List.partition_eq_filter_filter, hsplit _ habsent,
    hsplit _ fun v => congrArg not (habsent v)]
  dsimp only
  rw [List.mapM_map, show s.unmarked.sortKey? caseSensitive ∘ Value.unmarked = s.sortKey? caseSensitive from
    funext (s.sortKey?_unmarked · caseSensitive)]
  cases (items.filter _).mapM (s.sortKey? caseSensitive) with
  | none => rfl
  | some keys =>
    refine congrArg some (Eq.trans ?_ List.map_append.symm)
    rw [List.map_filterMap]
    simp only [List.getElem?_toArray, List.getElem?_map]

theorem anyM_equal?_unmarked (seen : List Value) :
    ((seen.map Value.unmarked).anyM fun w => s.unmarked.equal? w v.unmarked) = seen.anyM fun w => s.equal? w v := by
  induction seen with
  | nil => rfl
  | cons w seen ih => rw [List.map_cons, List.anyM, List.anyM, equal?_unmarked, ih]

theorem unique?_unmarked (items : List Value) :
    s.unmarked.unique? (items.map Value.unmarked) = (s.unique? items).map (·.map Value.unmarked) := by
  have hfold : ∀ seen : List Value,
      (items.map Value.unmarked).foldlM (fun (seen : List Value) v => do
          let known ← seen.anyM fun w => s.unmarked.equal? w v
          return if known then seen else seen ++ [v]) (seen.map Value.unmarked) =
        Option.map (List.map Value.unmarked) (items.foldlM (fun (seen : List Value) v => do
          let known ← seen.anyM fun w => s.equal? w v
          return if known then seen else seen ++ [v]) seen) := by
    induction items with
    | nil => exact fun _ => rfl
    | cons v items ih =>
      intro seen
      rw [List.map_cons, List.foldlM_cons, List.foldlM_cons, anyM_equal?_unmarked]
      cases seen.anyM fun w => s.equal? w v with
      | none => rfl
      | some known =>
        cases known with
        | true => exact ih seen
        | false =>
          have hih := ih (seen ++ [v])
          rw [List.map_append] at hih
          exact hih
  exact hfold []

theorem positionsOf?_unmarked (items : List Value) :
    s.unmarked.positionsOf? v.unmarked (items.map Value.unmarked) = s.positionsOf? v items := by
  unfold positionsOf?
  rw [List.zipIdx_map, List.mapM_map]
  refine congrArg (fun f => (items.zipIdx.mapM f) >>= _) (funext fun p => ?_)
  exact congrArg (· >>= _) (s.equal?_unmarked p.1 v)

theorem get?_unmarked (ps : Properties) (key : Text) :
    Properties.get? (ps.map unmarkedProperty) key = (ps.get? key).map Slot.unmarked := by
  unfold Properties.get?
  induction ps with
  | nil => rfl
  | cons p ps ih =>
    rw [List.map_cons, List.lookup_cons, List.lookup_cons, ih]
    unfold unmarkedProperty
    dsimp only
    cases key == p.1 <;> rfl

theorem ownValue?_unmarked (target : Keyed) (key : Text) :
    s.unmarked.ownValue? target key = (s.ownValue? target key).map Value.unmarked := by
  cases target with
  | mapping id =>
    unfold ownValue?
    dsimp only
    rw [mapping_unmarked, get?_unmarked]
    cases (s.mapping id).get? key with
    | none => rfl
    | some slot => cases slot <;> rfl
  | table id =>
    unfold ownValue?
    dsimp only
    rw [table_unmarked, lookup_unmarked]

theorem contextVars_unmarked : s.unmarked.contextVars v.unmarked = (s.contextVars v).map unmarkedEntry := by
  cases v with
  | mapping id => exact s.entriesOf_unmarked (.mapping id)
  | table id =>
    change (s.unmarked.table id).filterMap _ = _
    rw [table_unmarked, List.filterMap_map, contextVars, List.map_filterMap]
    refine congrArg (List.filterMap · _) (funext fun p => ?_)
    obtain ⟨key, v⟩ := p
    cases key <;> rfl
  | _ => rfl

/-! ## Variables -/

theorem resolveWithin_unmarked (name : Text) (n : Nat) (id : ScopeId) :
    s.unmarked.resolveWithin name n id = (s.resolveWithin name n id).map Value.unmarked := by
  induction n generalizing id with
  | zero => rfl
  | succ n ih =>
    unfold resolveWithin
    dsimp only
    rw [scope_unmarked]
    unfold Scope.unmarked
    dsimp only
    rw [lookup_unmarked]
    cases (s.scope id).vars.lookup name with
    | some v => rfl
    | none =>
      cases (s.scope id).parent with
      | none => rfl
      | some parent => exact ih parent

theorem assocSet_unmarked {κ : Type} [DecidableEq κ] (key : κ) (entries : List (κ × Value)) :
    (assocSet key v entries).map unmarkedEntry = assocSet key v.unmarked (entries.map unmarkedEntry) := by
  induction entries with
  | nil => rfl
  | cons p entries ih =>
    obtain ⟨k, w⟩ := p
    have hstep : assocSet key v ((k, w) :: entries) =
      if k = key then (k, v) :: entries else (k, w) :: assocSet key v entries := rfl
    have hstep' : assocSet key v.unmarked (((k, w) :: entries).map unmarkedEntry) =
      if k = key then (k, v.unmarked) :: entries.map unmarkedEntry
      else (k, w.unmarked) :: assocSet key v.unmarked (entries.map unmarkedEntry) := rfl
    rw [hstep, hstep', ← ih]
    by_cases hk : k = key
    · rw [if_pos hk, if_pos hk]
      rfl
    · rw [if_neg hk, if_neg hk]
      rfl

/-! ## Changes -/

theorem setList_unmarked (id : ListId) (items : List Value) :
    (s.setList id items).unmarked = s.unmarked.setList id (items.map Value.unmarked) := by
  simp [setList, unmarked]

theorem newList_unmarked (items : List Value) :
    (s.newList items).2.unmarked = (s.unmarked.newList (items.map Value.unmarked)).2 := by
  simp [newList, unmarked]

theorem newMapping_unmarked (ps : Properties) :
    (s.newMapping ps).2.unmarked = (s.unmarked.newMapping (ps.map unmarkedProperty)).2 := by
  simp [newMapping, unmarked]

theorem newScope_unmarked (parent : Option ScopeId) (vars : List (Text × Value)) :
    (s.newScope parent vars).2.unmarked = (s.unmarked.newScope parent (vars.map unmarkedEntry)).2 := by
  simp [newScope, unmarked, Scope.unmarked]

theorem newMacro_unmarked (m : Macro) : (s.newMacro m).2.unmarked = (s.unmarked.newMacro m.signature).2 := by
  simp [newMacro, unmarked]

theorem newNative_unmarked (f : Native) : (s.newNative f).2.unmarked = (s.unmarked.newNative f).2 := rfl

theorem setVar_unmarked (id : ScopeId) (name : Text) :
    (s.setVar id name v).unmarked = s.unmarked.setVar id name v.unmarked := by
  have hscopes :
      (s.scopes.modify id fun scope => { scope with vars := assocSet name v scope.vars }).map Scope.unmarked =
        (s.scopes.map Scope.unmarked).modify id fun scope =>
          { scope with vars := assocSet name v.unmarked scope.vars } := by
    refine Array.ext_getElem? fun j => ?_
    rw [Array.getElem?_map, Array.getElem?_modify, Array.getElem?_modify, Array.getElem?_map]
    by_cases hj : id = j
    · rw [if_pos hj, if_pos hj]
      cases s.scopes[j]? with
      | none => rfl
      | some scope =>
        refine congrArg (fun vars => some (Scope.mk scope.parent vars)) ?_
        exact assocSet_unmarked v name scope.vars
    · rw [if_neg hj, if_neg hj]
  unfold setVar unmarked
  dsimp only
  rw [hscopes]

/-! ## Properties -/

theorem insertIndex_unmarked (key : Text) (n : Nat) (slot : Slot) (ps : Properties) :
    (Properties.insertIndex key n slot ps).map unmarkedProperty =
      Properties.insertIndex key n slot.unmarked (ps.map unmarkedProperty) := by
  induction ps with
  | nil => rfl
  | cons p ps ih =>
    obtain ⟨k, slot'⟩ := p
    simp only [Properties.insertIndex, List.map_cons, unmarkedProperty]
    cases arrayIndex? k with
    | none => rfl
    | some m =>
      dsimp only
      by_cases hm : m < n
      · rw [if_pos hm, if_pos hm, ← ih]
        rfl
      · rw [if_neg hm, if_neg hm]
        rfl

theorem set_unmarked (ps : Properties) (key : Text) (slot : Slot) :
    (ps.set key slot).map unmarkedProperty = Properties.set (ps.map unmarkedProperty) key slot.unmarked := by
  unfold Properties.set
  rw [get?_unmarked, Option.isSome_map]
  by_cases hkey : (ps.get? key).isSome = true
  · rw [if_pos hkey, if_pos hkey, List.map_map, List.map_map]
    refine List.map_congr_left fun p _ => ?_
    change unmarkedProperty (if p.1 = key then (key, slot) else p) =
      if p.1 = key then (key, slot.unmarked) else unmarkedProperty p
    by_cases hp : p.1 = key
    · rw [if_pos hp, if_pos hp]
      rfl
    · rw [if_neg hp, if_neg hp]
  · rw [if_neg hkey, if_neg hkey]
    cases arrayIndex? key with
    | none => exact List.map_append
    | some n => exact insertIndex_unmarked key n slot ps

theorem ofList_unmarked (entries : List (Text × Slot)) :
    (Properties.ofList entries).map unmarkedProperty = Properties.ofList (entries.map unmarkedProperty) := by
  have hfold : ∀ ps : Properties,
      (entries.foldl (fun (ps : Properties) p => ps.set p.1 p.2) ps).map unmarkedProperty =
        (entries.map unmarkedProperty).foldl (fun (ps : Properties) p => ps.set p.1 p.2)
          (ps.map unmarkedProperty) := by
    induction entries with
    | nil => exact fun _ => rfl
    | cons p entries ih =>
      intro ps
      rw [List.foldl_cons, List.map_cons, List.foldl_cons, ih, set_unmarked]
      rfl
  exact hfold []

theorem setEntry_unmarked (target : Keyed) (key : Text) :
    (s.setEntry target key v).unmarked = s.unmarked.setEntry target key v.unmarked := by
  cases target with
  | mapping id =>
    have hset := set_unmarked (s.mapping id) key (.data v)
    change (s.setMapping id _).unmarked = s.unmarked.setMapping id _
    rw [mapping_unmarked]
    simp only [setMapping, unmarked, Array.map_setIfInBounds, hset]
    rfl
  | table id =>
    have hset := assocSet_unmarked v (Value.text key) (s.table id)
    change (s.setTable id _).unmarked = s.unmarked.setTable id _
    rw [table_unmarked]
    simp only [setTable, unmarked, Array.map_setIfInBounds, hset]

/-! ## The code of macros -/

/-- The store without the code of macros. -/
def uncoded (s : Store) : Store := { s with macros := s.macros.map Macro.signature }

theorem uncoded_unmarked : s.uncoded.unmarked = s.unmarked := by
  unfold uncoded unmarked
  rw [Array.map_map]
  rfl

/-- What does not depend on marks does not depend on code either. -/
theorem uncoded_of_unmarked {α : Type} {f : Store → Value → α} (hf : ∀ s v, f s.unmarked v.unmarked = f s v) :
    f s.uncoded v = f s v := by
  rw [← hf s.uncoded v, uncoded_unmarked, hf s v]

theorem list_uncoded (id : ListId) : s.uncoded.list id = s.list id := rfl

theorem entriesOf_uncoded (target : Keyed) : s.uncoded.entriesOf target = s.entriesOf target := by
  cases target with
  | mapping id => rfl
  | table id =>
    have hkey : s.uncoded.keyText = s.keyText := funext fun v => s.uncoded_of_unmarked v keyText_unmarked
    unfold entriesOf
    rw [hkey]
    rfl

theorem ownValue?_uncoded (target : Keyed) (key : Text) : s.uncoded.ownValue? target key = s.ownValue? target key := by
  cases target <;> rfl

theorem items?_uncoded : s.uncoded.items? v = s.items? v := by
  cases v with
  | mapping id | table id =>
    refine congrArg some ?_
    rw [entriesOf_uncoded]
  | _ => rfl

theorem sorted?_uncoded (caseSensitive : Bool) (items : List Value) :
    s.uncoded.sorted? caseSensitive items = s.sorted? caseSensitive items := by
  have hkey : s.uncoded.sortKey? caseSensitive = s.sortKey? caseSensitive := by
    funext v
    exact s.uncoded_of_unmarked (f := fun s => s.sortKey? caseSensitive) v (sortKey?_unmarked · · caseSensitive)
  unfold sorted?
  rw [hkey]

theorem unique?_uncoded (items : List Value) : s.uncoded.unique? items = s.unique? items := by
  have hequal : s.uncoded.equal? = s.equal? := by
    funext v w
    rw [← equal?_unmarked, uncoded_unmarked, equal?_unmarked]
  unfold unique?
  rw [hequal]

theorem contextVars_uncoded : s.uncoded.contextVars v = s.contextVars v := by
  cases v <;> rfl

theorem resolveWithin_uncoded (name : Text) (n : Nat) (id : ScopeId) :
    s.uncoded.resolveWithin name n id = s.resolveWithin name n id := by
  induction n generalizing id with
  | zero => rfl
  | succ n ih =>
    have hparent : s.uncoded.resolveWithin name n = s.resolveWithin name n := funext ih
    have hscope : s.uncoded.scope id = s.scope id := rfl
    unfold resolveWithin
    rw [hparent, hscope]

theorem setList_uncoded (id : ListId) (items : List Value) :
    (s.setList id items).uncoded = s.uncoded.setList id items := rfl

theorem newList_uncoded (items : List Value) : (s.newList items).2.uncoded = (s.uncoded.newList items).2 := rfl

theorem newMapping_uncoded (ps : Properties) : (s.newMapping ps).2.uncoded = (s.uncoded.newMapping ps).2 := rfl

theorem newScope_uncoded (parent : Option ScopeId) (vars : List (Text × Value)) :
    (s.newScope parent vars).2.uncoded = (s.uncoded.newScope parent vars).2 := rfl

theorem newNative_uncoded (f : Native) : (s.newNative f).2.uncoded = (s.uncoded.newNative f).2 := rfl

theorem newMacro_uncoded (m : Macro) : (s.newMacro m).2.uncoded = (s.uncoded.newMacro m.signature).2 := by
  unfold newMacro uncoded
  rw [Array.map_push]

theorem setVar_uncoded (id : ScopeId) (name : Text) :
    (s.setVar id name v).uncoded = s.uncoded.setVar id name v := rfl

theorem setEntry_uncoded (target : Keyed) (key : Text) :
    (s.setEntry target key v).uncoded = s.uncoded.setEntry target key v := by
  cases target <;> rfl

end Store
end Stencil
