import Stencil.Proofs.Correspondence.Access
import Stencil.Proofs.Marking.Following
import Stencil.Render.Filter

/-!
Reaching into values that are the same. Items and slices of a text tell whether it is marked, and so does a text that
names a method; all else does not.
-/
namespace Stencil.Marking

variable {R : Terms} {v w v' w' : Value} {xs ys : List Value}

theorem follows_list (id : ListId) :
    Follows R (Eval.read (·.list id)) (Eval.read (·.list id)) (List.Forall₂ R.Same) := .read fun _ _ h => h.list id

theorem follows_newList (hxs : List.Forall₂ R.Same xs ys) : Follows R (Eval.newList xs) (Eval.newList ys) R.Same :=
  .alloc fun _ _ h => h.newList hxs

theorem follows_mappingOf {ps qs : List (Text × Value)} (hps : List.Forall₂ R.SameEntry ps qs) :
    Follows R (Eval.mappingOf ps) (Eval.mappingOf qs) R.Same := .alloc fun _ _ h => h.newMapping hps

theorem follows_newNative (f : Native) : Follows R (Eval.newNative f) (Eval.newNative f) R.Same :=
  .alloc fun _ _ h => h.newNative f

theorem follows_newScope (parent : ScopeId) : Follows R (Eval.newScope parent) (Eval.newScope parent) Eq :=
  .alloc fun _ _ h => h.newScope (some parent) .nil

theorem follows_setVar (scope : ScopeId) (name : Text) (h : R.Same v w) :
    Follows R (Eval.setVar scope name v) (Eval.setVar scope name w) fun _ _ => True :=
  .modify fun _ _ hst => hst.setVar scope name h

theorem follows_display (h : R.Same v w) : Follows R (Eval.display v) (Eval.display w) Eq :=
  .readDeep_same fun _ _ hst => hst.display?_eq h

theorem follows_repr (h : R.Same v w) : Follows R (Eval.repr v) (Eval.repr w) Eq :=
  .readDeep_same fun _ _ hst => hst.repr?_eq h

theorem follows_truthy (h : R.Same v w) : Follows R (Eval.truthy v) (Eval.truthy w) Eq :=
  .read fun _ _ hst => hst.isTruthy_eq h

theorem follows_equal (hv : R.Same v v') (hw : R.Same w w') : Follows R (Eval.equal v w) (Eval.equal v' w') Eq :=
  .readDeep_same fun _ _ hst => hst.equal?_eq hv hw

theorem follows_items (h : R.Same v w) : Follows R (Eval.items v) (Eval.items w) (List.Forall₂ R.Same) := by
  refine .get_bind fun s t hst => ?_
  rcases rel_cases (hst.items? h) with ⟨hx, hy⟩ | ⟨xs, ys, hx, hy, hxs⟩ <;> rw [hx, hy]
  · exact .throw
  · exact .pure hxs

theorem plain_of_defined (h : ∀ r, v ≠ .undefined r) : Eval.plain v = pure v.unmarked := by
  cases v with
  | undefined r => exact absurd rfl (h r)
  | _ => rfl

/-- Without their marks, values that are the same are equal. -/
theorem follows_plain (h : R.Same v w) : Follows R (Eval.plain v) (Eval.plain w) Eq := by
  by_cases hv : ∃ r, v = .undefined r
  · obtain ⟨r, rfl⟩ := hv
    exact .throw
  · have hdefined : ∀ r, v ≠ .undefined r := fun r hr => hv ⟨r, hr⟩
    rw [plain_of_defined hdefined, plain_of_defined (h.defined hdefined)]
    exact .pure h.unmarked

theorem keyOf_eq_display (v : Value) : Eval.keyOf v = Eval.display v := by
  funext s
  cases v <;> rfl

theorem follows_keyOf (h : R.Same v w) : Follows R (Eval.keyOf v) (Eval.keyOf w) Eq := by
  rw [keyOf_eq_display, keyOf_eq_display]
  exact follows_display h

/-! ## Members -/

theorem follows_bound (kind : Kind) (name : Text) (f? : Option Native) :
    Follows R (Eval.bound kind name f?) (Eval.bound kind name f?) R.Same := by
  cases f? with
  | some f => exact follows_newNative f
  | none => exact .pure (Terms.Same.refl _)

theorem follows_memberOfKeyed (target : Keyed) (name : Text) :
    Follows R
      (match KeyedMethod.ofName? name with
        | some m => Eval.newNative (.keyed m target)
        | none => do match (← get).ownValue? target name with
          | some v => return v
          | none => return .undefined (.member .dict name))
      (match KeyedMethod.ofName? name with
        | some m => Eval.newNative (.keyed m target)
        | none => do match (← get).ownValue? target name with
          | some v => return v
          | none => return .undefined (.member .dict name)) R.Same := by
  split
  · exact follows_newNative _
  · refine .get_bind fun s t hst => ?_
    rcases rel_cases (hst.ownValue? target name) with ⟨hx, hy⟩ | ⟨x, y, hx, hy, hxy⟩ <;> rw [hx, hy]
    · exact .pure (Terms.Same.refl _)
    · exact .pure hxy

theorem follows_member_self (v : Value) (name : Text) : Follows R (Eval.member v name) (Eval.member v name) R.Same := by
  unfold Eval.member
  cases hname : Eval.isHidden name with
  | true => cases v <;> exact .throw
  | false =>
    cases v with
    | undefined reason => exact .throw
    | text t | safe t => exact follows_bound _ _ _
    | list id => exact follows_bound _ _ _
    | mapping id => exact follows_memberOfKeyed (.mapping id) name
    | table id => exact follows_memberOfKeyed (.table id) name
    | _ => exact .pure (Terms.Same.refl _)

theorem follows_member (h : R.Same v w) (name : Text) : Follows R (Eval.member v name) (Eval.member w name) R.Same := by
  rcases h.eq_or with rfl | ⟨t, hv, hw⟩ | ⟨r, r', rfl, rfl⟩
  · exact follows_member_self v name
  · have hmember : Eval.member v name = Eval.member w name := by
      cases v <;> cases hv <;> cases w <;> cases hw <;> rfl
    rw [hmember]
    exact follows_member_self w name
  · exact .throw

/-! ## Items -/

/-- Whether a text names a method, or is hidden. -/
def isReserved (t : Text) : Bool :=
  Eval.isHidden t || (TextMethod.ofName? t).isSome || (ListMethod.ofName? t).isSome || (KeyedMethod.ofName? t).isSome

theorem follows_sequence? (v : Value) {s t : Store} (hst : Alike R s t) :
    Option.Rel (List.Forall₂ R.Same) (Eval.sequence? s v) (Eval.sequence? t v) := by
  cases v with
  | list id => exact .some (hst.list id)
  | text u => exact .some (forall₂_text _)
  | _ => exact .none

theorem same_at? (hxs : List.Forall₂ R.Same xs ys) (i : Int) : Option.Rel R.Same (Eval.at? xs i) (Eval.at? ys i) := by
  unfold Eval.at?
  rw [hxs.length_eq]
  dsimp only
  generalize (if i < 0 then (ys.length : Int) + i else i) = k
  by_cases hk : 0 ≤ k
  · rw [if_pos hk, if_pos hk]
    exact rel_getElem? hxs _
  · rw [if_neg hk, if_neg hk]
    exact .none

/-- The number, its integer and the items it picks from. -/
def Terms.SamePick (R : Terms) (p q : Number × Int × List Value) : Prop :=
  p.1 = q.1 ∧ p.2.1 = q.2.1 ∧ List.Forall₂ R.Same p.2.2 q.2.2

theorem picked?_of_not_number (h : ∀ x, w ≠ .number x) : Eval.picked? v w = pure none := by
  cases w with
  | number x => exact absurd rfl (h x)
  | _ => rfl

theorem follows_picked? (hw : R.Same w w') (h : v = v' ∨ ∀ x, w ≠ .number x) :
    Follows R (Eval.picked? v w) (Eval.picked? v' w') (Option.Rel R.SamePick) := by
  by_cases hnumber : ∃ x, w = .number x
  · obtain ⟨x, rfl⟩ := hnumber
    cases hw.eq_number rfl
    rcases h with rfl | h
    · refine .get_bind fun s t hst => .pure ?_
      cases x.toInt? with
      | none => exact .none
      | some i =>
        rw [Option.bind_some, Option.bind_some]
        rcases rel_cases (follows_sequence? v hst) with ⟨hx, hy⟩ | ⟨xs, ys, hx, hy, hxs⟩ <;> rw [hx, hy]
        · exact .none
        · exact .some ⟨rfl, rfl, hxs⟩
    · exact absurd rfl (h x)
  · have hw' : ∀ x, w' ≠ .number x := fun x hx => hnumber ⟨x, hw.symm.eq_number hx⟩
    rw [picked?_of_not_number fun x hx => hnumber ⟨x, hx⟩, picked?_of_not_number hw']
    exact .pure .none

theorem follows_dataAt (hv : R.Same v v') (hw : R.Same w w') :
    Follows R (Eval.dataAt v w) (Eval.dataAt v' w') (Option.Rel R.Same) := by
  unfold Eval.dataAt
  rw [hv.keyed?_eq]
  cases v'.keyed? with
  | none => exact .pure .none
  | some target =>
    refine (follows_keyOf hw).bind_same fun name => ?_
    cases Eval.isHidden name with
    | true => exact .throw
    | false => exact .get_bind fun s t hst => .pure (hst.ownValue? target name)

theorem item_of_defined (hv : ∀ r, v ≠ .undefined r) (key : Value) : Eval.item v key = do
    match ← Eval.picked? v key with
    | some (x, i, items) => return (Eval.at? items i).getD (.undefined (.index v.kind x))
    | none =>
      match ← Eval.dataAt v key with
      | some found => return found
      | none =>
        match key with
        | .text name => Eval.member v name
        | key => return .undefined (.element v.kind (← Eval.repr key)) := by
  cases v with
  | undefined r => exact absurd rfl (hv r)
  | _ => rfl

/-- Items are the same where a number picks from equal values, and where texts are equal keys. -/
theorem follows_item_of_eq (hv : R.Same v v') (hw : R.Same w w') (hdefined : ∀ r, v ≠ .undefined r)
    (htarget : v = v' ∨ ∀ x, w ≠ .number x) (hkey : w = w' ∨ w.text? = none) :
    Follows R (Eval.item v w) (Eval.item v' w') R.Same := by
  rw [item_of_defined hdefined, item_of_defined (hv.defined hdefined), hv.kind_eq]
  refine (follows_picked? hw htarget).bind fun a b hab => ?_
  rcases rel_cases hab with ⟨rfl, rfl⟩ | ⟨⟨x, i, xs⟩, ⟨_, _, ys⟩, rfl, rfl, rfl, rfl, hxs⟩
  · refine (follows_dataAt hv hw).bind fun a b hab => ?_
    rcases rel_cases hab with ⟨rfl, rfl⟩ | ⟨x, y, rfl, rfl, hxy⟩
    · have hrepr := (follows_repr (R := R) hw).bind_same (S := R.Same)
        (f := fun t => pure (.undefined (.element v'.kind t))) (g := fun t => pure (.undefined (.element v'.kind t)))
        fun _ => .pure (.refl _)
      rcases hw.eq_or with rfl | ⟨t, ht, _⟩ | ⟨r, r', rfl, rfl⟩
      · cases w with
        | text name => exact follows_member hv name
        | _ => exact hrepr
      · rcases hkey with rfl | hkey
        · cases w with
          | text name => exact follows_member hv name
          | _ => exact hrepr
        · rw [hkey] at ht
          cases ht
      · exact hrepr
    · exact .pure hxy
  · exact .pure (rel_getD (same_at? hxs i) (.refl _))

theorem keyOf_of_text {key : Value} {name : Text} (hkey : key.text? = some name) (s : Store) :
    Eval.keyOf key s = .ok name s := by
  cases key with
  | text t =>
    cases hkey
    rfl
  | safe t =>
    cases hkey
    change Eval.readDeep (·.display? (.safe name)) s = _
    exact readDeep_eq rfl
  | _ => cases hkey

/-- The data of a value under a text. -/
def dataUnder (s : Store) (v : Value) (name : Text) : Option Value := v.keyed?.bind (s.ownValue? · name)

theorem dataAt_of_text {key : Value} {name : Text} (hkey : key.text? = some name) (hhidden : Eval.isHidden name = false)
    (s : Store) : Eval.dataAt v key s = .ok (dataUnder s v name) s := by
  unfold Eval.dataAt dataUnder
  cases v.keyed? with
  | none => rfl
  | some target =>
    dsimp only
    rw [bind_ok (keyOf_of_text hkey s), hhidden]
    rfl

theorem member_of_unreserved {name : Text} (hname : isReserved name = false) (hv : ∀ r, v ≠ .undefined r)
    {s : Store} (hdata : dataUnder s v name = none) : ∃ r, Eval.member v name s = .ok (.undefined r) s := by
  unfold isReserved at hname
  simp only [Bool.or_eq_false_iff, Option.isSome_eq_false_iff, Option.isNone_iff_eq_none] at hname
  obtain ⟨⟨⟨hhidden, htext⟩, hlist⟩, hkeyed⟩ := hname
  unfold Eval.member
  rw [hhidden]
  cases v with
  | undefined r => exact absurd rfl (hv r)
  | text t | safe t =>
    dsimp only
    rw [htext]
    exact ⟨_, rfl⟩
  | list id =>
    dsimp only
    rw [hlist]
    exact ⟨_, rfl⟩
  | mapping id | table id =>
    dsimp only [Value.keyed?]
    rw [hkeyed]
    unfold dataUnder at hdata
    rw [Value.keyed?, Option.bind_some] at hdata
    have hget : (get : Eval Store) s = .ok s s := rfl
    dsimp only
    refine ⟨.member .dict name, (bind_ok hget).trans ?_⟩
    rw [hdata]
    rfl
  | _ => exact ⟨_, rfl⟩

theorem item_of_data {key found : Value} {name : Text} (hkey : key.text? = some name) (hv : ∀ r, v ≠ .undefined r)
    {s : Store} (hdata : Eval.dataAt v key s = .ok (some found) s) : Eval.item v key s = .ok found s := by
  have hpicked : Eval.picked? v key = pure none := by
    apply picked?_of_not_number
    rintro x rfl
    cases hkey
  rw [item_of_defined hv, hpicked, pure_bind]
  exact bind_ok hdata

theorem item_of_name {name : Text} (hv : ∀ r, v ≠ .undefined r) {s : Store}
    (hdata : Eval.dataAt v (.text name) s = .ok none s) : Eval.item v (.text name) s = Eval.member v name s := by
  have hpicked : Eval.picked? v (.text name) = pure none := rfl
  rw [item_of_defined hv, hpicked, pure_bind]
  exact bind_ok hdata

theorem item_of_marked {name : Text} (hv : ∀ r, v ≠ .undefined r) {s : Store}
    (hdata : Eval.dataAt v (.safe name) s = .ok none s) : ∃ r, Eval.item v (.safe name) s = .ok (.undefined r) s := by
  have hpicked : Eval.picked? v (.safe name) = pure none := rfl
  have hrepr : Eval.repr (.safe name) s = .ok (quoted name) s := by
    change Eval.readDeep (·.repr? (.safe name)) s = _
    exact readDeep_eq rfl
  refine ⟨.element v.kind (quoted name), ?_⟩
  rw [item_of_defined hv, hpicked, pure_bind]
  exact (bind_ok hdata).trans (bind_ok hrepr)

/-- A text that is not reserved picks the data under it, or nothing. -/
theorem item_of_unreserved {key : Value} {name : Text} (hkey : key.text? = some name) (hname : isReserved name = false)
    (hv : ∀ r, v ≠ .undefined r) (s : Store) :
    ∃ r, Eval.item v key s = .ok ((dataUnder s v name).getD (.undefined r)) s := by
  have hhidden : Eval.isHidden name = false := by
    unfold isReserved at hname
    simp only [Bool.or_eq_false_iff] at hname
    exact hname.1.1.1
  have hdata := dataAt_of_text (v := v) hkey hhidden s
  cases hfound : dataUnder s v name with
  | some found =>
    rw [hfound] at hdata
    exact ⟨.otherwise, item_of_data hkey hv hdata⟩
  | none =>
    rw [hfound] at hdata
    cases key with
    | text t =>
      cases hkey
      rw [item_of_name hv hdata]
      exact member_of_unreserved hname hv hfound
    | safe t =>
      cases hkey
      exact item_of_marked hv hdata
    | _ => cases hkey

theorem follows_dataUnder (hv : R.Same v v') (name : Text) {s t : Store} (hst : Alike R s t) :
    Option.Rel R.Same (dataUnder s v name) (dataUnder t v' name) := by
  unfold dataUnder
  rw [hv.keyed?_eq]
  cases v'.keyed? with
  | none => exact .none
  | some target => exact hst.ownValue? target name

/-- Items are the same unless a mark that is on one side only meets a number, or names a method. -/
theorem follows_item (hv : R.Same v v') (hw : R.Same w w')
    (htarget : v = v' ∨ v.text? = none ∨ ∀ x, w ≠ .number x)
    (hkey : w = w' ∨ ∀ name, w.text? = some name → isReserved name = false) :
    Follows R (Eval.item v w) (Eval.item v' w') R.Same := by
  by_cases hundefined : ∃ r, v = .undefined r
  · obtain ⟨r, rfl⟩ := hundefined
    exact .throw
  have hdefined : ∀ r, v ≠ .undefined r := fun r hr => hundefined ⟨r, hr⟩
  by_cases hstrict : R.strict
  · exact follows_item_of_eq hv hw hdefined (.inl (hv.strict hstrict)) (.inl (hw.strict hstrict))
  have hequal : v = v' ∨ ∀ x, w ≠ .number x := by
    rcases htarget with h | h | h
    · exact .inl h
    · exact .inl (hv.eq_of_not_text h hdefined)
    · exact .inr h
  cases ht : w.text? with
  | none => exact follows_item_of_eq hv hw hdefined hequal (.inr ht)
  | some name =>
    rcases hkey with hkey | hkey
    · exact follows_item_of_eq hv hw hdefined hequal (.inl hkey)
    · intro s t hst a u hx
      obtain ⟨r, hitem⟩ := item_of_unreserved ht (hkey name ht) hdefined s
      obtain ⟨r', hitem'⟩ := item_of_unreserved (hw.text?_eq.symm.trans ht) (hkey name ht) (hv.defined hdefined) t
      rw [hitem] at hx
      cases hx
      have hmissing : R.Same (.undefined r) (.undefined r') := ⟨rfl, fun h => absurd h hstrict⟩
      exact .inl ⟨_, t, hitem', hst, rel_getD (follows_dataUnder hv name hst) hmissing⟩

/-! ## Slices -/

theorem follows_sliceBound (h : R.Same v w) : Follows R (Eval.sliceBound v) (Eval.sliceBound w) Eq := by
  rcases h.eq_or with rfl | ⟨t, hv, hw⟩ | ⟨r, r', rfl, rfl⟩
  · intro s t hst a u hx
    cases v with
    | none | absent =>
      cases hx
      exact .inl ⟨none, t, rfl, hst, rfl⟩
    | number x =>
      unfold Eval.sliceBound at hx ⊢
      dsimp only at hx ⊢
      cases hint : x.toInt? with
      | none =>
        rw [hint] at hx
        cases hx
      | some i =>
        rw [hint] at hx
        cases hx
        exact .inl ⟨some i, t, rfl, hst, rfl⟩
    | _ => cases hx
  · cases v with
    | text t | safe t => exact .throw
    | _ => cases hv
  · exact .throw

theorem flatMap_text_eq (hxs : List.Forall₂ R.Same xs ys) :
    (xs.flatMap fun c => (c.text?).getD []) = ys.flatMap fun c => (c.text?).getD [] := by
  induction hxs with
  | nil => rfl
  | cons hxy _ ih => rw [List.flatMap_cons, List.flatMap_cons, hxy.text?_eq, ih]

/-- Computations that refuse undefined values. -/
theorem follows_defined {α : Type} {Q : α → α → Prop} {x y : Eval α} {f g : Value → Eval α}
    (hx : x = match v with
      | .undefined reason => throw (.undefined reason)
      | v => f v)
    (hy : y = match w with
      | .undefined reason => throw (.undefined reason)
      | v => g v)
    (h : v = w) (hfg : Follows R (f v) (g w) Q) : Follows R x y Q := by
  rw [hx, hy]
  cases h
  cases v with
  | undefined reason => exact .throw
  | _ => exact hfg

theorem follows_slice_of_eq (v : Value) {start start' stop stop' step step' : Value} (hstart : R.Same start start')
    (hstop : R.Same stop stop') (hstep : R.Same step step') :
    Follows R (Eval.slice v start stop step) (Eval.slice v start' stop' step') R.Same := by
  refine follows_defined rfl rfl (Eq.refl v) ?_
  refine .get_bind fun s t hst => ?_
  rcases rel_cases (follows_sequence? v hst) with ⟨hx, hy⟩ | ⟨xs, ys, hx, hy, hxs⟩ <;> rw [hx, hy]
  · exact .throw
  · refine (follows_sliceBound hstep).bind_same fun step => ?_
    dsimp only
    by_cases hzero : step.getD 1 = 0
    · rw [if_pos hzero]
      exact .throw
    · rw [if_neg hzero, if_neg hzero]
      refine (follows_sliceBound hstart).bind_same fun start => (follows_sliceBound hstop).bind_same fun stop => ?_
      rw [hxs.length_eq]
      have hpicked := forall₂_pick hxs (fun i => i) (slicePositions ys.length start stop (step.getD 1))
      cases v with
      | text u =>
        rw [flatMap_text_eq hpicked]
        exact .pure (.refl _)
      | _ => exact follows_newList hpicked

theorem slice_safe (u : Text) (start stop step : Value) (s : Store) :
    Eval.slice (.safe u) start stop step s = .error (.notSliceable .text) s := rfl

/-- Slices are the same unless they are cut from a text that is marked on one side only; the second may stop there. -/
theorem follows_slice {start start' stop stop' step step' : Value} (hv : R.Same v v')
    (htarget : R.mayStop ∨ v = v' ∨ v.text? = none) (hstart : R.Same start start') (hstop : R.Same stop stop')
    (hstep : R.Same step step') :
    Follows R (Eval.slice v start stop step) (Eval.slice v' start' stop' step') R.Same := by
  by_cases hundefined : ∃ r, v = .undefined r
  · obtain ⟨r, rfl⟩ := hundefined
    exact .throw
  have hdefined : ∀ r, v ≠ .undefined r := fun r hr => hundefined ⟨r, hr⟩
  cases hv.form with
  | refl => exact follows_slice_of_eq v hstart hstop hstep
  | marked t =>
    rcases htarget with hmay | h | h
    · exact fun s t _ _ _ _ => .inr ⟨hmay, t, slice_safe _ _ _ _ t⟩
    · cases h
    · cases h
  | unmarked t =>
    intro s _ _ a u hx
    rw [slice_safe] at hx
    cases hx
  | undefined r r' => exact absurd rfl (hdefined r)

end Stencil.Marking
