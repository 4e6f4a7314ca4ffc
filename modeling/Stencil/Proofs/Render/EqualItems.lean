import Stencil.Proofs.Correspondence.Copy
import Stencil.Proofs.Render.Comparisons
import Stencil.Proofs.Render.Sizes
import Stencil.Proofs.Value.Equivalence

/-!
What is built on equality: looking for an item in a list, its position and its number, and keeping one item of each class
of equal ones. Equality is an equivalence, so none of it tells equal values apart.
-/
namespace Stencil

namespace Store

variable {s : Store} {v w x : Value} {items items' before kept : List Value}

/-! ## Looking for an item -/

/-- For each item, whether a value is equal to it. -/
def hits (s : Store) (v : Value) (items : List Value) : List Bool := items.map fun x => s.equal? x v == some true

theorem equal?_eq_some (hx : s.Regular x) (v : Value) : s.equal? x v = some (s.equal? x v == some true) := by
  obtain ⟨b, hb⟩ := exists_equal? hx v
  rw [hb]
  cases b <;> rfl

/-- Equal values are equal to the same items, and equal lists have equal items. -/
theorem hits_congr (hkeys : s.DistinctKeys) (hv : s.Regular v) (hw : s.Regular w) (hvw : s.Equal v w)
    (hitems : ∀ x ∈ items, s.Regular x) (hitems' : ∀ x ∈ items', s.Regular x) (h : List.Forall₂ s.Equal items items') :
    s.hits v items = s.hits w items' := by
  unfold hits
  induction h with
  | nil => rfl
  | cons hxy _ ih =>
    obtain ⟨hx, hitems⟩ := List.forall_mem_cons.mp hitems
    obtain ⟨hy, hitems'⟩ := List.forall_mem_cons.mp hitems'
    rw [List.map_cons, List.map_cons, equal?_congr hkeys hx hy hv hw hxy hvw, ih hitems hitems']

theorem positionsOf?_eq (hitems : ∀ x ∈ items, s.Regular x) :
    s.positionsOf? v items = some (((s.hits v items).zipIdx.filter (·.1)).map (·.2)) := by
  have hpairs : items.zipIdx.mapM (fun p => (s.equal? p.1 v).bind fun c => some (c, p.2)) = some (s.hits v items).zipIdx := by
    unfold hits
    rw [List.zipIdx_map]
    refine mapM_eq_some (List.forall₂_map_right_iff.mpr (List.forall₂_same.mpr fun p hp => ?_))
    rw [equal?_eq_some (hitems p.1 (List.fst_mem_of_mem_zipIdx hp)) v]
    rfl
  exact congrArg (·.bind fun hits => some ((hits.filter (·.1)).map (·.2))) hpairs

/-! ## One item of each class -/

/-- The values that have nothing equal before them, where `before` stands in front of the list. -/
def firsts (s : Store) (before : List Value) : List Value → List Value
  | [] => []
  | v :: rest => if before.any (s.equal? · v == some true) then s.firsts (before ++ [v]) rest
      else v :: s.firsts (before ++ [v]) rest

/-- The items that are kept so far stand for all items so far. -/
def StandsFor (s : Store) (kept before : List Value) : Prop :=
  ∀ x, s.Regular x → ((∃ y ∈ kept, s.Equal y x) ↔ ∃ y ∈ before, s.Equal y x)

theorem any_equal? (s : Store) (before : List Value) (v : Value) :
    before.any (s.equal? · v == some true) = true ↔ ∃ y ∈ before, s.Equal y v := by
  simp [Equal]

theorem anyM_equal? (hkept : ∀ x ∈ kept, s.Regular x) :
    (kept.anyM fun w => s.equal? w v) = some (kept.any (s.equal? · v == some true)) := by
  induction kept with
  | nil => rfl
  | cons x kept ih =>
    obtain ⟨hx, hkept⟩ := List.forall_mem_cons.mp hkept
    rw [List.anyM, equal?_eq_some hx v, List.any_cons, ih hkept]
    cases s.equal? x v == some true <;> rfl

theorem exists_concat (y : Value) (before : List Value) (x : Value) :
    (∃ z ∈ before ++ [y], s.Equal z x) ↔ (∃ z ∈ before, s.Equal z x) ∨ s.Equal y x := by
  simp [or_and_right, exists_or]

/-- An item that is equal to one that is kept is stood for already. -/
theorem StandsFor.known (hkeys : s.DistinctKeys) (h : s.StandsFor kept before) (hkept : ∀ x ∈ kept, s.Regular x)
    (hv : s.Regular v) (hknown : ∃ y ∈ kept, s.Equal y v) : s.StandsFor kept (before ++ [v]) := by
  intro x hx
  rw [exists_concat, ← h x hx]
  refine ⟨.inl, fun hx' => hx'.elim id fun hvx => ?_⟩
  obtain ⟨y, hy, hyv⟩ := hknown
  exact ⟨y, hy, hyv.trans hkeys (hkept y hy) hv hx hvx⟩

theorem StandsFor.concat (h : s.StandsFor kept before) (v : Value) : s.StandsFor (kept ++ [v]) (before ++ [v]) := by
  intro x hx
  rw [exists_concat, exists_concat, h x hx]

/-- An item is compared with the items that are kept only. These stand for all before it, so it is kept where nothing
equal comes before. -/
theorem foldlM_unique (hkeys : s.DistinctKeys) (hitems : ∀ x ∈ items, s.Regular x) (hkept : ∀ x ∈ kept, s.Regular x)
    (hstands : s.StandsFor kept before) :
    (items.foldlM (fun (seen : List Value) v => do
      let known ← seen.anyM fun w => s.equal? w v
      return if known then seen else seen ++ [v]) kept) = some (kept ++ s.firsts before items) := by
  induction items generalizing before kept with
  | nil => simp [firsts]
  | cons v rest ih =>
    obtain ⟨hv, hrest⟩ := List.forall_mem_cons.mp hitems
    have hsame : kept.any (s.equal? · v == some true) = before.any (s.equal? · v == some true) := by
      rw [Bool.eq_iff_iff, any_equal?, any_equal?, hstands v hv]
    rw [List.foldlM_cons, anyM_equal? hkept, hsame, firsts]
    cases hknown : before.any (s.equal? · v == some true) with
    | true =>
      have hequal : ∃ y ∈ kept, s.Equal y v := (hstands v hv).mpr ((any_equal? s before v).mp hknown)
      exact ih hrest hkept (hstands.known hkeys hkept hv hequal)
    | false =>
      have hkept' : ∀ x ∈ kept ++ [v], s.Regular x :=
        List.forall_mem_append.mpr ⟨hkept, List.forall_mem_singleton.mpr hv⟩
      have hrest := ih hrest hkept' (hstands.concat v)
      rw [List.append_assoc, List.singleton_append] at hrest
      exact hrest

theorem unique?_eq (hkeys : s.DistinctKeys) (hitems : ∀ x ∈ items, s.Regular x) :
    s.unique? items = some (s.firsts [] items) :=
  foldlM_unique hkeys hitems (List.forall_mem_nil _) fun _ _ => Iff.rfl

theorem firsts_sublist (s : Store) (before items : List Value) : (s.firsts before items).Sublist items := by
  induction items generalizing before with
  | nil => exact .slnil
  | cons v rest ih =>
    unfold firsts
    split
    · exact (ih _).cons v
    · exact (ih _).cons_cons v

theorem not_equal_of_mem_firsts (hx : x ∈ s.firsts before items) : ∀ y ∈ before, ¬ s.Equal y x := by
  induction items generalizing before with
  | nil => cases hx
  | cons v rest ih =>
    unfold firsts at hx
    split at hx
    · exact fun y hy => ih hx y (List.mem_append_left _ hy)
    · rename_i hnew
      obtain rfl | hx := List.mem_cons.mp hx
      · exact fun y hy hyx => hnew ((any_equal? s before x).mpr ⟨y, hy, hyx⟩)
      · exact fun y hy => ih hx y (List.mem_append_left _ hy)

theorem firsts_pairwise (s : Store) (before items : List Value) :
    (s.firsts before items).Pairwise fun x y => ¬ s.Equal x y := by
  induction items generalizing before with
  | nil => exact .nil
  | cons v rest ih =>
    unfold firsts
    split
    · exact ih _
    · refine .cons (fun x hx => ?_) (ih _)
      exact not_equal_of_mem_firsts hx v (List.mem_append_right _ (List.mem_singleton_self v))

/-- An item that is left out has an equal one in front of it. -/
theorem exists_equal_of_mem (hkeys : s.DistinctKeys) (hitems : ∀ x ∈ items, s.Regular x) (hbefore : ∀ x ∈ before, s.Regular x)
    (hx : x ∈ items) : (∃ y ∈ before, s.Equal y x) ∨ ∃ y ∈ s.firsts before items, s.Equal y x := by
  induction items generalizing before with
  | nil => cases hx
  | cons v rest ih =>
    obtain ⟨hv, hrest⟩ := List.forall_mem_cons.mp hitems
    have hbefore' : ∀ x ∈ before ++ [v], s.Regular x :=
      List.forall_mem_append.mpr ⟨hbefore, List.forall_mem_singleton.mpr hv⟩
    unfold firsts
    split
    · rename_i hknown
      obtain ⟨y, hy, hyv⟩ := (any_equal? s before v).mp hknown
      obtain rfl | hx := List.mem_cons.mp hx
      · exact .inl ⟨y, hy, hyv⟩
      · obtain h | h := ih hrest hbefore' hx
        · refine .inl (((exists_concat v before x).mp h).elim id fun hvx => ?_)
          exact ⟨y, hy, hyv.trans hkeys (hbefore y hy) hv (hrest x hx) hvx⟩
        · exact .inr h
    · obtain rfl | hx := List.mem_cons.mp hx
      · exact .inr ⟨x, List.mem_cons_self, .refl hkeys hv⟩
      · obtain h | ⟨y, hy, hyx⟩ := ih hrest hbefore' hx
        · exact ((exists_concat v before x).mp h).imp id fun hvx => ⟨v, List.mem_cons_self, hvx⟩
        · exact .inr ⟨y, List.mem_cons_of_mem v hy, hyx⟩

/-! ## Values of templates -/

theorem Regular.of_mem_items (h : s.Regular v) (hitems : s.items? v = some items) : ∀ x ∈ items, s.Regular x := by
  have htexts (ts : List Text) : ∀ x ∈ ts.map Value.text, s.Regular x := by
    intro x hx
    obtain ⟨t, -, rfl⟩ := List.mem_map.mp hx
    exact .scalar rfl fun h => nomatch h
  cases v with
  | undefined reason =>
    cases hitems
    exact List.forall_mem_nil _
  | list id =>
    cases hitems
    exact fun x hx => h.part hx
  | text t | safe t =>
    cases hitems
    exact htexts _
  | mapping id | table id =>
    cases hitems
    intro x hx
    obtain ⟨p, -, rfl⟩ := List.mem_map.mp hx
    exact .scalar rfl fun h => nomatch h
  | _ => cases hitems

/-- What does not contain itself has a text. -/
theorem Regular.repr?_eq (h : s.Regular v) : ∃ t, s.repr? v = some t := by
  refine Option.isSome_iff_exists.mp ?_
  change s.Nests s.depth v
  induction h.acc with
  | intro v _ ih =>
    refine nests_of_depth_le (n := s.depth + 1) ?_ (Nat.le_succ _)
    cases v with
    | list id => exact nests_list.mpr fun x hx => ih x hx (h.part hx)
    | mapping id => exact nests_mapping.mpr fun p hp => ih p.2 (List.mem_map_of_mem hp) (h.part (List.mem_map_of_mem hp))
    | table id =>
      refine nests_table.mpr fun e he => ?_
      have hpart : s.PartOf e.2 (.table id) := List.mem_map.mpr ⟨_, List.mem_map_of_mem he, rfl⟩
      exact ih e.2 hpart (h.part hpart)
    | _ => rfl

end Store

namespace Eval

variable {features : Features} {depth : Nat} {s : Store} {v w : Value} {i j : ListId} {a b : Arguments} {c : Bool}
  {items : List Value}

theorem compare_equal (h : s.equal? v w = some c) : compare .equal v w s = .ok c s := readDeep_eq h

theorem compare_notEqual (h : s.equal? v w = some c) : compare .notEqual v w s = .ok (!c) s := bind_ok (readDeep_eq h)

theorem holds_equal : Holds s .equal v w ↔ s.Equal v w := by
  unfold Holds Store.Equal
  cases h : s.equal? v w with
  | none =>
    have hrun : compare .equal v w s = .error .tooDeep s := readDeep_none h
    rw [hrun]
    exact ⟨fun h => (nomatch h), fun h => (nomatch h)⟩
  | some c =>
    rw [compare_equal h]
    simp

theorem anyM_equal (hitems : ∀ x ∈ items, s.Regular x) : items.anyM (equal · v) s = .ok ((s.hits v items).any id) s := by
  induction items with
  | nil => rfl
  | cons x items ih =>
    obtain ⟨hx, hitems⟩ := List.forall_mem_cons.mp hitems
    have hequal : equal x v s = .ok (s.equal? x v == some true) s := readDeep_eq (Store.equal?_eq_some hx v)
    have hhits : (s.hits v (x :: items)).any id = (s.equal? x v == some true || (s.hits v items).any id) := rfl
    rw [List.anyM, bind_ok hequal, hhits]
    cases s.equal? x v == some true with
    | true => rfl
    | false => exact ih hitems

theorem compare_isIn (hitems : ∀ x ∈ s.list i, s.Regular x) :
    compare .isIn v (.list i) s = .ok ((s.hits v (s.list i)).any id) s :=
  anyM_equal hitems

theorem compare_isNotIn (hitems : ∀ x ∈ s.list i, s.Regular x) :
    compare .isNotIn v (.list i) s = .ok (!(s.hits v (s.list i)).any id) s :=
  bind_ok (compare_isIn hitems)

/-- The places where a list holds true. -/
def places (hits : List Bool) : List Nat := (hits.zipIdx.filter (·.1)).map (·.2)

/-- A look-up of a method counts a function. -/
def counted (s : Store) : Store := { s with serial := s.serial + 1 }

theorem recounted_counted (s : Store) : s.Recounted (counted s) := ⟨_, rfl⟩

theorem readDeep_positionsOf? (hitems : ∀ x ∈ s.list i, s.Regular x) :
    readDeep (·.positionsOf? v (s.list i)) (counted s) = .ok (places (s.hits v (s.list i))) (counted s) := by
  refine readDeep_eq ?_
  rw [(recounted_counted s).positionsOf?_eq]
  exact Store.positionsOf?_eq hitems

theorem repr_counted {name : Text} (h : s.repr? v = some name) : repr v (counted s) = .ok name (counted s) := by
  refine readDeep_eq ?_
  rw [(recounted_counted s).repr?_eq]
  exact h

theorem callMember_count (hitems : ∀ x ∈ s.list i, s.Regular x) :
    callMember features (depth + 1) (.list i) "count" a s =
      .ok (.ofNat (places (s.hits (a.nth 0) (s.list i))).length) (counted s) := by
  have hread : (read (·.list i) : Eval (List Value)) (counted s) = .ok (s.list i) (counted s) := rfl
  refine (callMember_list .count a).trans ?_
  change callList .count i a (counted s) = _
  unfold callList
  dsimp only
  rw [bind_ok hread, bind_ok (readDeep_positionsOf? hitems)]
  rfl

/-- The first place is the answer; where there is none, the refusal names the value. -/
theorem callMember_index (hitems : ∀ x ∈ s.list i, s.Regular x) :
    callMember features (depth + 1) (.list i) "index" a s =
      (places (s.hits (a.nth 0) (s.list i))).head?.elim
        (repr (a.nth 0) >>= fun t => throw (.notInList t)) (fun n => pure (.ofNat n)) (counted s) := by
  have hread : (read (·.list i) : Eval (List Value)) (counted s) = .ok (s.list i) (counted s) := rfl
  refine (callMember_list .index a).trans ?_
  change callList .index i a (counted s) = _
  unfold callList
  dsimp only
  rw [bind_ok hread, bind_ok (readDeep_positionsOf? hitems)]
  cases places (s.hits (a.nth 0) (s.list i)) <;> rfl

/-- Two values that nothing built on equality tells apart, whatever equal values or equal lists they are held against.
Where neither is in a list, each is named in the refusal. (A keyed container is asked for the text of a value, which is
not a matter of equality.) -/
structure Interchangeable (features : Features) (depth : Nat) (s : Store) (v w : Value) : Prop where
  equal (x y : Value) (hx : s.Regular x) (hy : s.Regular y) (hxy : Holds s .equal x y) :
    compare .equal v x s = compare .equal w y s ∧ compare .equal x v s = compare .equal y w s
  isIn (i j : ListId) (hi : s.Regular (.list i)) (hj : s.Regular (.list j)) (hij : Holds s .equal (.list i) (.list j)) :
    compare .isIn v (.list i) s = compare .isIn w (.list j) s ∧
      compare .isNotIn v (.list i) s = compare .isNotIn w (.list j) s
  count (i j : ListId) (hi : s.Regular (.list i)) (hj : s.Regular (.list j)) (hij : Holds s .equal (.list i) (.list j))
    (a b : Arguments) (ha : a.nth 0 = v) (hb : b.nth 0 = w) :
    callMember features (depth + 1) (.list i) "count" a s = callMember features (depth + 1) (.list j) "count" b s
  index (i j : ListId) (hi : s.Regular (.list i)) (hj : s.Regular (.list j)) (hij : Holds s .equal (.list i) (.list j))
    (a b : Arguments) (ha : a.nth 0 = v) (hb : b.nth 0 = w) :
    (∃ n t, callMember features (depth + 1) (.list i) "index" a s = .ok (.ofNat n) t ∧
      callMember features (depth + 1) (.list j) "index" b s = .ok (.ofNat n) t) ∨
    ∃ name name' t, s.repr? v = some name ∧ s.repr? w = some name' ∧
      callMember features (depth + 1) (.list i) "index" a s = .error (.notInList name) t ∧
      callMember features (depth + 1) (.list j) "index" b s = .error (.notInList name') t

theorem interchangeable (hkeys : s.DistinctKeys) (hv : s.Regular v) (hw : s.Regular w) (hvw : Holds s .equal v w) :
    Interchangeable features depth s v w := by
  have hvw := holds_equal.mp hvw
  have hhits (i j : ListId) (hi : s.Regular (.list i)) (hj : s.Regular (.list j))
      (hij : Holds s .equal (.list i) (.list j)) : s.hits v (s.list i) = s.hits w (s.list j) :=
    Store.hits_congr hkeys hv hw hvw (fun x hx => hi.part hx) (fun x hx => hj.part hx)
      ((Store.equal_list hkeys hi hj).mp (holds_equal.mp hij))
  refine ⟨fun x y hx hy hxy => ?_, fun i j hi hj hij => ?_, fun i j hi hj hij a b ha hb => ?_,
    fun i j hi hj hij a b ha hb => ?_⟩
  · have hxy := holds_equal.mp hxy
    obtain ⟨c, hc⟩ := Store.exists_equal? hv x
    obtain ⟨d, hd⟩ := Store.exists_equal? hx v
    rw [compare_equal hc, compare_equal hd, compare_equal ((Store.equal?_congr hkeys hv hw hx hy hvw hxy).symm.trans hc),
      compare_equal ((Store.equal?_congr hkeys hx hy hv hw hxy hvw).symm.trans hd)]
    exact ⟨rfl, rfl⟩
  · rw [compare_isIn fun x hx => hi.part hx, compare_isIn fun x hx => hj.part hx,
      compare_isNotIn fun x hx => hi.part hx, compare_isNotIn fun x hx => hj.part hx, hhits i j hi hj hij]
    exact ⟨rfl, rfl⟩
  · rw [callMember_count fun x hx => hi.part hx, callMember_count fun x hx => hj.part hx, ha, hb, hhits i j hi hj hij]
  · rw [callMember_index fun x hx => hi.part hx, callMember_index fun x hx => hj.part hx, ha, hb, hhits i j hi hj hij]
    cases places (s.hits w (s.list j)) with
    | nil =>
      obtain ⟨name, hname⟩ := hv.repr?_eq
      obtain ⟨name', hname'⟩ := hw.repr?_eq
      exact .inr ⟨name, name', counted s, hname, hname', bind_ok (repr_counted hname), bind_ok (repr_counted hname')⟩
    | cons n more => exact .inl ⟨n, counted s, rfl, rfl⟩

/-- The first of each class of equal items, in their order. -/
structure FirstOfEach (s : Store) (items kept : List Value) : Prop where
  firsts : kept = s.firsts [] items
  inOrder : kept.Sublist items
  distinct : kept.Pairwise fun x y => ¬ Holds s .equal x y
  complete : ∀ x ∈ items, ∃ y ∈ kept, Holds s .equal y x

theorem firstOfEach (hkeys : s.DistinctKeys) (hitems : ∀ x ∈ items, s.Regular x) :
    FirstOfEach s items (s.firsts [] items) := by
  refine ⟨rfl, s.firsts_sublist [] items, ?_, fun x hx => ?_⟩
  · simp only [holds_equal]
    exact s.firsts_pairwise [] items
  · obtain ⟨y, hy, -⟩ | ⟨y, hy, hyx⟩ := Store.exists_equal_of_mem hkeys hitems (List.forall_mem_nil _) hx
    · cases hy
    · exact ⟨y, hy, holds_equal.mpr hyx⟩

theorem applyFilter_unique (hkeys : s.DistinctKeys) (hv : s.Regular v) (hitems : s.items? v = some items)
    (a : Arguments) : applyFilter .unique v a s = newList (s.firsts [] items) s := by
  unfold applyFilter
  dsimp only
  rw [bind_ok (items_eq hitems), bind_ok (readDeep_eq (Store.unique?_eq hkeys (hv.of_mem_items hitems)))]

/-- Equality is an equivalence of values that contain neither themselves nor NaN, whatever their texts are marked as,
whichever kind of keyed container they are and in whatever order their keys are. What looks for an item goes by its class,
and of each class the first item is kept. -/
theorem equality_lawful (features : Features) (depth : Nat) (hkeys : s.DistinctKeys) :
    (∀ v w, s.Regular v → s.Regular w →
      ∃ c, compare .equal v w s = .ok c s ∧ compare .notEqual v w s = .ok (!c) s) ∧
    (∀ v, s.Regular v → Holds s .equal v v) ∧
    (∀ v w, s.Regular v → s.Regular w → Holds s .equal v w → Holds s .equal w v) ∧
    (∀ v w x, s.Regular v → s.Regular w → s.Regular x → Holds s .equal v w → Holds s .equal w x → Holds s .equal v x) ∧
    (∀ v w, s.Regular v → s.Regular w → Holds s .equal v w → Interchangeable features depth s v w) ∧
    ∀ v items a, s.Regular v → s.items? v = some items →
      ∃ kept, applyFilter .unique v a s = newList kept s ∧ FirstOfEach s items kept := by
  simp only [holds_equal]
  refine ⟨fun v w hv _ => ?_, fun v hv => .refl hkeys hv, fun v w hv hw h => h.symm hkeys hv hw,
    fun v w x hv hw hx h h' => h.trans hkeys hv hw hx h', fun v w hv hw h => ?_, fun v items a hv hitems => ?_⟩
  · obtain ⟨c, hc⟩ := Store.exists_equal? hv w
    exact ⟨c, compare_equal hc, compare_notEqual hc⟩
  · exact interchangeable hkeys hv hw (holds_equal.mpr h)
  · exact ⟨_, applyFilter_unique hkeys hv hitems a, firstOfEach hkeys (hv.of_mem_items hitems)⟩

/-- A mapping and a table with the same entries in another order: what is found for the one is found for the other, and
of the two in a list the first is kept. -/
theorem equality_lawful_of_entries :
    let s : Store := { Store.empty with
      lists := #[[.number 1], [.number 1], [.mapping 0, .table 0, .none]]
      mappings := #[[("a", .data (.safe "x")), ("b", .data (.list 0))]]
      tables := #[[(.text "b", .list 1), (.text "a", .text "x")]] }
    s.DistinctKeys ∧ s.Regular (.mapping 0) ∧ s.Regular (.table 0) ∧ s.Regular (.list 2) ∧
      Holds s .equal (.mapping 0) (.table 0) ∧ Holds s .equal (.table 0) (.mapping 0) ∧
      compare .isIn (.mapping 0) (.list 2) s = compare .isIn (.table 0) (.list 2) s ∧
      applyFilter .unique (.list 2) ⟨[], []⟩ s = newList [.mapping 0, .none] s := by
  intro s
  have hkeys : s.DistinctKeys := by
    refine ⟨fun id => ?_, fun id => ?_⟩
    · cases id with
      | zero => decide
      | succ id => exact .nil
    · cases id with
      | zero => decide
      | succ id => exact .nil
  have hnone : s.Regular .none := .scalar rfl fun h => nomatch h
  have hplain : s.Regular (.text "x") := .scalar rfl fun h => nomatch h
  have hsafe : s.Regular (.safe "x") := .scalar rfl fun h => nomatch h
  have hnumber : ∀ w ∈ [Value.number 1], s.Regular w := List.forall_mem_singleton.mpr (.scalar rfl (by decide +kernel))
  have hfirst : s.Regular (.list 0) := .of_parts hnumber (fun _ h => nomatch h) fun _ h => nomatch h
  have hsecond : s.Regular (.list 1) := .of_parts hnumber (fun _ h => nomatch h) fun _ h => nomatch h
  have hmapping : s.Regular (.mapping 0) := by
    have hparts : ∀ w ∈ [Value.safe "x", .list 0], s.Regular w :=
      List.forall_mem_cons.mpr ⟨hsafe, List.forall_mem_singleton.mpr hfirst⟩
    exact .of_parts hparts (fun _ h => nomatch h) fun _ h => nomatch h
  have htable : s.Regular (.table 0) := by
    have hparts : ∀ w ∈ [Value.list 1, .text "x"], s.Regular w :=
      List.forall_mem_cons.mpr ⟨hsecond, List.forall_mem_singleton.mpr hplain⟩
    refine .of_parts hparts (fun _ h => nomatch h) fun id h => ?_
    cases h
    exact List.forall_mem_cons.mpr ⟨⟨"b", rfl⟩, List.forall_mem_singleton.mpr ⟨"a", rfl⟩⟩
  have hlist : s.Regular (.list 2) := by
    have hparts : ∀ w ∈ [Value.mapping 0, .table 0, .none], s.Regular w :=
      List.forall_mem_cons.mpr ⟨hmapping, List.forall_mem_cons.mpr ⟨htable, List.forall_mem_singleton.mpr hnone⟩⟩
    exact .of_parts hparts (fun _ h => nomatch h) fun _ h => nomatch h
  have hequal : s.equal? (.mapping 0) (.table 0) = some true := by decide +kernel
  have hholds : Holds s .equal (.mapping 0) (.table 0) := compare_equal hequal
  have hfirsts : s.firsts [] [.mapping 0, .table 0, .none] = [.mapping 0, .none] := by decide +kernel
  obtain ⟨-, -, hsymm, -, hchange, hunique⟩ := equality_lawful ⟨false, [], []⟩ 0 hkeys
  obtain ⟨kept, hkept, heq, -⟩ := hunique (.list 2) [.mapping 0, .table 0, .none] ⟨[], []⟩ hlist rfl
  refine ⟨hkeys, hmapping, htable, hlist, hholds, hsymm _ _ hmapping htable hholds, ?_, ?_⟩
  · exact ((hchange _ _ hmapping htable hholds).isIn 2 2 hlist hlist (compare_equal (by decide +kernel))).1
  · rw [hkept, heq, hfirsts]

end Eval
end Stencil
