import Stencil.Proofs.Number.Integers
import Stencil.Proofs.Running
import Stencil.Render.Environment

/-!
Methods that are called on a value, and what the `pop` of a list takes: for each integer that picks an item, the item
that it picks. The place is counted in integers where an item is read, and in numbers where one is taken.
-/
namespace Stencil.Eval

variable {features : Features} {depth n : Nat} {s : Store} {id : ListId} {x y : Number} {i j : Int}
  {items front back : List Value} {v : Value}

/-- A method of a value, called with arguments. -/
def callMember (features : Features) (depth : Nat) (v : Value) (name : Text) (a : Arguments) : Eval Value := do
  call features depth (← member v name) a

/-! ## Places -/

/-- The place of the item that an integer picks, from the start or from the end. -/
def placeOf (n : Nat) (i : Int) : Nat := (if i < 0 then n + i else i).toNat

/-- An integer picks an item. -/
structure Picks (n : Nat) (i : Int) : Prop where
  low : -(n : Int) ≤ i
  high : i < n

theorem Picks.place (h : Picks n i) : (placeOf n i : Int) = if i < 0 then n + i else i := by
  obtain ⟨hlow, hhigh⟩ := h
  unfold placeOf
  by_cases hneg : i < 0
  · rw [if_pos hneg]
    omega
  · rw [if_neg hneg]
    omega

theorem Picks.place_lt (h : Picks n i) : placeOf n i < n := by
  have hplace := h.place
  obtain ⟨hlow, hhigh⟩ := h
  by_cases hneg : i < 0
  · rw [if_pos hneg] at hplace
    omega
  · rw [if_neg hneg] at hplace
    omega

theorem at?_eq (h : Picks items.length i) : at? items i = items[placeOf items.length i]? := by
  have hplace := h.place
  exact if_pos (by omega)

/-- The place that is counted in numbers is the one that is counted in integers. -/
theorem position_eq (h : Picks n i) (hn : n < 2 ^ 53) (hx : x.toInt? = some i) :
    (if x.lt 0 then Number.ofNat n + x else x).position n = placeOf n i := by
  have hlt := h.place_lt
  obtain ⟨hlow, hhigh⟩ := h
  unfold placeOf at hlt ⊢
  rw [Number.lt_zero_of_toInt? hx]
  by_cases hneg : i < 0
  · rw [if_pos hneg] at hlt ⊢
    have hsum : (Number.ofNat n + x).toInt? = some (n + i) :=
      Number.toInt?_add (Number.toInt?_ofNat hn) hx (by omega)
    rw [if_pos (decide_eq_true hneg), Number.position_of_toInt? hsum (by omega)]
    omega
  · rw [if_neg hneg] at hlt ⊢
    rw [if_neg (by simpa using hneg), Number.position_of_toInt? hx (by omega)]
    omega

/-! ## Reading and taking -/

theorem item_list (hx : x.toInt? = some i) :
    item (.list id) (.number x) s = .ok ((at? (s.list id) i).getD (.undefined (.index .list x))) s := by
  have hpicked : picked? (.list id) (.number x) s = .ok (some (x, i, s.list id)) s := by
    change EStateM.Result.ok (x.toInt?.bind fun i => (sequence? s (.list id)).map (x, i, ·)) s = _
    rw [hx]
    rfl
  unfold item
  dsimp only
  rw [bind_ok hpicked]
  rfl

/-- The item at a place is taken, and the list is left without it. -/
theorem popAt_eq (x : Number) : popAt id x s =
    let place := (if x.lt 0 then Number.ofNat (s.list id).length + x else x).position (s.list id).length
    .ok ((s.list id)[place]?.getD .absent) (s.setList id ((s.list id).eraseIdx place)) := rfl

theorem popAt_of_picks (hpicks : Picks (s.list id).length i) (hlength : (s.list id).length < 2 ^ 53)
    (hx : x.toInt? = some i) : popAt id x s =
      .ok ((s.list id)[placeOf (s.list id).length i]?.getD .absent)
        (s.setList id ((s.list id).eraseIdx (placeOf (s.list id).length i))) := by
  rw [popAt_eq]
  dsimp only
  rw [position_eq hpicks hlength hx]

theorem popAt_of_split (hpicks : Picks (s.list id).length i) (hlength : (s.list id).length < 2 ^ 53)
    (hx : x.toInt? = some i) (hitems : s.list id = front ++ v :: back)
    (hfront : front.length = placeOf (s.list id).length i) :
    popAt id x s = .ok v (s.setList id (front ++ back)) := by
  rw [popAt_of_picks hpicks hlength hx, ← hfront, hitems, List.eraseIdx_append_of_length_le (Nat.le_refl _)]
  simp

theorem setList_self (s : Store) (id : ListId) : s.setList id (s.list id) = s := by
  by_cases hid : id < s.lists.size
  · simp [Store.setList, Store.list, Array.setIfInBounds, hid]
  · simp [Store.setList, Array.setIfInBounds, hid]

theorem list_setList (h : s.list id ≠ []) (items : List Value) : (s.setList id items).list id = items := by
  have hid : id < s.lists.size := by
    by_contra hout
    apply h
    simp [Store.list, Array.getElem?_eq_none (Nat.le_of_not_lt hout)]
  simp [Store.list, Store.setList, hid]

/-- Nothing is taken behind the last item. -/
theorem popAt_of_le (hx : x.toInt? = some i) (h : (s.list id).length ≤ i) : popAt id x s = .ok .absent s := by
  have hstart : ¬ i < 0 := by omega
  have hplace : x.position (s.list id).length = (s.list id).length := by
    rw [Number.position_of_toInt? hx (by omega)]
    omega
  rw [popAt_eq]
  dsimp only
  rw [Number.lt_zero_of_toInt? hx, if_neg (by simpa using hstart), hplace,
    List.eraseIdx_of_length_le (Nat.le_refl _), setList_self, List.getElem?_eq_none (Nat.le_refl _)]
  rfl

/-! ## Calls -/

theorem callList_pop_nil (a : Arguments) (h : s.list id = []) : callList .pop id a s = .error .popEmpty s := by
  have hlength : (s.list id).length = 0 := List.length_eq_zero_iff.mpr h
  change (if (s.list id).length = 0 then throw .popEmpty >>= _ else _ : Eval Value) s = _
  rw [if_pos hlength]
  rfl

theorem callList_pop_number (x : Number) (h : s.list id ≠ []) :
    callList .pop id ⟨[.number x], []⟩ s = popAt id x s := by
  have hlength : (s.list id).length ≠ 0 := fun hzero => h (List.length_eq_zero_iff.mp hzero)
  change (if (s.list id).length = 0 then throw .popEmpty >>= _ else _ : Eval Value) s = _
  rw [if_neg hlength]

theorem callList_pop_last (h : s.list id ≠ []) :
    callList .pop id ⟨[], []⟩ s = popAt id (.ofNat ((s.list id).length - 1)) s := by
  have hlength : (s.list id).length ≠ 0 := fun hzero => h (List.length_eq_zero_iff.mp hzero)
  change (if (s.list id).length = 0 then throw .popEmpty >>= _ else _ : Eval Value) s = _
  rw [if_neg hlength]

/-- The last item is the one that minus one picks. -/
theorem callList_pop_last_eq (hlength : (s.list id).length < 2 ^ 53) (hx : x.toInt? = some (-1)) :
    callList .pop id ⟨[], []⟩ s = callList .pop id ⟨[.number x], []⟩ s := by
  by_cases hnil : s.list id = []
  · rw [callList_pop_nil _ hnil, callList_pop_nil _ hnil]
  · have hpos : 0 < (s.list id).length := List.length_pos_iff.mpr hnil
    have hend : (Number.ofNat ((s.list id).length - 1)).toInt? = some (((s.list id).length - 1 : Nat) : Int) :=
      Number.toInt?_ofNat (by omega)
    have hfirst : Picks (s.list id).length (((s.list id).length - 1 : Nat) : Int) := ⟨by omega, by omega⟩
    have hlast : Picks (s.list id).length (-1) := ⟨by omega, by omega⟩
    have hplace : placeOf (s.list id).length (((s.list id).length - 1 : Nat) : Int) =
        placeOf (s.list id).length (-1) := by
      have hplace := hfirst.place
      have hplace' := hlast.place
      rw [if_neg (by omega)] at hplace
      rw [if_pos (by omega)] at hplace'
      omega
    rw [callList_pop_last hnil, callList_pop_number x hnil, popAt_of_picks hfirst hlength hend,
      popAt_of_picks hlast hlength hx, hplace]

/-- A method is a new function each time it is looked up. -/
theorem callMember_native {name : Text} {f : Native} (a : Arguments)
    (h : member v name s = .ok (.native s.serial f) { s with serial := s.serial + 1 }) :
    callMember features (depth + 1) v name a s = callNative f a { s with serial := s.serial + 1 } := by
  unfold callMember
  rw [bind_ok h]
  unfold call
  rfl

theorem callMember_list (m : ListMethod) (a : Arguments) :
    callMember features (depth + 1) (.list id) (Text.ofString m.name) a s =
      callList m id a { s with serial := s.serial + 1 } := by
  have hmember : member (.list id) (Text.ofString m.name) s =
      .ok (.native s.serial (.list m id)) { s with serial := s.serial + 1 } := by
    cases m <;> rfl
  exact callMember_native a hmember

theorem callMember_pop (a : Arguments) : callMember features (depth + 1) (.list id) "pop" a s =
    callList .pop id a { s with serial := s.serial + 1 } :=
  callMember_list .pop a

/-- What `pop` takes agrees with what an index reads. An integer that picks an item takes that item out, and all others
stay in their order; without an integer the last item is taken. Nothing can be taken from an empty list, and behind the
last item there is nothing to take. -/
theorem pop_agrees (features : Features) (depth : Nat) (hlength : (s.list id).length < 2 ^ 53)
    (hx : x.toInt? = some i) :
    let items := s.list id
    let looked := { s with serial := s.serial + 1 }
    let popped := fun args => callMember features (depth + 1) (.list id) "pop" ⟨args, []⟩ s
    (-(items.length : Int) ≤ i → i < items.length → ∃ front v back, items = front ++ v :: back ∧
      (front.length : Int) = (if i < 0 then items.length + i else i) ∧
      item (.list id) (.number x) s = .ok v s ∧
      popped [.number x] = .ok v (looked.setList id (front ++ back)) ∧
      (looked.setList id (front ++ back)).list id = front ++ back) ∧
    (items = [] → popped [.number x] = .error .popEmpty looked ∧ popped [] = .error .popEmpty looked) ∧
    (items ≠ [] → items.length ≤ i → popped [.number x] = .ok .absent looked) ∧
    (i = -1 → popped [] = popped [.number x]) := by
  intro items looked popped
  have hnumber : items ≠ [] → popped [.number x] = popAt id x looked := fun hne =>
    (callMember_pop _).trans (callList_pop_number (s := looked) x hne)
  have hempty : items = [] → ∀ args, popped args = .error .popEmpty looked := fun hnil args =>
    (callMember_pop _).trans (callList_pop_nil (s := looked) _ hnil)
  refine ⟨fun hlow hhigh => ?_, fun hnil => ⟨hempty hnil _, hempty hnil _⟩, fun hne hbeyond => ?_, fun hlast => ?_⟩
  · have hpicks : Picks items.length i := ⟨hlow, hhigh⟩
    have hplace := hpicks.place_lt
    have hne : items ≠ [] := List.ne_nil_of_length_pos (by omega)
    obtain ⟨front, v, back, hsplit, hfront⟩ : ∃ front v back, items = front ++ v :: back ∧
        front.length = placeOf items.length i :=
      ⟨_, items[placeOf items.length i], _, by rw [List.getElem_cons_drop, List.take_append_drop],
        List.length_take_of_le (Nat.le_of_lt hplace)⟩
    refine ⟨front, v, back, hsplit, ?_, ?_, ?_, list_setList (s := looked) hne _⟩
    · rw [hfront]
      exact hpicks.place
    · rw [item_list hx, at?_eq hpicks]
      rw [← hfront, hsplit]
      simp
    · exact (hnumber hne).trans (popAt_of_split (s := looked) hpicks hlength hx hsplit hfront)
  · exact (hnumber hne).trans (popAt_of_le (s := looked) hx hbeyond)
  · rw [hlast] at hx
    exact (callMember_pop _).trans
      ((callList_pop_last_eq (s := looked) hlength hx).trans (callMember_pop _).symm)

/-- A store with a list of three texts. -/
def threeTexts : Store := { Store.empty with lists := #[[.text "a", .text "b", .text "c"]] }

/-- The second item of three, counted from the end. -/
theorem pop_agrees_of_three :
    (threeTexts.list 0).length < 2 ^ 53 ∧ (-2 : Number).toInt? = some (-2) ∧
      item (.list 0) (.number (-2)) threeTexts = .ok (.text "b") threeTexts ∧
      callMember ⟨false, [], []⟩ 1 (.list 0) "pop" ⟨[.number (-2)], []⟩ threeTexts =
        .ok (.text "b") { Store.empty with lists := #[[.text "a", .text "c"]], serial := 1 } := by
  have hlength : (threeTexts.list 0).length < 2 ^ 53 := by decide
  have hx : (-2 : Number).toInt? = some (-2) := by decide +kernel
  obtain ⟨hpicked, -⟩ := pop_agrees ⟨false, [], []⟩ 0 hlength hx
  obtain ⟨front, v, back, hsplit, hfront, hitem, hpopped, -⟩ := hpicked (by decide) (by decide)
  obtain ⟨u, rfl⟩ : ∃ u, front = [u] := List.length_eq_one_iff.mp (Int.ofNat.inj hfront)
  obtain ⟨rfl, hrest⟩ := List.cons.inj hsplit
  obtain ⟨rfl, rfl⟩ := List.cons.inj hrest
  exact ⟨hlength, hx, hitem, hpopped⟩

/-- Integers that pick no item are not refused: behind the end of three items nothing is taken and nothing is given, and
before the start the last item is taken. -/
theorem pop_outside :
    let popped (i : Number) := callMember ⟨false, [], []⟩ 1 (.list 0) "pop" ⟨[.number i], []⟩
    outcome (popped 3) threeTexts = .ok .absent ∧
      outcome (popped (-4)) threeTexts = .ok (.text "c") ∧
      (after (popped (-4)) threeTexts).list 0 = [.text "a", .text "b"] := by
  decide +kernel

end Stencil.Eval
