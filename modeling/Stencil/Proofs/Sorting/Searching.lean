import Mathlib.Data.List.TakeWhile
import Mathlib.Order.Lattice
import Stencil.Sorting

/-!
A search by halving or leaping finds how many items stand first. What one run of items tells about another is of that
form, where the order is that of places which the items have.
-/
namespace Stencil.Sorting

variable {α β : Type} {half : Nat → Nat} {p : α → Bool} {items : List α}

/-! ## Searching -/

/-- The items that satisfy `p` stand before all others. -/
def Leading (p : α → Bool) (items : List α) : Prop := items.Pairwise fun a b => p b = true → p a = true

theorem Leading.take (h : Leading p items) (n : Nat) : Leading p (items.take n) := h.sublist (List.take_sublist n items)

theorem Leading.drop (h : Leading p items) (n : Nat) : Leading p (items.drop n) := h.sublist (List.drop_sublist n items)

/-- An item satisfies `p` where it is one of the first, as many as there are that do. -/
theorem Leading.getElem? (h : Leading p items) {i : Nat} {a : α} (ha : items[i]? = some a) :
    p a = true ↔ i < (items.takeWhile p).length := by
  induction items generalizing i with
  | nil => simp at ha
  | cons b items ih =>
    obtain ⟨hfirst, hrest⟩ := List.pairwise_cons.mp h
    cases hb : p b with
    | true =>
      rw [List.takeWhile_cons_of_pos hb, List.length_cons]
      cases i with
      | zero =>
        obtain rfl := Option.some.inj ha
        simp [hb]
      | succ i =>
        rw [Nat.add_lt_add_iff_right]
        exact ih hrest ha
    | false =>
      have hnone : List.takeWhile p (b :: items) = [] := by simp [hb]
      rw [hnone]
      refine iff_of_false (fun hpa => ?_) (Nat.not_lt_zero i)
      cases i with
      | zero =>
        obtain rfl := Option.some.inj ha
        rw [hb] at hpa
        cases hpa
      | succ i =>
        have hpb := hfirst a (List.mem_of_getElem? ha) hpa
        rw [hb] at hpb
        cases hpb

/-- Halving closes in on the number of items that stand first. -/
theorem bisect_eq (hhalf : ∀ n, 0 < n → half n < n) {array : Array α} {count : Nat}
    (hcount : ∀ i a, array[i]? = some a → (p a = true ↔ i < count)) :
    ∀ {fuel low high : Nat}, low ≤ count → count ≤ high → high ≤ array.size → high - low < fuel →
      bisect half p array fuel low high = count
  | 0, _, _, _, _, _, hfuel => absurd hfuel (Nat.not_lt_zero _)
  | fuel + 1, low, high, hlow, hhigh, hsize, hfuel => by
    unfold bisect
    by_cases hlt : low < high
    · rw [if_pos hlt]
      have hmid := hhalf (high - low) (by omega)
      dsimp only
      generalize hi : low + half (high - low) = i at *
      have hin : i < array.size := by omega
      obtain ⟨a, ha⟩ : ∃ a, array[i]? = some a := ⟨array[i], Array.getElem?_eq_getElem hin⟩
      have ha' := hcount i a ha
      rw [ha, Option.map_some, Option.getD_some]
      by_cases hpa : p a = true
      · rw [if_pos hpa]
        have := ha'.mp hpa
        exact bisect_eq hhalf hcount (by omega) hhigh hsize (by omega)
      · rw [if_neg hpa]
        have := mt ha'.mpr hpa
        exact bisect_eq hhalf hcount hlow (by omega) (by omega) (by omega)
    · rw [if_neg hlt]
      omega

theorem firstCount_eq (hhalf : ∀ n, 0 < n → half n < n) (h : Leading p items) :
    firstCount half p items = (items.takeWhile p).length := by
  have hle : (items.takeWhile p).length ≤ items.toArray.size := (List.takeWhile_prefix p).length_le
  refine bisect_eq hhalf (fun i a ha => ?_) (Nat.zero_le _) hle (Nat.le_refl _) (by omega)
  rw [List.getElem?_toArray] at ha
  exact h.getElem? ha

theorem Leading.of_split {front rest : List α} {item : α} (h : Leading p (front ++ item :: rest)) :
    (List.takeWhile p (front ++ item :: rest)).length =
      if p item then front.length + 1 + (rest.takeWhile p).length else (front.takeWhile p).length := by
  have hbefore := (List.pairwise_append.mp h).2.2
  cases hitem : p item with
  | true =>
    have hfront : ∀ a ∈ front, p a = true := fun a ha => hbefore a ha item List.mem_cons_self hitem
    rw [List.takeWhile_append_of_pos hfront, List.takeWhile_cons_of_pos hitem, if_pos rfl, List.length_append,
      List.length_cons]
    omega
  | false =>
    rw [if_neg Bool.false_ne_true, List.takeWhile_append]
    split
    · next hall => simp [hitem, hall]
    · rfl

theorem leap_eq (hhalf : ∀ n, 0 < n → half n < n) (h : Leading p items) (skip : Nat) :
    leap half p skip items = (items.takeWhile p).length := by
  fun_induction leap half p skip items with
  | case1 skip items item rest hdrop hitem ih =>
    have hskip : (items.take skip).length = skip := by
      have hlength := congrArg List.length hdrop
      simp only [List.length_drop, List.length_cons] at hlength
      simp only [List.length_take]
      omega
    have hsplit : items = items.take skip ++ item :: rest := by rw [← hdrop, List.take_append_drop]
    have hrest : Leading p rest := by
      have hdropped := h.drop skip
      rw [hdrop] at hdropped
      exact (List.pairwise_cons.mp hdropped).2
    have hlength := (hsplit ▸ h : Leading p (items.take skip ++ item :: rest)).of_split
    rw [← hsplit, if_pos hitem, hskip] at hlength
    rw [ih hrest, hlength]
  | case2 skip items item rest hdrop hitem =>
    have hsplit : items = items.take skip ++ item :: rest := by rw [← hdrop, List.take_append_drop]
    have hlength := (hsplit ▸ h : Leading p (items.take skip ++ item :: rest)).of_split
    rw [← hsplit, if_neg hitem] at hlength
    rw [firstCount_eq hhalf (h.take skip), hlength]
  | case3 skip items hdrop => exact firstCount_eq hhalf h

theorem leapCount_eq (hhalf : ∀ n, 0 < n → half n < n) (h : Leading p items) :
    leapCount half p items = (items.takeWhile p).length := by
  cases items with
  | nil => rfl
  | cons item rest =>
    unfold leapCount
    dsimp only
    cases hitem : p item with
    | true =>
      rw [if_pos rfl, leap_eq hhalf (List.pairwise_cons.mp h).2, List.takeWhile_cons_of_pos hitem, List.length_cons,
        Nat.add_comm]
    | false => simp [hitem]

/-- The items are cut where those that stand first end. -/
theorem Leading.cut (h : Leading p items) {n : Nat} (hn : n = (items.takeWhile p).length) :
    (∀ a ∈ items.take n, p a = true) ∧ ∀ a ∈ items.drop n, p a = false := by
  constructor
  · intro a ha
    obtain ⟨i, hi⟩ := List.mem_iff_getElem?.mp ha
    rw [List.getElem?_take] at hi
    split at hi
    · next hlt => exact (h.getElem? hi).mpr (hn ▸ hlt)
    · cases hi
  · intro a ha
    obtain ⟨i, hi⟩ := List.mem_iff_getElem?.mp ha
    rw [List.getElem?_drop] at hi
    have hnot := mt (h.getElem? hi).mp (by omega)
    exact Bool.eq_false_iff.mpr hnot

/-! ## Runs in order -/

section Order

variable [LinearOrder β] {before : α → α → Bool} {place : α → β} {left right run : List α} {x y : α}

/-- The places of a run rise. -/
def Rising (place : α → β) (run : List α) : Prop := run.Pairwise fun a b => place a ≤ place b

theorem Rising.first_le (h : Rising place (y :: run)) (hx : x ∈ y :: run) : place y ≤ place x := by
  rcases List.mem_cons.mp hx with rfl | hx
  · exact le_refl _
  · exact (List.pairwise_cons.mp h).1 x hx

theorem Rising.le_last (h : Rising place run) (hy : run.getLast? = some y) (hx : x ∈ run) : place x ≤ place y := by
  obtain ⟨front, rfl⟩ := List.getLast?_eq_some_iff.mp hy
  rcases List.mem_append.mp hx with hx | hx
  · exact (List.pairwise_append.mp h).2.2 x hx y List.mem_cons_self
  · rw [List.mem_singleton.mp hx]

/-- Of items of two neighbouring runs, those of the right one are before those of the left one where their places are. -/
def Agrees (before : α → α → Bool) (place : α → β) (left right : List α) : Prop :=
  ∀ x ∈ left, ∀ y ∈ right, before y x = decide (place y < place x)

theorem Agrees.le (h : Agrees before place left right) (hx : x ∈ left) (hy : y ∈ right)
    (hnot : (!before y x) = true) : place x ≤ place y := by
  rwa [h x hx y hy, ← decide_not, decide_eq_true_iff, not_lt] at hnot

theorem Agrees.lt (h : Agrees before place left right) (hx : x ∈ left) (hy : y ∈ right)
    (hnot : (!before y x) = false) : place y < place x := by
  rwa [h x hx y hy, ← decide_not, decide_eq_false_iff_not, not_not] at hnot

/-- What an item of the right run tells about the left one. -/
theorem Agrees.leading_left (h : Agrees before place left right) (hleft : Rising place left) (hy : y ∈ right) :
    Leading (!before y ·) left := by
  refine hleft.imp_of_mem fun {a b} ha hb hab hnot => ?_
  have hle := hab.trans (h.le hb hy hnot)
  dsimp only
  rwa [h a ha y hy, ← decide_not, decide_eq_true_iff, not_lt]

/-- What an item of the left run tells about the right one. -/
theorem Agrees.leading_right (h : Agrees before place left right) (hright : Rising place right) (hx : x ∈ left) :
    Leading (before · x) right := by
  refine hright.imp_of_mem fun {a b} ha hb hab hbefore => ?_
  have hlt := hab.trans_lt (decide_eq_true_iff.mp ((h x hx b hb).symm.trans hbefore))
  dsimp only
  rwa [h x hx a ha, decide_eq_true_iff]

/-- What it tells about the right one from its end. -/
theorem Agrees.leading_reverse (h : Agrees before place left right) (hright : Rising place right) (hx : x ∈ left) :
    Leading (!before · x) right.reverse := by
  refine List.pairwise_reverse.mpr (hright.imp_of_mem fun {a b} ha hb hab hnot => ?_)
  have hle := (h.le hx ha hnot).trans hab
  dsimp only
  rwa [h x hx b hb, ← decide_not, decide_eq_true_iff, not_lt]

end Order

end Stencil.Sorting
