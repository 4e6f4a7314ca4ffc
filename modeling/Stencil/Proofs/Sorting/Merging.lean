import Mathlib.Order.OrderDual
import Stencil.Proofs.Sorting.Searching

/-!
Merging keeps all items, whatever the order; and where the order is that of places which the items have, two runs in
order become one.
-/
namespace Stencil.Sorting

variable {α β : Type} {half : Nat → Nat}

/-! ## Merging keeps the items -/

namespace Merge

variable {m : Merge α} {wins : α → α → Bool}

/-- All items of a merge. -/
def content (m : Merge α) : List α := m.done ++ (m.aside ++ m.other)

theorem perm_of_aside (done front back other : List α) :
    ((front.reverse ++ done) ++ (back ++ other)).Perm (done ++ ((front ++ back) ++ other)) := by
  have hmoved : (front.reverse ++ done).Perm (done ++ front) :=
    ((List.reverse_perm front).append_right done).trans List.perm_append_comm
  have h := hmoved.append_right (back ++ other)
  simpa only [List.append_assoc] using h

theorem perm_of_other (done aside front back : List α) :
    ((front.reverse ++ done) ++ (aside ++ back)).Perm (done ++ (aside ++ (front ++ back))) := by
  have hmoved : (front.reverse ++ done).Perm (done ++ front) :=
    ((List.reverse_perm front).append_right done).trans List.perm_append_comm
  have hswap : (front ++ aside).Perm (aside ++ front) := List.perm_append_comm
  have h := (hmoved.append_right (aside ++ back)).trans
    (by simpa only [List.append_assoc] using (hswap.append_right back).append_left done)
  exact h

theorem content_merged (m : Merge α) : m.merged.Perm m.content := by
  have h : (m.other ++ m.aside).reverse.Perm (m.aside ++ m.other) :=
    (List.reverse_perm _).trans List.perm_append_comm
  exact (h.append_right m.done).trans List.perm_append_comm

theorem content_leapAside : (m.leapAside half wins).content.Perm m.content := by
  obtain ⟨done, aside, other, _, _, _⟩ := m
  unfold leapAside
  cases other with
  | nil => exact List.Perm.refl _
  | cons y rest =>
    dsimp only
    generalize leapCount half (fun x => !wins x y) aside = count
    have haside : ((aside.take count).reverseAux done ++ (aside.drop count ++ y :: rest)).Perm
        (done ++ (aside ++ y :: rest)) := by
      have h := perm_of_aside done (aside.take count) (aside.drop count) (y :: rest)
      rwa [List.take_append_drop, ← List.reverseAux_eq] at h
    split
    · exact haside
    · exact (perm_of_other _ _ [y] rest).trans haside

theorem content_leapOther : (m.leapOther half wins).content.Perm m.content := by
  obtain ⟨done, aside, other, _, _, _⟩ := m
  unfold leapOther
  cases aside with
  | nil => exact List.Perm.refl _
  | cons x rest =>
    dsimp only
    generalize leapCount half (wins x) other = count
    have hother : ((other.take count).reverseAux done ++ (x :: rest ++ other.drop count)).Perm
        (done ++ (x :: rest ++ other)) := by
      have h := perm_of_other done (x :: rest) (other.take count) (other.drop count)
      rwa [List.take_append_drop, ← List.reverseAux_eq] at h
    split
    · exact hother
    · exact (perm_of_aside _ [x] rest _).trans hother

theorem content_compare : (m.compare wins).content.Perm m.content := by
  obtain ⟨done, aside, other, _, _, _⟩ := m
  unfold compare
  cases aside with
  | nil => exact List.Perm.refl _
  | cons x xs =>
    cases other with
    | nil => exact List.Perm.refl _
    | cons y ys =>
      dsimp only
      split
      · exact perm_of_other _ _ [y] ys
      · exact perm_of_aside _ [x] xs _

theorem content_leap (aside : Bool) :
    (if aside then m.leapAside half wins else m.leapOther half wins).content.Perm m.content := by
  cases aside with
  | true => exact content_leapAside
  | false => exact content_leapOther

/-- A merge keeps its items, whatever the order. -/
theorem content_run (forward : Bool) (fuel : Nat) (leaping : Bool) (m : Merge α) :
    (run half wins forward fuel leaping m).content.Perm m.content := by
  have hsecond : ∀ m : Merge α,
      (if forward then m.leapOther half wins else m.leapAside half wins).content.Perm m.content := by
    intro m
    cases forward with
    | true => exact content_leapOther
    | false => exact content_leapAside
  fun_induction run half wins forward fuel leaping m with
  | case1 => exact List.Perm.refl _
  | case2 => exact List.Perm.refl _
  | case3 => exact content_leap forward
  | case4 fuel m _ first => exact (hsecond first).trans (content_leap forward)
  | case5 fuel m _ first _ _ _ _ ih => exact ih.trans ((hsecond first).trans (content_leap forward))
  | case6 fuel m _ first _ _ _ _ ih => exact ih.trans ((hsecond first).trans (content_leap forward))
  | case7 fuel leaping m _ _ _ ih => exact ih.trans content_compare

/-! ## Merging puts the items in order -/

variable [LinearOrder β] {place : α → β}

/-- A merge is in order: what was merged stands before all else, both runs rise, the last item put aside is behind the
other run, and one item wins over another where its place is before. -/
structure Fits (place : α → β) (wins : α → α → Bool) (m : Merge α) : Prop where
  done : m.done.Pairwise fun a b => place b ≤ place a
  aside : Rising place m.aside
  other : Rising place m.other
  behind : ∀ d ∈ m.done, ∀ a ∈ m.aside ++ m.other, place d ≤ place a
  last : ∀ l, m.aside.getLast? = some l → ∀ y ∈ m.other, place y ≤ place l
  tells : Agrees (fun y x => wins x y) place m.aside m.other

/-- A merge starts with the first item of one run, which stands before those put aside. -/
theorem Fits.start {aside other : List α} (haside : Rising place aside) (hother : Rising place other)
    (hfirst : ∀ y, other.head? = some y → ∀ x ∈ aside, place y ≤ place x)
    (hlast : ∀ x, aside.getLast? = some x → ∀ y ∈ other, place y ≤ place x)
    (htells : Agrees (fun y x => wins x y) place aside other) (patience : Nat) :
    Fits place wins ⟨other.take 1, aside, other.drop 1, 0, 0, patience⟩ where
  done := by cases other <;> simp
  aside := haside
  other := hother.sublist (List.drop_sublist 1 other)
  behind := by
    intro d hd x hx
    have hhead : other.head? = some d := by
      cases other with
      | nil => cases hd
      | cons y rest => rw [List.mem_singleton.mp hd, List.head?_cons]
    rcases List.mem_append.mp hx with hx | hx
    · exact hfirst d hhead x hx
    · exact (List.pairwise_append.mp ((List.take_append_drop 1 other).symm ▸ hother)).2.2 d hd x hx
  last x hx y hy := hlast x hx y (List.mem_of_mem_drop hy)
  tells x hx y hy := htells x hx y (List.mem_of_mem_drop hy)

/-- How many items are still to be merged. -/
def left (m : Merge α) : Nat := m.aside.length + m.other.length

/-- The first items put aside are merged, where they are not behind the other run. -/
theorem Fits.of_aside {m n : Merge α} (h : Fits place wins m) (front : List α) (haside : m.aside = front ++ n.aside)
    (hother : n.other = m.other) (hdone : n.done = front.reverse ++ m.done)
    (hfront : ∀ x ∈ front, ∀ y ∈ m.other, place x ≤ place y) : Fits place wins n where
  done := by
    have hrising := List.pairwise_append.mp (haside ▸ h.aside)
    rw [hdone]
    refine List.pairwise_append.mpr ⟨List.pairwise_reverse.mpr hrising.1, h.done, fun x hx d hd => ?_⟩
    refine h.behind d hd x (List.mem_append_left _ ?_)
    rw [haside]
    exact List.mem_append_left _ (List.mem_reverse.mp hx)
  aside := (List.pairwise_append.mp (haside ▸ h.aside)).2.1
  other := hother ▸ h.other
  behind := by
    intro d hd a ha
    rw [hdone] at hd
    rw [hother] at ha
    rcases List.mem_append.mp hd with hd | hd
    · rcases List.mem_append.mp ha with ha | ha
      · exact (List.pairwise_append.mp (haside ▸ h.aside)).2.2 d (List.mem_reverse.mp hd) a ha
      · exact hfront d (List.mem_reverse.mp hd) a ha
    · refine h.behind d hd a ?_
      rw [haside, List.append_assoc]
      exact List.mem_append_right _ ha
  last := by
    intro l hl
    rw [hother]
    refine h.last l ?_
    rw [haside, List.getLast?_append, hl]
    rfl
  tells := by
    intro x hx y hy
    refine h.tells x ?_ y (hother ▸ hy)
    rw [haside]
    exact List.mem_append_right _ hx

/-- The first items of the other run are merged, where they are not behind those put aside. -/
theorem Fits.of_other {m n : Merge α} (h : Fits place wins m) (front : List α) (haside : n.aside = m.aside)
    (hother : m.other = front ++ n.other) (hdone : n.done = front.reverse ++ m.done)
    (hfront : ∀ y ∈ front, ∀ x ∈ m.aside, place y ≤ place x) : Fits place wins n where
  done := by
    have hrising := List.pairwise_append.mp (hother ▸ h.other)
    rw [hdone]
    refine List.pairwise_append.mpr ⟨List.pairwise_reverse.mpr hrising.1, h.done, fun y hy d hd => ?_⟩
    refine h.behind d hd y (List.mem_append_right _ ?_)
    rw [hother]
    exact List.mem_append_left _ (List.mem_reverse.mp hy)
  aside := haside ▸ h.aside
  other := (List.pairwise_append.mp (hother ▸ h.other)).2.1
  behind := by
    intro d hd a ha
    rw [hdone] at hd
    rw [haside] at ha
    rcases List.mem_append.mp hd with hd | hd
    · rcases List.mem_append.mp ha with ha | ha
      · exact hfront d (List.mem_reverse.mp hd) a ha
      · exact (List.pairwise_append.mp (hother ▸ h.other)).2.2 d (List.mem_reverse.mp hd) a ha
    · refine h.behind d hd a ?_
      rw [hother]
      rcases List.mem_append.mp ha with ha | ha
      · exact List.mem_append_left _ ha
      · exact List.mem_append_right _ (List.mem_append_right _ ha)
  last := by
    intro l hl y hy
    refine h.last l (haside ▸ hl) y ?_
    rw [hother]
    exact List.mem_append_right _ hy
  tells := by
    intro x hx y hy
    refine h.tells x (haside ▸ hx) y ?_
    rw [hother]
    exact List.mem_append_right _ hy

/-- A merge that is settled has put its items in order. -/
theorem Fits.merged (h : Fits place wins m) (hsettled : m.isSettled = true) :
    m.merged.Pairwise fun a b => place b ≤ place a := by
  have hrest : (m.other ++ m.aside).Pairwise fun a b => place a ≤ place b := by
    refine List.pairwise_append.mpr ⟨h.other, h.aside, fun y hy x hx => ?_⟩
    unfold isSettled at hsettled
    split at hsettled
    · rw [List.isEmpty_iff.mp hsettled] at hy
      cases hy
    · next hshort =>
      obtain ⟨l, hl⟩ : ∃ l, m.aside = [l] := by
        cases haside : m.aside with
        | nil =>
          rw [haside] at hx
          cases hx
        | cons l rest =>
          cases rest with
          | nil => exact ⟨l, rfl⟩
          | cons b rest => exact absurd haside (hshort l b rest)
      have hlast := h.last l (by rw [hl]; rfl) y hy
      rw [hl] at hx
      rw [List.mem_singleton.mp hx]
      exact hlast
  refine List.pairwise_append.mpr ⟨List.pairwise_reverse.mpr hrest, h.done, fun a ha d hd => ?_⟩
  refine h.behind d hd a ?_
  rcases List.mem_append.mp (List.mem_reverse.mp ha) with ha | ha
  · exact List.mem_append_right _ ha
  · exact List.mem_append_left _ ha

theorem isSettled_of_other_nil (h : m.other = []) : m.isSettled = true := by
  unfold isSettled
  rw [h]
  split <;> rfl

theorem isSettled_of_aside_nil (h : m.aside = []) : m.isSettled = true := by
  unfold isSettled
  rw [h]

/-- A step keeps a merge in order, and takes an item if it does not settle the merge. -/
structure Steps (place : α → β) (wins : α → α → Bool) (m n : Merge α) : Prop where
  fits : Fits place wins n
  shrinks : n.isSettled = false → n.left < m.left

theorem Fits.leapAside (hhalf : ∀ n, 0 < n → half n < n) (h : Fits place wins m) (hm : m.isSettled = false) :
    Steps place wins m (m.leapAside half wins) := by
  cases hother : m.other with
  | nil =>
    rw [isSettled_of_other_nil hother] at hm
    cases hm
  | cons y rest =>
    have hy : y ∈ m.other := by
      rw [hother]
      exact List.mem_cons_self
    have hlead := h.tells.leading_left h.aside hy
    obtain ⟨hfront, hback⟩ := hlead.cut (leapCount_eq hhalf hlead)
    unfold Merge.leapAside
    rw [hother]
    dsimp only
    generalize leapCount half (!wins · y) m.aside = count at hfront hback
    have hfits : Fits place wins
        ⟨(m.aside.take count).reverseAux m.done, m.aside.drop count, y :: rest, count, m.otherWins, m.patience⟩ := by
      refine h.of_aside (m.aside.take count) ?_ hother.symm ?_ fun x hx y' hy' => ?_
      · exact (List.take_append_drop count m.aside).symm
      · exact List.reverseAux_eq
      · have hxy := h.tells.le (List.mem_of_mem_take hx) hy (hfront x hx)
        exact hxy.trans (Rising.first_le (hother ▸ h.other) (hother ▸ hy'))
    split
    · next hsettled => exact ⟨hfits, fun hnot => by rw [hsettled] at hnot; cases hnot⟩
    · constructor
      · refine hfits.of_other [y] rfl rfl rfl fun y' hy' x hx => ?_
        obtain rfl := List.mem_singleton.mp hy'
        exact (h.tells.lt (List.mem_of_mem_drop hx) hy (hback x hx)).le
      · intro _
        simp only [left, hother, List.length_drop, List.length_cons]
        omega

theorem Fits.leapOther (hhalf : ∀ n, 0 < n → half n < n) (h : Fits place wins m) (hm : m.isSettled = false) :
    Steps place wins m (m.leapOther half wins) := by
  cases haside : m.aside with
  | nil =>
    rw [isSettled_of_aside_nil haside] at hm
    cases hm
  | cons x rest =>
    have hx : x ∈ m.aside := by
      rw [haside]
      exact List.mem_cons_self
    have hlead := h.tells.leading_right h.other hx
    obtain ⟨hfront, hback⟩ := hlead.cut (leapCount_eq hhalf hlead)
    unfold Merge.leapOther
    rw [haside]
    dsimp only
    generalize leapCount half (wins x) m.other = count at hfront hback
    have hfits : Fits place wins
        ⟨(m.other.take count).reverseAux m.done, x :: rest, m.other.drop count, m.asideWins, count, m.patience⟩ := by
      refine h.of_other (m.other.take count) haside.symm ?_ ?_ fun y hy x' hx' => ?_
      · exact (List.take_append_drop count m.other).symm
      · exact List.reverseAux_eq
      · have hxy := h.tells.lt hx (List.mem_of_mem_take hy) (by simpa using hfront y hy)
        exact hxy.le.trans (Rising.first_le (haside ▸ h.aside) (haside ▸ hx'))
    split
    · next hsettled => exact ⟨hfits, fun hnot => by rw [hsettled] at hnot; cases hnot⟩
    · constructor
      · refine hfits.of_aside [x] rfl rfl rfl fun x' hx' y hy => ?_
        obtain rfl := List.mem_singleton.mp hx'
        exact h.tells.le hx (List.mem_of_mem_drop hy) (by simpa using hback y hy)
      · intro _
        simp only [left, haside, List.length_drop, List.length_cons]
        omega

theorem Fits.compare (h : Fits place wins m) (hm : m.isSettled = false) : Steps place wins m (m.compare wins) := by
  cases haside : m.aside with
  | nil =>
    rw [isSettled_of_aside_nil haside] at hm
    cases hm
  | cons x xs =>
    cases hother : m.other with
    | nil =>
      rw [isSettled_of_other_nil hother] at hm
      cases hm
    | cons y ys =>
      have htells : wins x y = decide (place y < place x) := h.tells x (by simp [haside]) y (by simp [hother])
      unfold Merge.compare
      rw [haside, hother]
      dsimp only
      split
      · next hwins =>
        rw [htells, decide_eq_true_iff] at hwins
        constructor
        · refine h.of_other [y] haside.symm hother rfl fun y' hy' x' hx' => ?_
          obtain rfl := List.mem_singleton.mp hy'
          exact hwins.le.trans (Rising.first_le (haside ▸ h.aside) (haside ▸ hx'))
        · intro _
          simp only [left, haside, hother, List.length_cons]
          omega
      · next hwins =>
        rw [htells, decide_eq_true_iff, not_lt] at hwins
        constructor
        · refine h.of_aside [x] haside hother.symm rfl fun x' hx' y' hy' => ?_
          obtain rfl := List.mem_singleton.mp hx'
          exact hwins.trans (Rising.first_le (hother ▸ h.other) (hother ▸ hy'))
        · intro _
          simp only [left, haside, hother, List.length_cons]
          omega

theorem Fits.leap (hhalf : ∀ n, 0 < n → half n < n) (h : Fits place wins m) (hm : m.isSettled = false) (aside : Bool) :
    Steps place wins m (if aside then m.leapAside half wins else m.leapOther half wins) := by
  cases aside with
  | true => exact h.leapAside hhalf hm
  | false => exact h.leapOther hhalf hm

/-- The counts of wins and the patience have no part in the order. -/
theorem Fits.of_counts {n : Merge α} (h : Fits place wins m) (hdone : n.done = m.done) (haside : n.aside = m.aside)
    (hother : n.other = m.other) : Fits place wins n := by
  refine h.of_aside [] haside.symm hother hdone fun x hx => ?_
  cases hx

/-- A merge that may take all its items comes to rest in order. -/
theorem Fits.run (hhalf : ∀ n, 0 < n → half n < n) (forward : Bool) (fuel : Nat) (leaping : Bool) (m : Merge α)
    (h : Fits place wins m) (hfuel : m.isSettled = false → m.left ≤ fuel) :
    Fits place wins (run half wins forward fuel leaping m) ∧ (run half wins forward fuel leaping m).isSettled = true := by
  have hsecond : ∀ m : Merge α, Fits place wins m → m.isSettled = false →
      Steps place wins m (if forward then m.leapOther half wins else m.leapAside half wins) := by
    intro m hfits hm
    cases forward with
    | true => exact hfits.leapOther hhalf hm
    | false => exact hfits.leapAside hhalf hm
  fun_induction Merge.run half wins forward fuel leaping m with
  | case1 leaping m =>
    refine ⟨h, ?_⟩
    by_contra hnot
    have hleft := hfuel (by simpa using hnot)
    unfold left at hleft
    exact hnot (isSettled_of_aside_nil (List.length_eq_zero_iff.mp (by omega)))
  | case2 _ _ _ hsettled => exact ⟨h, hsettled⟩
  | case3 fuel m hm first hsettled => exact ⟨(h.leap hhalf (by simpa using hm) forward).fits, hsettled⟩
  | case4 fuel m hm first hfirst second hsettled =>
    have hstep : Steps place wins m first := h.leap hhalf (by simpa using hm) forward
    exact ⟨(hsecond first hstep.fits (by simpa using hfirst)).fits, hsettled⟩
  | case5 fuel m hm first hfirst second hnot _ ih | case6 fuel m hm first hfirst second hnot _ ih =>
    rw [Bool.not_eq_true] at hm hfirst hnot
    have hstep : Steps place wins m first := h.leap hhalf hm forward
    have hnext : Steps place wins first second := hsecond first hstep.fits hfirst
    refine ih (hnext.fits.of_counts rfl rfl rfl) fun _ => ?_
    have h1 := hstep.shrinks hfirst
    have h2 := hnext.shrinks hnot
    have h3 := hfuel hm
    change second.left ≤ fuel
    omega
  | case7 fuel leaping m hm _ n ih =>
    rw [Bool.not_eq_true] at hm
    have hstep : Steps place wins m n := h.compare hm
    refine ih hstep.fits fun hn => ?_
    have h1 := hstep.shrinks hn
    have h2 := hfuel hm
    omega

end Merge

/-! ## Merging runs -/

variable {before : α → α → Bool} {place : α → β} {left right : List α}

theorem perm_of_take_one (xs ys : List α) : (ys.take 1 ++ (xs ++ ys.drop 1)).Perm (xs ++ ys) := by
  have hswap : (ys.take 1 ++ xs).Perm (xs ++ ys.take 1) := List.perm_append_comm
  have h := hswap.append_right (ys.drop 1)
  simpa only [List.append_assoc, List.take_append_drop] using h

theorem take_append_drop_length (xs : List α) (n : Nat) : xs.take n ++ xs.drop (xs.take n).length = xs := by
  rw [List.length_take]
  rcases Nat.le_total n xs.length with h | h
  · rw [Nat.min_eq_left h, List.take_append_drop]
  · rw [Nat.min_eq_right h, List.take_of_length_le h, List.drop_length, List.append_nil]

theorem mergeInner_perm (before : α → α → Bool) (patience : Nat) (left right : List α) :
    (mergeInner before patience left right).1.Perm (left ++ right) := by
  unfold mergeInner
  dsimp only
  split
  · refine (List.reverse_perm _).trans ((Merge.content_merged _).trans ((Merge.content_run true _ _ _).trans ?_))
    exact perm_of_take_one left right
  · refine (Merge.content_merged _).trans ((Merge.content_run false _ _ _).trans ?_)
    refine (perm_of_take_one right.reverse left.reverse).trans ?_
    refine ((List.reverse_perm right).append (List.reverse_perm left)).trans ?_
    exact List.perm_append_comm

/-- Merging keeps the items of both runs, whatever the order. -/
theorem mergeRuns_perm (before : α → α → Bool) (patience : Nat) (left right : List α) :
    (mergeRuns before patience left right).1.Perm (left ++ right) := by
  unfold mergeRuns
  split
  · rw [List.append_nil]
  · next r rest =>
    dsimp only
    generalize leapCount (· / 2) (!before r ·) left = low
    split
    · exact List.Perm.refl _
    · next l _ =>
      generalize leapCount (fun n => (n - 1) / 2) (!before · l) (r :: rest).reverse = high
      split
      · exact List.Perm.refl _
      · generalize (r :: rest).length - high = count
        have hinner := mergeInner_perm before patience (left.drop low) ((r :: rest).take count)
        have hkept := (hinner.append_right ((r :: rest).drop ((r :: rest).take count).length)).append_left
          (left.take low)
        rw [List.append_assoc, take_append_drop_length, ← List.append_assoc (left.take low) (left.drop low),
          List.take_append_drop] at hkept
        exact hkept

variable [LinearOrder β]

theorem half_lt (n : Nat) (h : 0 < n) : n / 2 < n := Nat.div_lt_self h (by decide)

theorem half_pred_lt (n : Nat) (h : 0 < n) : (n - 1) / 2 < n := by omega

theorem mergeInner_rising (hleft : Rising place left) (hright : Rising place right)
    (hagrees : Agrees before place left right) (hfirst : ∀ r, right.head? = some r → ∀ x ∈ left, place r ≤ place x)
    (hlast : ∀ l, left.getLast? = some l → ∀ y ∈ right, place y ≤ place l) (patience : Nat) :
    Rising place (mergeInner before patience left right).1 := by
  unfold mergeInner
  dsimp only
  split
  · have hfits : Merge.Fits place (fun x y => before y x) ⟨right.take 1, left, right.drop 1, 0, 0, patience⟩ :=
      .start hleft hright hfirst hlast hagrees patience
    have hrun := hfits.run half_lt true (left.length + right.length) false _ fun _ => by
      simp only [Merge.left, List.length_drop]
      omega
    exact List.pairwise_reverse.mpr (hrun.1.merged hrun.2)
  · have hfits : Merge.Fits (OrderDual.toDual ∘ place) before
        ⟨left.reverse.take 1, right.reverse, left.reverse.drop 1, 0, 0, patience⟩ := by
      have haside : Rising (OrderDual.toDual ∘ place) right.reverse := List.pairwise_reverse.mpr hright
      have hother : Rising (OrderDual.toDual ∘ place) left.reverse := List.pairwise_reverse.mpr hleft
      refine .start haside hother ?_ ?_ ?_ patience
      · intro l hl y hy
        rw [List.head?_reverse] at hl
        exact hlast l hl y (List.mem_reverse.mp hy)
      · intro r hr x hx
        rw [List.getLast?_reverse] at hr
        exact hfirst r hr x (List.mem_reverse.mp hx)
      · intro y hy x hx
        exact hagrees x (List.mem_reverse.mp hx) y (List.mem_reverse.mp hy)
    have hrun := hfits.run half_pred_lt false (left.length + right.length) false _ fun _ => by
      simp only [Merge.left, List.length_drop, List.length_reverse]
      omega
    exact hrun.1.merged hrun.2

/-- The inner parts of two runs are merged between those items that stand before all others and those behind them. -/
theorem merged_between (hleft : Rising place left) (hright : Rising place right)
    (hagrees : Agrees before place left right) {low count : Nat}
    (hbefore : ∀ x ∈ left.take low, ∀ y ∈ right, place x ≤ place y)
    (hbehind : ∀ x ∈ left, ∀ y ∈ right.drop count, place x ≤ place y)
    (hfirst : ∀ r, right.head? = some r → ∀ x ∈ left.drop low, place r ≤ place x)
    (hlast : ∀ l, (left.drop low).getLast? = some l → ∀ y ∈ right.take count, place y ≤ place l) (patience : Nat) :
    Rising place
      (left.take low ++ ((mergeInner before patience (left.drop low) (right.take count)).1 ++ right.drop count)) := by
  have hsplit := List.pairwise_append.mp ((List.take_append_drop low left).symm ▸ hleft)
  have hsplit' := List.pairwise_append.mp ((List.take_append_drop count right).symm ▸ hright)
  have hkept := mergeInner_perm before patience (left.drop low) (right.take count)
  have hmerged : Rising place (mergeInner before patience (left.drop low) (right.take count)).1 := by
    refine mergeInner_rising hsplit.2.1 hsplit'.1
      (fun x hx y hy => hagrees x (List.mem_of_mem_drop hx) y (List.mem_of_mem_take hy)) ?_ hlast patience
    intro r hr
    rw [List.head?_take] at hr
    split at hr
    · cases hr
    · exact hfirst r hr
  refine List.pairwise_append.mpr ⟨hsplit.1, List.pairwise_append.mpr ⟨hmerged, hsplit'.2.1, ?_⟩, ?_⟩
  · intro x hx y hy
    rcases List.mem_append.mp (hkept.mem_iff.mp hx) with hx | hx
    · exact hbehind x (List.mem_of_mem_drop hx) y hy
    · exact hsplit'.2.2 x hx y hy
  · intro x hx y hy
    rcases List.mem_append.mp hy with hy | hy
    · rcases List.mem_append.mp (hkept.mem_iff.mp hy) with hy | hy
      · exact hsplit.2.2 x hx y hy
      · exact hbefore x hx y (List.mem_of_mem_take hy)
    · exact hbefore x hx y (List.mem_of_mem_drop hy)

/-- Two neighbouring runs that rise become one. -/
theorem mergeRuns_rising (hleft : Rising place left) (hright : Rising place right)
    (hagrees : Agrees before place left right) (patience : Nat) :
    Rising place (mergeRuns before patience left right).1 := by
  unfold mergeRuns
  split
  · exact hleft
  · next r rest =>
    dsimp only
    have hr : r ∈ r :: rest := List.mem_cons_self
    have hlow := hagrees.leading_left hleft hr
    obtain ⟨hfront, hback⟩ := hlow.cut (leapCount_eq half_lt hlow)
    generalize leapCount (· / 2) (!before r ·) left = low at hfront hback
    have hbefore : ∀ x ∈ left.take low, ∀ y ∈ r :: rest, place x ≤ place y := by
      intro x hx y hy
      exact (hagrees.le (List.mem_of_mem_take hx) hr (hfront x hx)).trans (hright.first_le hy)
    have hfirst : ∀ x ∈ left.drop low, place r ≤ place x := by
      intro x hx
      exact (hagrees.lt (List.mem_of_mem_drop hx) hr (hback x hx)).le
    split
    · next hnone =>
      rw [List.take_of_length_le (List.drop_eq_nil_iff.mp (List.getLast?_eq_none_iff.mp hnone))] at hbefore
      exact List.pairwise_append.mpr ⟨hleft, hright, hbefore⟩
    · next l hl =>
      have hlmem : l ∈ left := List.mem_of_mem_drop (List.mem_of_getLast? hl)
      have hl' : left.getLast? = some l := by
        rw [← List.take_append_drop low left, List.getLast?_append, hl]
        rfl
      have hhigh := hagrees.leading_reverse hright hlmem
      obtain ⟨hend, hinner⟩ := hhigh.cut (leapCount_eq half_pred_lt hhigh)
      generalize leapCount (fun n => (n - 1) / 2) (!before · l) (r :: rest).reverse = high at hend hinner
      rw [List.take_reverse] at hend
      rw [List.drop_reverse] at hinner
      generalize (r :: rest).length - high = count at hend hinner
      have hbehind : ∀ x ∈ left, ∀ y ∈ (r :: rest).drop count, place x ≤ place y := by
        intro x hx y hy
        have hyl := hagrees.le hlmem (List.mem_of_mem_drop hy) (hend y (List.mem_reverse.mpr hy))
        exact (hleft.le_last hl' hx).trans hyl
      have hlast : ∀ y ∈ (r :: rest).take count, place y ≤ place l := by
        intro y hy
        exact (hagrees.lt hlmem (List.mem_of_mem_take hy) (hinner y (List.mem_reverse.mpr hy))).le
      have hsplit : (r :: rest).take count ++ (r :: rest).drop count = r :: rest := List.take_append_drop count _
      split
      · next hempty =>
        rw [List.isEmpty_iff.mp hempty, List.nil_append] at hsplit
        rw [hsplit] at hbehind
        exact List.pairwise_append.mpr ⟨hleft, hright, hbehind⟩
      · have hlength : (r :: rest).drop ((r :: rest).take count).length = (r :: rest).drop count :=
          List.append_cancel_left ((take_append_drop_length (r :: rest) count).trans hsplit.symm)
        dsimp only
        rw [hlength]
        refine merged_between hleft hright hagrees hbefore hbehind ?_ ?_ patience
        · intro r' hr'
          rwa [← Option.some.inj hr']
        · intro l' hl'
          rw [hl] at hl'
          rwa [← Option.some.inj hl']

end Stencil.Sorting
