import Stencil.Proofs.Sorting.Merging

/-!
Sorting keeps all items, whatever the order; and where the order is that of places which the items have, the items come
out in the order of their places.
-/
namespace Stencil.Sorting

variable {α β : Type} {p : α → α → Bool} {before : α → α → Bool} {run rest items : List α} {item : α}

/-! ## Single runs -/

/-- A chain moves the first items that come onto the run. -/
theorem chain_split (p : α → α → Bool) (run rest : List α) :
    (chain p run rest).1.reverse ++ (chain p run rest).2 = run.reverse ++ rest := by
  fun_induction chain p run rest with
  | case1 last run item rest _ ih => simpa using ih
  | case2 => rfl
  | case3 => rfl

theorem chain_length (p : α → α → Bool) (run rest : List α) : (chain p run rest).2.length ≤ rest.length := by
  fun_induction chain p run rest with
  | case1 last run item rest _ ih =>
    rw [List.length_cons]
    omega
  | case2 => exact Nat.le_refl _
  | case3 => exact Nat.le_refl _

/-- What holds between each item of a chain and the one before it holds between all of them. -/
theorem chain_pairwise {r : α → α → Prop} (htrans : ∀ a b c, r a b → r b c → r a c) (hrun : run.Pairwise r)
    (hp : (run.reverse ++ rest).Pairwise fun x y => p x y = true → r y x) : (chain p run rest).1.Pairwise r := by
  fun_induction chain p run rest with
  | case1 last run item rest hlast ih =>
    have hnext : r item last := by
      have hpair := (List.pairwise_append.mp hp).2.2
      exact hpair last (by simp) item List.mem_cons_self hlast
    refine ih (List.pairwise_cons.mpr ⟨fun b hb => ?_, hrun⟩) (by simpa using hp)
    rcases List.mem_cons.mp hb with rfl | hb
    · exact hnext
    · exact htrans item last b hnext ((List.pairwise_cons.mp hrun).1 b hb)
  | case2 => exact hrun
  | case3 => exact hrun

/-- The first run holds the first items. -/
theorem firstRun_split (before : α → α → Bool) (items : List α) :
    ∃ front, items = front ++ (firstRun before items).2 ∧ (firstRun before items).1.Perm front := by
  unfold firstRun
  split
  · next a b rest =>
    split
    · exact ⟨_, (chain_split _ [b, a] rest).symm, (List.reverse_perm _).symm⟩
    · exact ⟨_, (chain_split _ [b, a] rest).symm, List.Perm.refl _⟩
  · exact ⟨items, (List.append_nil _).symm, List.Perm.refl _⟩

theorem firstRun_length (before : α → α → Bool) (item : α) (items : List α) :
    (firstRun before (item :: items)).2.length ≤ items.length := by
  cases items with
  | nil => exact Nat.le_refl _
  | cons b rest =>
    unfold firstRun
    dsimp only
    split
    · exact (chain_length _ [b, item] rest).trans (Nat.le_succ _)
    · exact (chain_length _ [b, item] rest).trans (Nat.le_succ _)

theorem insertItem_perm (before : α → α → Bool) (run : List α) (item : α) :
    (insertItem before run item).Perm (run ++ [item]) := by
  unfold insertItem
  dsimp only
  generalize firstCount (· / 2) (!before item ·) run = count
  have hmoved : ([item] ++ run.drop count).Perm (run.drop count ++ [item]) := List.perm_append_comm
  have h : (run.take count ++ item :: run.drop count).Perm (run.take count ++ (run.drop count ++ [item])) :=
    hmoved.append_left (run.take count)
  rwa [← List.append_assoc, List.take_append_drop] at h

theorem foldl_insertItem_perm (before : α → α → Bool) (run items : List α) :
    (items.foldl (insertItem before) run).Perm (run ++ items) := by
  induction items generalizing run with
  | nil => simp
  | cons item items ih =>
    have h := (ih (insertItem before run item)).trans ((insertItem_perm before run item).append_right items)
    rwa [List.append_assoc] at h

section Order

variable [LinearOrder β] {place : α → β}

/-- A later item is before an earlier one where its place is. -/
def Tells (before : α → α → Bool) (place : α → β) (items : List α) : Prop :=
  items.Pairwise fun x y => before y x = decide (place y < place x)

theorem tells_append {xs ys : List α} :
    Tells before place (xs ++ ys) ↔ Tells before place xs ∧ Tells before place ys ∧ Agrees before place xs ys :=
  List.pairwise_append

theorem firstRun_rising (h : Tells before place items) : Rising place (firstRun before items).1 := by
  unfold firstRun
  split
  · next a b rest =>
    have hab : before b a = decide (place b < place a) := (List.pairwise_cons.mp h).1 b List.mem_cons_self
    split
    · next hfalls =>
      rw [hab, decide_eq_true_iff] at hfalls
      refine chain_pairwise (fun a b c => le_trans) (by simpa using hfalls.le) (h.imp fun {x y} hxy hbefore => ?_)
      rw [hxy, decide_eq_true_iff] at hbefore
      exact hbefore.le
    · next hrises =>
      rw [hab, decide_eq_true_iff, not_lt] at hrises
      refine List.pairwise_reverse.mpr
        (chain_pairwise (r := fun a b => place b ≤ place a) (fun a b c hab hbc => hbc.trans hab) (by simpa using hrises)
          (h.imp fun {x y} hxy hbefore => ?_))
      rwa [hxy, ← decide_not, decide_eq_true_iff, not_lt] at hbefore
  · next hshort =>
    cases items with
    | nil => exact List.Pairwise.nil
    | cons a items =>
      cases items with
      | nil => exact List.pairwise_singleton _ a
      | cons b rest => exact absurd rfl (hshort a b rest)

theorem insertItem_rising (hrun : Rising place run) (hagrees : Agrees before place run [item]) :
    Rising place (insertItem before run item) := by
  have hitem : item ∈ [item] := List.mem_cons_self
  have hlead := hagrees.leading_left hrun hitem
  obtain ⟨hfront, hback⟩ := hlead.cut (firstCount_eq half_lt hlead)
  unfold insertItem
  dsimp only
  generalize firstCount (· / 2) (!before item ·) run = count at hfront hback
  have hsplit := List.pairwise_append.mp ((List.take_append_drop count run).symm ▸ hrun)
  refine List.pairwise_append.mpr ⟨hsplit.1, List.pairwise_cons.mpr ⟨?_, hsplit.2.1⟩, ?_⟩
  · intro x hx
    exact (hagrees.lt (List.mem_of_mem_drop hx) hitem (hback x hx)).le
  · intro x hx y hy
    rcases List.mem_cons.mp hy with rfl | hy
    · exact hagrees.le (List.mem_of_mem_take hx) hitem (hfront x hx)
    · exact hsplit.2.2 x hx y hy

theorem foldl_insertItem_rising (hrun : Rising place run) (hitems : Tells before place items)
    (hagrees : Agrees before place run items) : Rising place (items.foldl (insertItem before) run) := by
  induction items generalizing run with
  | nil => exact hrun
  | cons item items ih =>
    obtain ⟨hitem, hrest⟩ := List.pairwise_cons.mp hitems
    refine ih (insertItem_rising hrun fun x hx y hy => ?_) hrest fun x hx y hy => ?_
    · rw [List.mem_singleton.mp hy]
      exact hagrees x hx item List.mem_cons_self
    · rcases List.mem_append.mp ((insertItem_perm before run item).mem_iff.mp hx) with hx | hx
      · exact hagrees x hx y (List.mem_cons_of_mem _ hy)
      · rw [List.mem_singleton.mp hx]
        exact hitem y hy

end Order

/-! ## Pending runs -/

namespace Pending

variable {pending : Pending α}

/-- All items of the runs that wait. -/
def content (pending : Pending α) : List α := pending.runs.flatten

theorem mergeLatest_perm (before : α → α → Bool) (pending : Pending α) :
    (pending.mergeLatest before).content.Perm pending.content := by
  obtain ⟨runs, patience⟩ := pending
  unfold mergeLatest
  dsimp only
  split
  · next c b rest =>
    have h := (mergeRuns_perm before patience b c).trans List.perm_append_comm
    have h' := h.append_right rest.flatten
    rwa [List.append_assoc] at h'
  · exact List.Perm.refl _

theorem mergeEarlier_perm (before : α → α → Bool) (pending : Pending α) :
    (pending.mergeEarlier before).content.Perm pending.content := by
  obtain ⟨runs, patience⟩ := pending
  unfold mergeEarlier
  dsimp only
  split
  · next c b a rest =>
    have h := (mergeRuns_perm before patience a b).trans List.perm_append_comm
    have h' := (h.append_right rest.flatten).append_left c
    rwa [List.append_assoc] at h'
  · exact List.Perm.refl _

theorem mergeLatest_length (before : α → α → Bool) (pending : Pending α) :
    (pending.mergeLatest before).runs.length = pending.runs.length - if 2 ≤ pending.runs.length then 1 else 0 := by
  obtain ⟨runs, patience⟩ := pending
  unfold mergeLatest
  match runs with
  | [] => rfl
  | [_] => rfl
  | _ :: _ :: rest => simp

theorem mergeEarlier_length (before : α → α → Bool) {pending : Pending α}
    (h : earlierIsShorter pending.runs = true) :
    (pending.mergeEarlier before).runs.length = pending.runs.length - 1 := by
  obtain ⟨runs, patience⟩ := pending
  unfold mergeEarlier
  match runs with
  | [] => rfl
  | [_] => cases h
  | [_, _] => cases h
  | _ :: _ :: _ :: rest => simp

/-- What both merges keep, balancing keeps. -/
theorem balance_keeps (before : α → α → Bool) {q : Pending α → Prop}
    (hlatest : ∀ pending, q pending → q (pending.mergeLatest before))
    (hearlier : ∀ pending, q pending → q (pending.mergeEarlier before)) (fuel : Nat) (pending : Pending α)
    (h : q pending) : q (pending.balance before fuel) := by
  fun_induction balance before fuel pending with
  | case1 => exact h
  | case2 fuel pending c b rest hruns hshort ih =>
    refine ih ?_
    split
    · exact hearlier _ h
    · exact hlatest _ h
  | case3 fuel pending c b rest hruns _ _ ih => exact ih (hlatest _ h)
  | case4 => exact h
  | case5 => exact h

/-- The runs that both merges leave in the end are one. -/
theorem close_keeps (before : α → α → Bool) {q : Pending α → Prop}
    (hlatest : ∀ pending, q pending → q (pending.mergeLatest before))
    (hearlier : ∀ pending, q pending → q (pending.mergeEarlier before)) (fuel : Nat) (pending : Pending α)
    (h : q pending) (hfuel : pending.runs.length ≤ fuel) :
    ∃ last, q last ∧ last.runs.length ≤ 1 ∧ pending.close before fuel = last.runs.flatten := by
  fun_induction close before fuel pending with
  | case1 pending =>
    have hnil := List.length_eq_zero_iff.mp (Nat.le_zero.mp hfuel)
    exact ⟨pending, h, by simp [hnil], by simp [hnil]⟩
  | case2 fuel pending hruns => exact ⟨pending, h, by simp [hruns], by simp [hruns]⟩
  | case3 fuel pending run hruns => exact ⟨pending, h, by simp [hruns], by simp [hruns]⟩
  | case4 fuel pending hnil hone ih =>
    have htwo : 2 ≤ pending.runs.length := by
      match hruns : pending.runs with
      | [] => exact absurd hruns hnil
      | [run] => exact absurd hruns (hone run)
      | _ :: _ :: rest => simp
    refine ih ?_ ?_
    · split
      · exact hearlier _ h
      · exact hlatest _ h
    · split
      · next hshort =>
        rw [mergeEarlier_length before hshort]
        omega
      · rw [mergeLatest_length, if_pos htwo]
        omega

section Order

variable [LinearOrder β] {place : α → β}

/-- Pending runs are in order: each rises, and each agrees with those after it and with the items that come. -/
structure Ordered (before : α → α → Bool) (place : α → β) (coming : List α) (pending : Pending α) : Prop where
  rising : ∀ run ∈ pending.runs, Rising place run
  agrees : pending.runs.Pairwise fun later earlier => Agrees before place earlier later
  coming : ∀ run ∈ pending.runs, Agrees before place run coming

theorem agrees_of_perm_left {xs ys zs : List α} (h : xs.Perm ys) (hys : Agrees before place ys zs) :
    Agrees before place xs zs := fun x hx z hz => hys x (h.mem_iff.mp hx) z hz

theorem agrees_of_perm_right {xs ys zs : List α} (h : ys.Perm zs) (hzs : Agrees before place xs zs) :
    Agrees before place xs ys := fun x hx y hy => hzs x hx y (h.mem_iff.mp hy)

theorem agrees_append_left {xs ys zs : List α} (hxs : Agrees before place xs zs) (hys : Agrees before place ys zs) :
    Agrees before place (xs ++ ys) zs := fun x hx z hz =>
  (List.mem_append.mp hx).elim (fun hx => hxs x hx z hz) fun hx => hys x hx z hz

theorem agrees_append_right {xs ys zs : List α} (hys : Agrees before place xs ys) (hzs : Agrees before place xs zs) :
    Agrees before place xs (ys ++ zs) := fun x hx y hy =>
  (List.mem_append.mp hy).elim (hys x hx y) (hzs x hx y)

theorem Ordered.mergeLatest {coming : List α} (h : Ordered before place coming pending) :
    Ordered before place coming (pending.mergeLatest before) := by
  obtain ⟨runs, patience⟩ := pending
  unfold Pending.mergeLatest
  dsimp only
  split
  · next c b rest =>
    obtain ⟨hrising, hagrees, hcoming⟩ := h
    obtain ⟨hc, hagrees⟩ := List.pairwise_cons.mp hagrees
    obtain ⟨hb, hagrees⟩ := List.pairwise_cons.mp hagrees
    simp only [List.forall_mem_cons] at hrising hcoming hc
    have hperm := mergeRuns_perm before patience b c
    constructor
    · refine List.forall_mem_cons.mpr ⟨?_, hrising.2.2⟩
      exact mergeRuns_rising hrising.2.1 hrising.1 hc.1 patience
    · refine List.pairwise_cons.mpr ⟨fun a ha => ?_, hagrees⟩
      exact agrees_of_perm_right hperm (agrees_append_right (hb a ha) (hc.2 a ha))
    · refine List.forall_mem_cons.mpr ⟨?_, hcoming.2.2⟩
      exact agrees_of_perm_left hperm (agrees_append_left hcoming.2.1 hcoming.1)
  · exact h

theorem Ordered.mergeEarlier {coming : List α} (h : Ordered before place coming pending) :
    Ordered before place coming (pending.mergeEarlier before) := by
  obtain ⟨runs, patience⟩ := pending
  unfold Pending.mergeEarlier
  dsimp only
  split
  · next c b a rest =>
    obtain ⟨hrising, hagrees, hcoming⟩ := h
    obtain ⟨hc, hagrees⟩ := List.pairwise_cons.mp hagrees
    obtain ⟨hb, hagrees⟩ := List.pairwise_cons.mp hagrees
    obtain ⟨ha, hagrees⟩ := List.pairwise_cons.mp hagrees
    simp only [List.forall_mem_cons] at hrising hcoming hc hb
    have hperm := mergeRuns_perm before patience a b
    constructor
    · refine List.forall_mem_cons.mpr ⟨hrising.1, List.forall_mem_cons.mpr ⟨?_, hrising.2.2.2⟩⟩
      exact mergeRuns_rising hrising.2.2.1 hrising.2.1 hb.1 patience
    · refine List.pairwise_cons.mpr
        ⟨List.forall_mem_cons.mpr ⟨?_, hc.2.2⟩, List.pairwise_cons.mpr ⟨fun e he => ?_, hagrees⟩⟩
      · exact agrees_of_perm_left hperm (agrees_append_left hc.2.1 hc.1)
      · exact agrees_of_perm_right hperm (agrees_append_right (ha e he) (hb.2 e he))
    · refine List.forall_mem_cons.mpr ⟨hcoming.1, List.forall_mem_cons.mpr ⟨?_, hcoming.2.2.2⟩⟩
      exact agrees_of_perm_left hperm (agrees_append_left hcoming.2.2.1 hcoming.2.1)
  · exact h

end Order
end Pending

/-! ## All runs -/

/-- The next run, filled up to a length, and the items behind it. -/
def nextRun (before : α → α → Bool) (least : Nat) (items : List α) : List α × List α :=
  let missing := least - (firstRun before items).1.length
  (((firstRun before items).2.take missing).foldl (insertItem before) (firstRun before items).1,
    (firstRun before items).2.drop missing)

/-- Puts a run at the end of those that wait. -/
def Pending.grown (before : α → α → Bool) (run : List α) (pending : Pending α) : Pending α :=
  balance before (run :: pending.runs).length ⟨run :: pending.runs, pending.patience⟩

theorem sortRuns_cons (before : α → α → Bool) (least fuel : Nat) (pending : Pending α) (item : α) (items : List α) :
    sortRuns before least (fuel + 1) pending (item :: items) =
      sortRuns before least fuel (pending.grown before (nextRun before least (item :: items)).1)
        (nextRun before least (item :: items)).2 := rfl

theorem nextRun_split (before : α → α → Bool) (least : Nat) (items : List α) :
    ∃ front, items = front ++ (nextRun before least items).2 ∧ (nextRun before least items).1.Perm front := by
  obtain ⟨front, hsplit, hfront⟩ := firstRun_split before items
  unfold nextRun
  dsimp only
  generalize least - (firstRun before items).1.length = missing
  refine ⟨front ++ (firstRun before items).2.take missing, ?_, ?_⟩
  · rwa [List.append_assoc, List.take_append_drop]
  · exact (foldl_insertItem_perm before _ _).trans (hfront.append_right _)

theorem nextRun_length (before : α → α → Bool) (least : Nat) (item : α) (items : List α) :
    (nextRun before least (item :: items)).2.length ≤ items.length := by
  have h := firstRun_length before item items
  unfold nextRun
  dsimp only
  rw [List.length_drop]
  omega

theorem grown_perm (before : α → α → Bool) (run : List α) (pending : Pending α) :
    (pending.grown before run).content.Perm (run ++ pending.content) := by
  refine Pending.balance_keeps before (q := fun p => p.content.Perm (run ++ pending.content)) ?_ ?_ _ _ (List.Perm.refl _)
  · exact fun p h => (Pending.mergeLatest_perm before p).trans h
  · exact fun p h => (Pending.mergeEarlier_perm before p).trans h

theorem sortRuns_perm (before : α → α → Bool) (least : Nat) : ∀ (fuel : Nat) (pending : Pending α) (items : List α),
    items.length ≤ fuel → (sortRuns before least fuel pending items).content.Perm (pending.content ++ items)
  | fuel, pending, [], _ => by
    rw [List.append_nil]
    cases fuel <;> exact List.Perm.refl _
  | 0, _, _ :: _, hfuel => by
    rw [List.length_cons] at hfuel
    omega
  | fuel + 1, pending, item :: items, hfuel => by
    have hlength := nextRun_length before least item items
    rw [List.length_cons] at hfuel
    rw [sortRuns_cons]
    refine (sortRuns_perm before least fuel _ _ (by omega)).trans ?_
    obtain ⟨front, hsplit, hfront⟩ := nextRun_split before least (item :: items)
    generalize nextRun before least (item :: items) = next at *
    rw [hsplit, ← List.append_assoc]
    refine ((grown_perm before _ pending).trans ?_).append_right next.2
    exact (hfront.append_right _).trans List.perm_append_comm

/-- Sorting keeps the items, whatever the order. -/
theorem sort_perm (before : α → α → Bool) (items : List α) : (sort before items).Perm items := by
  have hruns := sortRuns_perm before (leastRun items.length) items.length ⟨[], Merge.longStreak⟩ items (Nat.le_refl _)
  unfold sort
  dsimp only
  generalize sortRuns before (leastRun items.length) items.length ⟨[], Merge.longStreak⟩ items = pending at hruns
  obtain ⟨last, hlast, -, hclose⟩ := Pending.close_keeps before
    (q := fun p => p.content.Perm pending.content) (fun p h => (Pending.mergeLatest_perm before p).trans h)
    (fun p h => (Pending.mergeEarlier_perm before p).trans h) pending.runs.length pending (List.Perm.refl _)
    (Nat.le_refl _)
  rw [hclose]
  exact hlast.trans hruns

section Order

variable [LinearOrder β] {place : α → β}

theorem nextRun_rising (least : Nat) (h : Tells before place items) : Rising place (nextRun before least items).1 := by
  obtain ⟨front, hsplit, hfront⟩ := firstRun_split before items
  have hparts := tells_append.mp (hsplit ▸ h)
  unfold nextRun
  dsimp only
  generalize hmissing : least - (firstRun before items).1.length = missing
  refine foldl_insertItem_rising (firstRun_rising h) (hparts.2.1.sublist (List.take_sublist _ _)) ?_
  intro x hx y hy
  exact hparts.2.2 x (hfront.mem_iff.mp hx) y (List.mem_of_mem_take hy)

theorem Pending.Ordered.grown {pending : Pending α} {front : List α}
    (h : Ordered before place (front ++ rest) pending) (hrun : run.Perm front) (hrising : Rising place run)
    (hitems : Tells before place (front ++ rest)) : Ordered before place rest (pending.grown before run) := by
  refine balance_keeps before (q := Ordered before place rest) (fun _ => Ordered.mergeLatest) (fun _ => Ordered.mergeEarlier)
    _ _ ?_
  constructor
  · exact List.forall_mem_cons.mpr ⟨hrising, h.rising⟩
  · refine List.pairwise_cons.mpr ⟨fun earlier hearlier x hx y hy => ?_, h.agrees⟩
    exact h.coming earlier hearlier x hx y (List.mem_append_left _ (hrun.mem_iff.mp hy))
  · refine List.forall_mem_cons.mpr ⟨?_, fun earlier hearlier x hx y hy => ?_⟩
    · exact agrees_of_perm_left hrun (tells_append.mp hitems).2.2
    · exact h.coming earlier hearlier x hx y (List.mem_append_right _ hy)

theorem sortRuns_ordered (least : Nat) : ∀ (fuel : Nat) (pending : Pending α) (items : List α),
    items.length ≤ fuel → Tells before place items → Pending.Ordered before place items pending →
      Pending.Ordered before place [] (sortRuns before least fuel pending items)
  | fuel, pending, [], _, _, h => by cases fuel <;> exact h
  | 0, _, _ :: _, hfuel, _, _ => by
    rw [List.length_cons] at hfuel
    omega
  | fuel + 1, pending, item :: items, hfuel, hitems, h => by
    have hlength := nextRun_length before least item items
    have hrising := nextRun_rising least hitems
    rw [List.length_cons] at hfuel
    rw [sortRuns_cons]
    obtain ⟨front, hsplit, hfront⟩ := nextRun_split before least (item :: items)
    generalize nextRun before least (item :: items) = next at *
    rw [hsplit] at hitems h
    exact sortRuns_ordered least fuel _ _ (by omega) (tells_append.mp hitems).2.1 (h.grown hfront hrising hitems)

/-- Items of which a later one is before an earlier one just where its place is come out in the order of their places. -/
theorem sort_rising (h : Tells before place items) : Rising place (sort before items) := by
  have hempty : Pending.Ordered before place items ⟨[], Merge.longStreak⟩ :=
    ⟨fun _ hrun => (nomatch hrun), List.Pairwise.nil, fun _ hrun => nomatch hrun⟩
  have hruns := sortRuns_ordered (leastRun items.length) items.length _ items (Nat.le_refl _) h hempty
  unfold sort
  dsimp only
  generalize sortRuns before (leastRun items.length) items.length ⟨[], Merge.longStreak⟩ items = pending at hruns
  obtain ⟨last, hlast, hone, hclose⟩ := Pending.close_keeps before (q := Pending.Ordered before place [])
    (fun _ => Pending.Ordered.mergeLatest) (fun _ => Pending.Ordered.mergeEarlier) pending.runs.length pending hruns
    (Nat.le_refl _)
  rw [hclose]
  match hlist : last.runs with
  | [] => exact List.Pairwise.nil
  | [run] =>
    rw [List.flatten_singleton]
    exact hlast.rising run (by simp [hlist])
  | _ :: _ :: rest => simp [hlist] at hone

end Order
end Stencil.Sorting
