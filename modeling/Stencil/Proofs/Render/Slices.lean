import Mathlib.Algebra.Order.Ring.Int
import Mathlib.Data.List.Basic
import Mathlib.Tactic.Ring
import Stencil.Proofs.Running
import Stencil.Render.Access

/-!
Slices of lists and of plain texts. A slice starts and stops at places that are held to its items. It goes on by its
step as long as it has not come to its stop, which it does, and reads an item each time.
-/
namespace Stencil

/-! ## Going on by a step -/

section strides

variable {stop step i j : Int} {rounds k : Nat}

/-- How far ahead the stop lies, in the direction of a step. -/
def distance (stop step i : Int) : Int := if 0 < step then stop - i else i - stop

theorem isBefore_iff : isBefore stop step i = true ↔ 0 < distance stop step i := by
  unfold isBefore distance
  split
  · rw [decide_eq_true_iff, Int.sub_pos]
  · rw [decide_eq_true_iff, Int.sub_pos]

theorem distance_add (stop i : Int) (k : Nat) :
    distance stop step (i + k * step) = distance stop step i - k * step.natAbs := by
  unfold distance
  split
  · have habs : (step.natAbs : Int) = step := by omega
    rw [habs]
    ring
  · have habs : (step.natAbs : Int) = -step := by omega
    rw [habs]
    ring

/-- No step leads back to what lies before the stop. -/
theorem not_isBefore_add (h : isBefore stop step i = false) (k : Nat) : isBefore stop step (i + k * step) = false := by
  rw [Bool.eq_false_iff, ne_eq, isBefore_iff, distance_add]
  rw [Bool.eq_false_iff, ne_eq, isBefore_iff] at h
  have hback : (0 : Int) ≤ k * step.natAbs := Int.mul_nonneg (Int.natCast_nonneg k) (Int.natCast_nonneg _)
  omega

theorem getElem?_strides (h : (strides stop step rounds i)[k]? = some j) :
    j = i + k * step ∧ isBefore stop step j = true := by
  induction rounds generalizing i k with
  | zero => cases h
  | succ rounds ih =>
    unfold strides at h
    split at h
    · rename_i hbefore
      cases k with
      | zero =>
        obtain rfl := Option.some.inj h
        exact ⟨by simp, hbefore⟩
      | succ k =>
        obtain ⟨hj, hbefore⟩ := ih h
        refine ⟨?_, hbefore⟩
        rw [hj]
        push_cast
        ring
    · cases h

/-- With a round for each place up to the stop, the loop goes on exactly as long as it has not come there. -/
theorem lt_length_strides_iff (hstep : step ≠ 0) (hrounds : distance stop step i ≤ rounds) :
    k < (strides stop step rounds i).length ↔ isBefore stop step (i + k * step) = true := by
  induction rounds generalizing i k with
  | zero =>
    have hend : isBefore stop step i = false := by
      rw [Bool.eq_false_iff, ne_eq, isBefore_iff]
      omega
    rw [not_isBefore_add hend k]
    simp [strides]
  | succ rounds ih =>
    unfold strides
    split
    · rename_i hbefore
      cases k with
      | zero => simpa using hbefore
      | succ k =>
        have hnext : distance stop step (i + step) ≤ rounds := by
          have hadd : distance stop step (i + (1 : Nat) * step) = _ := distance_add stop i 1
          rw [Int.natCast_one, Int.one_mul, Int.one_mul] at hadd
          omega
        have hplace : i + step + k * step = i + (k + 1 : Nat) * step := by
          push_cast
          ring
        rw [List.length_cons, Nat.add_lt_add_iff_right, ih hnext, hplace]
    · rename_i hend
      rw [not_isBefore_add (Bool.eq_false_iff.mpr hend) k]
      simp

end strides

/-! ## Places -/

namespace Slice

/-- The place that an integer names among `n` items, from the end if it is negative. It is held to the places from the
first one to the one behind the last, or with a step back to those from the one before the first to the last. -/
def place (n : Nat) (step i : Int) : Int :=
  let named := if i < 0 then n + i else i
  if 0 < step then max 0 (min named n) else max (-1) (min named (n - 1))

/-- Where a slice of `n` items starts: at the named place, or at the end that it comes from. -/
def first (n : Nat) (step : Int) : Option Int → Int
  | some i => place n step i
  | none => if 0 < step then 0 else n - 1

/-- Where a slice of `n` items stops: at the named place, or behind the end that it goes to. -/
def last (n : Nat) (step : Int) : Option Int → Int
  | some i => place n step i
  | none => if 0 < step then n else -1

/-- A slice of `n` items reads at these positions: at `first` and then by `step`, strictly before `last` in the direction
of the step, and nowhere but at an item. -/
structure Selects (n : Nat) (first last step : Int) (positions : List Nat) : Prop where
  places : ∀ (k p : Nat), positions[k]? = some p → (p : Int) = first + k * step
  ends : ∀ k : Nat, k < positions.length ↔ if 0 < step then first + k * step < last else last < first + k * step
  inside : ∀ p ∈ positions, p < n

variable {n : Nat} {step : Int} {start stop : Option Int}

theorem place_eq (n : Nat) (step omitted i : Int) : slicePlace n step omitted (some i) = place n step i := by
  unfold slicePlace place
  dsimp only
  split <;> split <;> omega

theorem first_eq (n : Nat) (step : Int) (start : Option Int) :
    slicePlace n step (if 0 < step then 0 else n - 1) start = first n step start := by
  cases start with
  | none => rfl
  | some i => exact place_eq n step _ i

theorem last_eq (n : Nat) (step : Int) (stop : Option Int) :
    slicePlace n step (if 0 < step then n else -1) stop = last n step stop := by
  cases stop with
  | none => rfl
  | some i => exact place_eq n step _ i

/-- A step ahead starts at an item or behind them all, and a step back at an item or before them all. -/
theorem first_mem (n : Nat) (step : Int) (start : Option Int) :
    if 0 < step then 0 ≤ first n step start else first n step start < n := by
  cases start with
  | none =>
    unfold first
    dsimp only
    split <;> omega
  | some i =>
    unfold first place
    dsimp only
    split <;> omega

/-- No slice stops beyond the place next to the items. -/
theorem last_mem (n : Nat) (step : Int) (stop : Option Int) :
    if 0 < step then last n step stop ≤ n else -1 ≤ last n step stop := by
  cases stop with
  | none =>
    unfold last
    dsimp only
    split <;> omega
  | some i =>
    unfold last place
    dsimp only
    split <;> omega

theorem distance_le (n : Nat) (step : Int) (start stop : Option Int) :
    distance (last n step stop) step (first n step start) ≤ n := by
  have hfirst := first_mem n step start
  have hlast := last_mem n step stop
  unfold distance
  split
  · rename_i hahead
    rw [if_pos hahead] at hfirst hlast
    omega
  · rename_i hback
    rw [if_neg hback] at hfirst hlast
    omega

/-- What lies before the stop and not before the start is an item. -/
theorem inside_of_isBefore {k : Nat} (hbefore : isBefore (last n step stop) step (first n step start + k * step) = true) :
    0 ≤ first n step start + k * step ∧ first n step start + k * step < n := by
  have hfirst := first_mem n step start
  have hlast := last_mem n step stop
  unfold isBefore at hbefore
  split at hbefore
  · rename_i hahead
    rw [if_pos hahead] at hfirst hlast
    have hgone : 0 ≤ k * step := Int.mul_nonneg (Int.natCast_nonneg k) (Int.le_of_lt hahead)
    have := of_decide_eq_true hbefore
    omega
  · rename_i hback
    rw [if_neg hback] at hfirst hlast
    have hgone : k * step ≤ 0 := Int.mul_nonpos_of_nonneg_of_nonpos (Int.natCast_nonneg k) (Int.not_lt.mp hback)
    have := of_decide_eq_true hbefore
    omega

theorem selects_slicePositions (n : Nat) (start stop : Option Int) (hstep : step ≠ 0) :
    Selects n (first n step start) (last n step stop) step (slicePositions n start stop step) := by
  have hread : ∀ (k p : Nat), (slicePositions n start stop step)[k]? = some p →
      (p : Int) = first n step start + k * step ∧ p < n := by
    intro k p hp
    unfold slicePositions at hp
    rw [first_eq, last_eq, List.getElem?_map] at hp
    obtain ⟨j, hj, rfl⟩ := Option.map_eq_some_iff.mp hp
    obtain ⟨rfl, hbefore⟩ := getElem?_strides hj
    obtain ⟨hlow, hhigh⟩ := inside_of_isBefore hbefore
    omega
  refine ⟨fun k p hp => (hread k p hp).1, fun k => ?_, fun p hp => ?_⟩
  · unfold slicePositions
    rw [first_eq, last_eq, List.length_map, lt_length_strides_iff hstep (distance_le n step start stop)]
    unfold isBefore
    split <;> exact decide_eq_true_iff
  · obtain ⟨k, hk⟩ := List.getElem?_of_mem hp
    exact (hread k p hk).2

end Slice

/-! ## Slices of values -/

namespace Eval

variable {s : Store} {v start stop step : Value} {a b c : Option Int} {items : List Value}

/-- What is given for a bound or for the step of a slice: an integer, or nothing. -/
inductive Gave : Value → Option Int → Prop where
  | integer {x : Number} {i : Int} (hx : x.toInt? = some i) : Gave (.number x) (some i)
  | none : Gave .none none
  | absent : Gave .absent none

theorem sliceBound_eq (h : Gave v a) : sliceBound v s = .ok a s := by
  cases h with
  | integer hx =>
    unfold sliceBound
    dsimp only
    rw [hx]
    rfl
  | none => rfl
  | absent => rfl

/-- A position that is an item picks it. -/
theorem forall₂_picked {α : Type} {items : List α} {positions : List Nat} (h : ∀ p ∈ positions, p < items.length) :
    List.Forall₂ (fun p x => items[p]? = some x) positions (positions.filterMap (items[·]?)) := by
  induction positions with
  | nil => exact .nil
  | cons p positions ih =>
    obtain ⟨hp, h⟩ := List.forall_mem_cons.mp h
    rw [List.filterMap_cons_some (List.getElem?_eq_getElem hp)]
    exact .cons (List.getElem?_eq_getElem hp) (ih h)

theorem slice_list {id : ListId} (hstart : Gave start a) (hstop : Gave stop b) (hstep : Gave step c)
    (hc : c.getD 1 ≠ 0) : slice (.list id) start stop step s =
      newList ((slicePositions (s.list id).length a b (c.getD 1)).filterMap ((s.list id)[·]?)) s := by
  have hsequence : sequence? s (.list id) = some (s.list id) := rfl
  unfold slice
  dsimp only
  rw [bind_ok (show (get : Eval Store) s = .ok s s from rfl), hsequence]
  dsimp only
  rw [bind_ok (sliceBound_eq hstep), if_neg hc, bind_ok (sliceBound_eq hstart), bind_ok (sliceBound_eq hstop)]
  simp only [List.getElem?_toArray]

theorem flatMap_text (points : List Text) :
    ((points.map Value.text).flatMap fun x => (x.text?).getD []) = points.flatten := by
  rw [List.flatMap_map]
  exact List.flatMap_id

theorem slice_text {t : Text} (hstart : Gave start a) (hstop : Gave stop b) (hstep : Gave step c)
    (hc : c.getD 1 ≠ 0) : slice (.text t) start stop step s =
      .ok (.text ((slicePositions t.points.length a b (c.getD 1)).filterMap (t.points[·]?)).flatten) s := by
  have hsequence : sequence? s (.text t) = some (t.points.map .text) := rfl
  unfold slice
  dsimp only
  rw [bind_ok (show (get : Eval Store) s = .ok s s from rfl), hsequence]
  dsimp only
  rw [bind_ok (sliceBound_eq hstep), if_neg hc, bind_ok (sliceBound_eq hstart), bind_ok (sliceBound_eq hstop)]
  simp only [List.getElem?_toArray, List.getElem?_map, ← List.map_filterMap, flatMap_text, List.length_map]
  rfl

/-- A slice of a list or of a plain text has the items that it selects, in the order in which it comes to them: those of
the list, or the code points of the text. -/
theorem slice_selects (s : Store) (hstart : Gave start a) (hstop : Gave stop b) (hstep : Gave step c)
    (hc : c.getD 1 ≠ 0) :
    (∀ id, ∃ positions picked,
      Slice.Selects (s.list id).length (Slice.first (s.list id).length (c.getD 1) a)
        (Slice.last (s.list id).length (c.getD 1) b) (c.getD 1) positions ∧
      List.Forall₂ (fun p x => (s.list id)[p]? = some x) positions picked ∧
      slice (.list id) start stop step s = .ok (.list s.lists.size) (s.newList picked).2 ∧
      (s.newList picked).2.list s.lists.size = picked) ∧
    (∀ t : Text, ∃ positions picked,
      Slice.Selects t.points.length (Slice.first t.points.length (c.getD 1) a)
        (Slice.last t.points.length (c.getD 1) b) (c.getD 1) positions ∧
      List.Forall₂ (fun p x => t.points[p]? = some x) positions picked ∧
      slice (.text t) start stop step s = .ok (.text picked.flatten) s) := by
  refine ⟨fun id => ?_, fun t => ?_⟩
  · have hselects := Slice.selects_slicePositions (s.list id).length a b hc
    refine ⟨_, _, hselects, forall₂_picked hselects.inside, slice_list hstart hstop hstep hc, ?_⟩
    simp [Store.newList, Store.list]
  · have hselects := Slice.selects_slicePositions t.points.length a b hc
    exact ⟨_, _, hselects, forall₂_picked hselects.inside, slice_text hstart hstop hstep hc⟩

/-- Every second character of three, from the last one back to a stop before the first. The one between is a pair. -/
theorem slice_selects_of_back :
    let t : Text := [97, 0xD83D, 0xDE00, 98]
    Gave .none none ∧ Gave (.number (-4)) (some (-4)) ∧ Gave (.number (-2)) (some (-2)) ∧
      Slice.Selects t.points.length 2 (-1) (-2) [2, 0] ∧
      slice (.text t) .none (.number (-4)) (.number (-2)) .empty = .ok (.text [98, 97]) .empty := by
  intro t
  have hstop : Gave (.number (-4)) (some (-4)) := .integer (by decide +kernel)
  have hstep : Gave (.number (-2)) (some (-2)) := .integer (by decide +kernel)
  obtain ⟨positions, picked, hselects, hpicked, hslice⟩ := (slice_selects .empty .none hstop hstep (by decide)).2 t
  obtain ⟨hplaces, hends, -⟩ := id hselects
  have hlength : positions.length = 2 := by
    have hone := (hends 1).mpr (by decide)
    have htwo := mt (hends 2).mp (by decide)
    omega
  obtain ⟨p, q, rfl⟩ := List.length_eq_two.mp hlength
  obtain rfl : p = 2 := Int.ofNat.inj (hplaces 0 p rfl)
  obtain rfl : q = 0 := Int.ofNat.inj (hplaces 1 q rfl)
  obtain _ | ⟨hb, _ | ⟨ha, _ | _⟩⟩ := hpicked
  obtain rfl := Option.some.inj hb
  obtain rfl := Option.some.inj ha
  exact ⟨.none, hstop, hstep, hselects, hslice⟩

end Eval
end Stencil
