import Stencil.Proofs.Render.Sizes
import Stencil.Proofs.Value.Ranking

/-!
The filter that sorts. It keeps the items of every list of numbers and texts. They come out in one order where no text
stands between two numbers that their own texts would order the other way, and in none where one does.
-/
namespace Stencil.Eval

variable {s : Store} {v w : Value} {items others result : List Value} {key : Value → SortKey} {reverse : Bool}

/-- A number or a text, safe or not. -/
inductive IsScalar : Value → Prop where
  | number (x : Number) : IsScalar (.number x)
  | text {v : Value} {t : Text} (h : v.text? = some t) : IsScalar v

/-- What a number or a text is sorted by; case counts only where it is asked for. -/
def scalarKey (caseSensitive : Bool) : Value → SortKey
  | .number x => .number x
  | v =>
    let t := v.text?.getD []
    .text (if caseSensitive then t else t.toLower)

theorem sortKey?_scalar (s : Store) (caseSensitive : Bool) (h : IsScalar v) :
    s.sortKey? caseSensitive v = some (scalarKey caseSensitive v) := by
  cases h with
  | number x => rfl
  | text h =>
    cases v with
    | text _ | safe _ => rfl
    | _ => cases h

theorem mapM_sortKey? (s : Store) (caseSensitive : Bool) (h : ∀ item ∈ items, IsScalar item) :
    items.mapM (s.sortKey? caseSensitive) = some (items.map (scalarKey caseSensitive)) := by
  induction items with
  | nil => rfl
  | cons item items ih =>
    obtain ⟨hitem, hrest⟩ := List.forall_mem_cons.mp h
    rw [List.mapM_cons, sortKey?_scalar s caseSensitive hitem, ih hrest]
    rfl

theorem partition_scalars (h : ∀ item ∈ items, IsScalar item) :
    items.partition (fun v => decide (v = .absent)) = ([], items) := by
  have hpresent : ∀ item ∈ items, decide (item = .absent) = false := by
    intro item hitem
    cases h item hitem with
    | number x => rfl
    | text htext =>
      rw [decide_eq_false_iff_not]
      rintro rfl
      cases htext
  rw [List.partition_eq_filter_filter, List.filter_eq_nil_iff.mpr fun item hitem => by simp [hpresent item hitem],
    List.filter_eq_self.mpr fun item hitem => by simp [hpresent item hitem]]

/-- Numbers and texts can always be sorted, by keys that no store changes. -/
theorem sorted?_scalars (s : Store) (caseSensitive : Bool) (h : ∀ item ∈ items, IsScalar item) :
    s.sorted? caseSensitive items = some (Sorting.sortBy (scalarKey caseSensitive) items) := by
  unfold Store.sorted?
  rw [partition_scalars h]
  dsimp only
  rw [mapM_sortKey? s caseSensitive h]
  exact congrArg some (List.append_nil _)

/-- The items as the filter gives them: sorted, and turned where the order is reversed. -/
def arranged (key : Value → SortKey) (reverse : Bool) (items : List Value) : List Value :=
  if reverse then (Sorting.sortBy key items).reverse else Sorting.sortBy key items

theorem applyFilter_sort (hitems : s.items? v = some items) (h : ∀ item ∈ items, IsScalar item) (a : Arguments) :
    applyFilter .sort v a s = newList (arranged (scalarKey (s.isTruthy (a.get 1 "case_sensitive")))
      (s.isTruthy (a.get 0 "reverse")) items) s := by
  have hsorted := sorted?_scalars s (s.isTruthy (a.get 1 "case_sensitive")) h
  have hread := readDeep_eq (f := (·.sorted? (s.isTruthy (a.get 1 "case_sensitive")) items)) hsorted
  change (Eval.items v >>= _) s = _
  rw [bind_ok (items_eq hitems)]
  exact bind_ok hread

theorem arranged_perm (key : Value → SortKey) (reverse : Bool) (items : List Value) :
    (arranged key reverse items).Perm items := by
  cases reverse with
  | false => exact Sorting.sortBy_perm key items
  | true => exact (List.reverse_perm _).trans (Sorting.sortBy_perm key items)

/-- No item ranks before an earlier one; in the reversed order, none before a later one. -/
def InOrder (key : Value → SortKey) (reverse : Bool) (result : List Value) : Prop :=
  result.Pairwise fun v w => (if reverse then (key v).before (key w) else (key w).before (key v)) = false

/-- Items of equal rank come as they stood among the items; in the reversed order, the other way round. -/
def Stable (key : Value → SortKey) (reverse : Bool) (items result : List Value) : Prop :=
  ∀ item ∈ items, result.filter (fun v => (key item).ties (key v)) =
    let equals := items.filter fun v => (key item).ties (key v)
    if reverse then equals.reverse else equals

theorem arranged_inOrder (h : SortKey.Parted (items.map key)) : InOrder key reverse (arranged key reverse items) := by
  cases reverse with
  | false => exact Sorting.sortBy_ordered h
  | true => exact List.pairwise_reverse.mpr (Sorting.sortBy_ordered h)

theorem arranged_stable (h : SortKey.Parted (items.map key)) :
    Stable key reverse items (arranged key reverse items) := by
  intro item hitem
  cases reverse with
  | false => exact Sorting.sortBy_stable h hitem
  | true => exact List.filter_reverse.trans (congrArg List.reverse (Sorting.sortBy_stable h hitem))

/-- Two lists have keys of equal rank in each place. -/
def SameKeys (key : Value → SortKey) (xs ys : List Value) : Prop :=
  List.Forall₂ (fun v w => (key v).ties (key w) = true) xs ys

theorem arranged_sameKeys (h : SortKey.Parted (items.map key)) (hperm : items.Perm others) :
    SameKeys key (arranged key reverse items) (arranged key reverse others) := by
  have hsame := Sorting.sortBy_rearranged h hperm
  cases reverse with
  | false => exact hsame
  | true => exact List.forall₂_reverse_iff.mpr hsame

/-- Two numbers and a text that rank in a circle: one number below the other, but its own text behind the text, and that
behind the text of the other. -/
def Circle (keys : List SortKey) : Prop :=
  ∃ x y t, .number x ∈ keys ∧ .number y ∈ keys ∧ .text t ∈ keys ∧ x.lt y = true ∧ Text.before y.toText t = true ∧
    Text.before t x.toText = true

theorem not_inOrder_of_circle (h : Circle (items.map key)) (hperm : result.Perm items) :
    ¬ InOrder key reverse result := by
  obtain ⟨x, y, t, hx, hy, ht, hxy, hyt, htx⟩ := h
  have hkeys := hperm.map key
  intro horder
  -- A list in the reversed order is in order from its end.
  have hordered : ∃ keys : List SortKey, keys.Perm (items.map key) ∧ keys.Pairwise fun a b => b.before a = false := by
    cases reverse with
    | false => exact ⟨result.map key, hkeys, List.pairwise_map.mpr horder⟩
    | true =>
      exact ⟨(result.map key).reverse, (List.reverse_perm _).trans hkeys,
        List.pairwise_reverse.mpr (List.pairwise_map.mpr horder)⟩
  obtain ⟨keys, hsame, hpairwise⟩ := hordered
  refine SortKey.not_ordered_of_circle hpairwise (hsame.mem_iff.mpr hx) (hsame.mem_iff.mpr hy) (hsame.mem_iff.mpr ht)
    ?_ hyt htx
  rwa [SortKey.before_numbers]

/-- Sorting a list of numbers and texts gives a new list with the same items. They are in order, those of equal rank
stay as they were, and every rearrangement is sorted to the same keys, unless a text stands between two numbers that
their own texts would order the other way; and where it stands strictly between them, the items are in no order. -/
theorem sort_ranks (s : Store) (a : Arguments) (hitems : s.items? v = some items) (h : ∀ item ∈ items, IsScalar item) :
    let reverse := s.isTruthy (a.get 0 "reverse")
    let key := scalarKey (s.isTruthy (a.get 1 "case_sensitive"))
    ∃ result, applyFilter .sort v a s = newList result s ∧ result.Perm items ∧
      (SortKey.Parted (items.map key) → InOrder key reverse result ∧ Stable key reverse items result ∧
        ∀ w others, s.items? w = some others → items.Perm others →
          ∃ result', applyFilter .sort w a s = newList result' s ∧ SameKeys key result result') ∧
      (Circle (items.map key) → ¬ InOrder key reverse result) := by
  intro reverse key
  refine ⟨arranged key reverse items, applyFilter_sort hitems h a, arranged_perm key reverse items, ?_, ?_⟩
  · intro hparted
    refine ⟨arranged_inOrder hparted, arranged_stable hparted, fun w others hothers hperm => ?_⟩
    exact ⟨arranged key reverse others, applyFilter_sort hothers (fun item hitem => h item (hperm.mem_iff.mpr hitem)) a,
      arranged_sameKeys hparted hperm⟩
  · exact fun hcircle => not_inOrder_of_circle hcircle (arranged_perm key reverse items)

/-- Numbers come before a word, in every arrangement; `9` and `10` by size, whatever their texts. -/
theorem sort_ranks_of_mixed :
    let s : Store := { Store.empty with lists := #[[.number 10, .text "a", .number 9]] }
    applyFilter .sort (.list 0) ⟨[], []⟩ s = newList [.number 9, .number 10, .text "a"] s ∧
      InOrder (scalarKey false) false [.number 9, .number 10, .text "a"] := by
  intro s
  have hitems : s.items? (.list 0) = some [.number 10, .text "a", .number 9] := rfl
  have hscalar : ∀ item ∈ [Value.number 10, .text "a", .number 9], IsScalar item := by
    intro item hitem
    simp only [List.mem_cons, List.not_mem_nil, or_false] at hitem
    rcases hitem with rfl | rfl | rfl
    · exact .number 10
    · exact .text rfl
    · exact .number 9
  have hparted : SortKey.Parted ([Value.number 10, .text "a", .number 9].map (scalarKey false)) := by
    constructor
    · decide +kernel
    · intro x y t hx hy ht
      simp only [List.map_cons, List.map_nil, scalarKey, List.mem_cons, List.not_mem_nil, SortKey.number.injEq,
        SortKey.text.injEq, reduceCtorEq, or_false, false_or] at hx hy ht
      subst ht
      have hall : ∀ x ∈ [(10 : Number), 9], ∀ y ∈ [(10 : Number), 9], x.lt y = true →
          Text.before (Text.toLower "a") y.toText = true ∨ Text.before x.toText (Text.toLower "a") = true := by
        decide +kernel
      exact hall x (by simpa using hx) y (by simpa using hy)
  have hcase : s.isTruthy (Arguments.get ⟨[], []⟩ 1 "case_sensitive") = false := rfl
  have hreverse : s.isTruthy (Arguments.get ⟨[], []⟩ 0 "reverse") = false := rfl
  have hsorted : s.sorted? false [.number 10, .text "a", .number 9] = some [.number 9, .number 10, .text "a"] := by
    decide +kernel
  have harranged : arranged (scalarKey false) false [.number 10, .text "a", .number 9] =
      [.number 9, .number 10, .text "a"] := Option.some.inj ((sorted?_scalars s false hscalar).symm.trans hsorted)
  have hrun := applyFilter_sort hitems hscalar ⟨[], []⟩
  obtain ⟨result, hresult, -, hordered, -⟩ := sort_ranks s ⟨[], []⟩ hitems hscalar
  rw [hcase, hreverse] at hrun hordered
  rw [harranged] at hrun
  injection hresult.symm.trans hrun with _ hstore
  obtain rfl : result = [.number 9, .number 10, .text "a"] := congrArg (fun t : Store => t.list 1) hstore
  exact ⟨hrun, (hordered hparted).1⟩

/-- The texts `9` and `10` stand around the text `1a` the other way than the numbers: each of the three ranks before the
next in a circle, and what stands first depends on how they stood. -/
theorem sort_in_circle :
    let nine := Expr.const 1 (.number 9)
    let ten := Expr.const 1 (.number 10)
    let word := Expr.const 1 (.text "1a")
    textOf [] (.filter 1 (.list 1 [nine, ten, word]) "sort" [] []) = .ok "[9, 10, '1a']" ∧
      textOf [] (.filter 1 (.list 1 [word, nine, ten]) "sort" [] []) = .ok "['1a', 9, 10]" ∧
      (SortKey.text "1a").before (.number 9) = true ∧ (SortKey.number 10).before (.text "1a") = true := by
  decide +kernel

end Stencil.Eval
