import Stencil.Proofs.Marking.Calling
import Stencil.Render.Filter

/-! Tests do not see the marks of values, and no filter sees them but the one that reverses. -/
namespace Stencil.Marking

variable {R : Terms} {a b : Arguments} {v w : Value} {xs ys : List Value}

theorem follows_numberArgument (h : R.SameArguments a b) (i : Nat) (name : String) (fallback : Number) :
    Follows R (Eval.numberArgument a i name fallback) (Eval.numberArgument b i name fallback) Eq := by
  unfold Eval.numberArgument
  have harg := h.get i name
  generalize a.get i name = v at harg ⊢
  generalize b.get i name = w at harg ⊢
  cases harg.form with
  | refl =>
    cases v with
    | absent => exact .pure rfl
    | number x => exact .pure rfl
    | _ => exact .throw
  | _ => exact .throw

theorem follows_toNumber? (h : R.Same v w) : Follows R (Eval.toNumber? v) (Eval.toNumber? w) Eq := by
  have hdisplay : Follows R (do return Eval.numberIn? (← Eval.display v))
      (do return Eval.numberIn? (← Eval.display w)) Eq :=
    (follows_display h).bind_same fun _ => .pure rfl
  cases h.form with
  | refl =>
    cases v with
    | number x => exact .pure rfl
    | bool b => exact .pure rfl
    | _ => exact hdisplay
  | _ => exact hdisplay

theorem follows_text {f : Text → Text} (h : R.Same v w) :
    Follows R (do return .text (f (← Eval.display v))) (do return .text (f (← Eval.display w))) R.Same :=
  (follows_display h).bind_same fun _ => .pure (.refl _)

theorem same_fallback : R.Same v w → R.Same
    (match v with
      | .absent | .none => .text []
      | x => x)
    (match w with
      | .absent | .none => .text []
      | y => y) := by
  intro h
  cases h.form with
  | refl => exact Terms.Same.refl _
  | _ => exact h

theorem follows_default (h : R.Same v w) (ha : R.SameArguments a b) :
    Follows R (Eval.applyFilter .default v a) (Eval.applyFilter .default w b) R.Same := by
  have hfallback := same_fallback (ha.get 0 "default_value")
  refine (follows_truthy (ha.get 1 "boolean")).bind_same fun useBoolean => ?_
  have hkeep : ∀ x y, R.Same x y → Follows R (do return if useBoolean && !(← Eval.truthy v) then x else v)
      (do return if useBoolean && !(← Eval.truthy w) then y else w) R.Same := by
    refine fun x y hxy => (follows_truthy h).bind_same fun holds => .pure ?_
    split
    · exact hxy
    · exact h
  cases h.form with
  | undefined r r' => exact .pure hfallback
  | refl =>
    cases v with
    | undefined r => exact .pure hfallback
    | _ => exact hkeep _ _ hfallback
  | _ => exact hkeep _ _ hfallback

theorem follows_reverse (h : R.Same v w) (htarget : v = w ∨ v.text? = none) :
    Follows R (Eval.applyFilter .reverse v a) (Eval.applyFilter .reverse w b) R.Same := by
  have hlist : Follows R (do Eval.newList (← Eval.items v).reverse) (do Eval.newList (← Eval.items w).reverse) R.Same :=
    (follows_items h).bind fun xs ys hxs => follows_newList (List.rel_reverse hxs)
  rcases htarget with rfl | htarget
  · cases v with
    | text t => exact .pure (.refl _)
    | _ => exact hlist
  · cases h.form with
    | refl =>
      cases v with
      | text t => cases htarget
      | _ => exact hlist
    | marked t | unmarked t => cases htarget
    | undefined r r' => exact hlist

/-- Filters give the same for values that are the same, but a text is reversed in another way if it is marked. -/
theorem follows_applyFilter (f : Filter) (h : R.Same v w) (ha : R.SameArguments a b)
    (htarget : f = .reverse → v = w ∨ v.text? = none) :
    Follows R (Eval.applyFilter f v a) (Eval.applyFilter f w b) R.Same := by
  cases f with
  | default => exact follows_default h ha
  | join =>
    refine (follows_items h).bind fun xs ys hxs => (follows_displays hxs).bind_same fun parts => ?_
    exact (follows_display (ha.get 0 "d")).bind_same fun _ => .pure (.refl _)
  | length =>
    refine .get_bind fun s t hst => ?_
    rw [hst.length?_eq h]
    cases t.length? w with
    | some n => exact .pure (.refl _)
    | none => exact .throw
  | replace =>
    refine (follows_display h).bind_same fun text => (follows_display (ha.get 0 "old")).bind_same fun search => ?_
    refine (follows_display (ha.get 1 "new")).bind_same fun replacement => ?_
    have harg := ha.get 2 "count"
    dsimp only
    generalize a.get 2 "count" = x at harg ⊢
    generalize b.get 2 "count" = y at harg ⊢
    cases harg.form <;> exact .pure (.refl _)
  | first => exact (follows_items h).bind fun _ _ hxs => .pure (rel_getD (rel_head? hxs) (.refl _))
  | last => exact (follows_items h).bind fun _ _ hxs => .pure (rel_getD (rel_getLast? hxs) (.refl _))
  | int =>
    refine (follows_toNumber? h).bind_same fun x? => ?_
    cases x? with
    | some x => exact .pure (.refl _)
    | none => exact (follows_numberArgument ha 0 "default" 0).bind_same fun _ => .pure (.refl _)
  | float =>
    refine (follows_toNumber? h).bind_same fun x? => ?_
    cases x? with
    | some x => exact .pure (.refl _)
    | none => exact (follows_numberArgument ha 0 "default" 0).bind_same fun _ => .pure (.refl _)
  | list => exact (follows_items h).bind fun _ _ hxs => follows_newList hxs
  | sort =>
    refine (follows_truthy (ha.get 0 "reverse")).bind_same fun reverse => ?_
    refine (follows_truthy (ha.get 1 "case_sensitive")).bind_same fun caseSensitive => ?_
    refine (follows_items h).bind fun xs ys hxs => ?_
    refine (Follows.readDeep fun _ _ hst => hst.sorted? caseSensitive hxs).bind fun xs ys hxs => ?_
    cases reverse with
    | true => exact follows_newList (List.rel_reverse hxs)
    | false => exact follows_newList hxs
  | unique =>
    refine (follows_items h).bind fun xs ys hxs => ?_
    exact (Follows.readDeep fun _ _ hst => hst.unique? hxs).bind fun _ _ hxs => follows_newList hxs
  | reverse => exact follows_reverse h (htarget rfl)
  | round =>
    refine (follows_toNumber? h).bind_same fun x? => ?_
    refine (follows_numberArgument ha 0 "precision" 0).bind_same fun precision => ?_
    have hrest : ∀ method, Follows R
        (do return .number (← Eval.ofExcept (roundNumber (x?.getD 0) precision method)))
        (do return .number (← Eval.ofExcept (roundNumber (x?.getD 0) precision method))) R.Same :=
      fun method => (follows_ofExcept _).bind_same fun _ => .pure (.refl _)
    have harg := ha.get 1 "method"
    have habsent := harg.eq_absent_iff
    dsimp only
    by_cases hm : a.get 1 "method" = .absent
    · rw [if_pos hm, if_pos (habsent.mp hm), pure_bind]
      exact hrest _
    · rw [if_neg hm, if_neg (mt habsent.mpr hm)]
      exact (follows_display harg).bind_same fun method => hrest method
  | abs =>
    cases h.form with
    | refl =>
      cases v with
      | number x => exact .pure (.refl _)
      | _ => exact .throw
    | _ => exact .throw
  | safe => exact (follows_display h).bind_same fun _ => .pure (.refl _)
  | _ => exact follows_text h

theorem follows_applyTest (t : Test) (h : R.Same v w) (ha : R.SameArguments a b) :
    Follows R (Eval.applyTest t v a) (Eval.applyTest t w b) Eq := by
  cases t with
  | divisibleby =>
    refine (follows_numberArgument ha 0 "num" 1).bind_same fun divisor => ?_
    dsimp only
    split
    · exact .throw
    · cases h.form <;> exact .pure rfl
  | _ => cases h.form <;> exact .pure rfl

end Stencil.Marking
