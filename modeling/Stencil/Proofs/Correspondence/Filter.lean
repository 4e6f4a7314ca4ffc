import Stencil.Proofs.Correspondence.Call
import Stencil.Render.Filter

/-! Filters and tests of alike values. -/
namespace Stencil.Correspondence

variable {σ : Correspondence} {κ : Known} {s t : Store} {v w : Value}

theorem length?_eq (hagree : σ.Agree κ s t) (h : σ.Alike v w) : s.length? v = t.length? w := by
  cases h with
  | list hij => exact congrArg some (hagree.list hij).length_eq
  | mapping hij => exact congrArg some (hagree.entriesOf (.mapping hij)).length_eq
  | table hij => exact congrArg some (hagree.entriesOf (.table hij)).length_eq
  | _ => rfl

theorem sortKey?_eq (hagree : σ.Agree κ s t) (caseSensitive : Bool) (h : σ.Alike v w) :
    s.sortKey? caseSensitive v = t.sortKey? caseSensitive w := by
  have hdisplay := hagree.display?_eq h
  cases h with
  | number x => rfl
  | _ => exact congrArg (Option.map fun u => SortKey.text (if caseSensitive then u else u.toLower)) hdisplay

theorem isAbsent_eq (h : σ.Alike v w) : (v = .absent : Bool) = (w = .absent : Bool) :=
  decide_eq_decide.mpr (alike_eq_iff h .absent)

theorem rel_sorted? (hagree : σ.Agree κ s t) (caseSensitive : Bool) {xs ys : List Value}
    (h : List.Forall₂ σ.Alike xs ys) :
    Option.Rel (List.Forall₂ σ.Alike) (s.sorted? caseSensitive xs) (t.sorted? caseSensitive ys) := by
  have habsent := forall₂_filter h (p := (· = .absent)) (q := (· = .absent)) fun _ _ => isAbsent_eq
  have hpresent := forall₂_filter h (p := not ∘ (· = .absent)) (q := not ∘ (· = .absent))
    fun _ _ hvw => congrArg not (isAbsent_eq hvw)
  unfold Store.sorted?
  rw [List.partition_eq_filter_filter, List.partition_eq_filter_filter]
  dsimp only
  rw [mapM_eq_of_forall₂ hpresent fun _ _ => sortKey?_eq hagree caseSensitive]
  cases (ys.filter _).mapM (t.sortKey? caseSensitive) with
  | none => exact .none
  | some keys => exact .some (List.rel_append (forall₂_pick hpresent (fun p : SortKey × Nat => p.2) _) habsent)

theorem anyM_equal?_eq (hagree : σ.Agree κ s t) {xs ys : List Value} (hxs : List.Forall₂ σ.Alike xs ys)
    (h : σ.Alike v w) : (xs.anyM fun x => s.equal? x v) = ys.anyM fun y => t.equal? y w := by
  induction hxs with
  | nil => rfl
  | cons hxy _ ih => rw [List.anyM, List.anyM, hagree.equal?_eq hxy h, ih]

theorem rel_unique? (hagree : σ.Agree κ s t) {xs ys : List Value} (h : List.Forall₂ σ.Alike xs ys) :
    Option.Rel (List.Forall₂ σ.Alike) (s.unique? xs) (t.unique? ys) := by
  unfold Store.unique?
  have hfold : ∀ {seen seen' : List Value}, List.Forall₂ σ.Alike seen seen' →
      Option.Rel (List.Forall₂ σ.Alike)
        (xs.foldlM (fun (seen : List Value) v => do
          let known ← seen.anyM fun w => s.equal? w v
          return if known then seen else seen ++ [v]) seen)
        (ys.foldlM (fun (seen : List Value) v => do
          let known ← seen.anyM fun w => t.equal? w v
          return if known then seen else seen ++ [v]) seen') := by
    induction h with
    | nil => exact .some
    | @cons x y _ _ hxy _ ih =>
      intro seen seen' hseen
      rw [List.foldlM_cons, List.foldlM_cons, anyM_equal?_eq hagree hseen hxy]
      cases seen'.anyM fun w => t.equal? w y with
      | none => exact .none
      | some known =>
        cases known with
        | true => exact ih hseen
        | false => exact ih (List.rel_append hseen (.cons hxy .nil))
  exact hfold .nil

variable {a b : Arguments}

theorem sim_numberArgument (h : σ.ArgumentsAlike a b) (i : Nat) (name : String) (fallback : Number) :
    σ.Sim κ (Eval.numberArgument a i name fallback) (Eval.numberArgument b i name fallback)
      fun _ x y => x = y := by
  unfold Eval.numberArgument
  have harg := h.get i name
  generalize a.get i name = v at harg ⊢
  generalize b.get i name = w at harg ⊢
  cases harg with
  | absent => exact .pure rfl
  | number x => exact .pure rfl
  | _ => exact .throw

theorem sim_toNumber? (h : σ.Alike v w) :
    σ.Sim κ (Eval.toNumber? v) (Eval.toNumber? w) fun _ x y => x = y := by
  have hdisplay : σ.Sim κ (do return Eval.numberIn? (← Eval.display v))
      (do return Eval.numberIn? (← Eval.display w)) fun _ x y => x = y :=
    (sim_display h).bind_same fun _ _ _ => .pure rfl
  cases h with
  | number x => exact .pure rfl
  | bool b => exact .pure rfl
  | _ => exact hdisplay

theorem sim_text {f : Text → Text} (h : σ.Alike v w) :
    σ.Sim κ (do return .text (f (← Eval.display v))) (do return .text (f (← Eval.display w)))
      fun _ => σ.Alike :=
  (sim_display h).bind_same fun _ _ _ => .pure (.text _)

theorem fallback_alike : σ.Alike v w → σ.Alike
    (match v with
      | .absent | .none => .text []
      | x => x)
    (match w with
      | .absent | .none => .text []
      | y => y) := by
  intro h
  have hkeep := h
  cases h with
  | absent => exact .text []
  | none => exact .text []
  | _ => exact hkeep

theorem sim_default (h : σ.Alike v w) (ha : σ.ArgumentsAlike a b) :
    σ.Sim κ (Eval.applyFilter .default v a) (Eval.applyFilter .default w b) fun _ => σ.Alike := by
  have hfallback := fallback_alike (ha.get 0 "default_value")
  refine (sim_truthy (ha.get 1 "boolean")).bind_same fun μ _ useBoolean => ?_
  have hkeep : ∀ x y, σ.Alike x y → σ.Sim μ (do return if useBoolean && !(← Eval.truthy v) then x else v)
      (do return if useBoolean && !(← Eval.truthy w) then y else w) fun _ => σ.Alike := by
    refine fun x y hxy => (sim_truthy h).bind_same fun ν _ holds => .pure ?_
    split
    · exact hxy
    · exact h
  cases h with
  | undefined reason => exact .pure hfallback
  | _ => exact hkeep _ _ hfallback

theorem sim_applyFilter (f : Filter) (hsafe : f = .safe → ∀ t, t ∈ σ.good) (h : σ.Alike v w)
    (ha : σ.ArgumentsAlike a b) :
    σ.Sim κ (Eval.applyFilter f v a) (Eval.applyFilter f w b) fun _ => σ.Alike := by
  cases f with
  | default => exact sim_default h ha
  | join =>
    refine (sim_items h).bind fun μ _ xs ys hxs => (sim_displays hxs).bind_same fun ν _ parts => ?_
    exact (sim_display (ha.get 0 "d")).bind_same fun _ _ _ => .pure (.text _)
  | length =>
    refine sim_get fun s t hagree => ?_
    rw [length?_eq hagree h, kind_eq h]
    split
    · exact .pure (.number _)
    · exact .throw
  | replace =>
    refine (sim_display h).bind_same fun μ _ text => ?_
    refine (sim_display (ha.get 0 "old")).bind_same fun μ _ search => ?_
    refine (sim_display (ha.get 1 "new")).bind_same fun μ _ replacement => ?_
    have harg := ha.get 2 "count"
    dsimp only
    generalize a.get 2 "count" = x at harg ⊢
    generalize b.get 2 "count" = y at harg ⊢
    cases harg <;> exact .pure (.text _)
  | first => exact (sim_items h).bind fun _ _ _ _ hxs => .pure (rel_getD (rel_head? hxs) (.undefined _))
  | last => exact (sim_items h).bind fun _ _ _ _ hxs => .pure (rel_getD (rel_getLast? hxs) (.undefined _))
  | int =>
    refine (sim_toNumber? h).bind_same fun μ _ x? => ?_
    cases x? with
    | some x => exact .pure (.number _)
    | none => exact (sim_numberArgument ha 0 "default" 0).bind_same fun _ _ _ => .pure (.number _)
  | float =>
    refine (sim_toNumber? h).bind_same fun μ _ x? => ?_
    cases x? with
    | some x => exact .pure (.number _)
    | none => exact (sim_numberArgument ha 0 "default" 0).bind_same fun _ _ _ => .pure (.number _)
  | list => exact (sim_items h).bind fun _ _ _ _ hxs => sim_newList hxs
  | sort =>
    refine (sim_truthy (ha.get 0 "reverse")).bind_same fun μ _ reverse => ?_
    refine (sim_truthy (ha.get 1 "case_sensitive")).bind_same fun μ _ caseSensitive => ?_
    refine (sim_items h).bind fun μ _ xs ys hxs => ?_
    refine (sim_readDeep fun _ _ hagree => rel_sorted? hagree caseSensitive hxs).bind fun μ _ xs ys hxs => ?_
    cases reverse with
    | true => exact sim_newList (List.rel_reverse hxs)
    | false => exact sim_newList hxs
  | unique =>
    refine (sim_items h).bind fun μ _ xs ys hxs => ?_
    exact (sim_readDeep fun _ _ hagree => rel_unique? hagree hxs).bind fun _ _ _ _ hxs => sim_newList hxs
  | reverse =>
    have hlist : σ.Sim κ (do Eval.newList (← Eval.items v).reverse) (do Eval.newList (← Eval.items w).reverse)
        fun _ => σ.Alike := (sim_items h).bind fun _ _ _ _ hxs => sim_newList (List.rel_reverse hxs)
    cases h with
    | text t => exact .pure (.text _)
    | _ => exact hlist
  | round =>
    refine (sim_toNumber? h).bind_same fun μ _ x? => ?_
    refine (sim_numberArgument ha 0 "precision" 0).bind_same fun μ _ precision => ?_
    have hrest : ∀ ν method, σ.Sim ν
        (do return .number (← Eval.ofExcept (roundNumber (x?.getD 0) precision method)))
        (do return .number (← Eval.ofExcept (roundNumber (x?.getD 0) precision method))) fun _ => σ.Alike :=
      fun ν method => (sim_ofExcept _).bind_same fun _ _ _ => .pure (.number _)
    have harg := ha.get 1 "method"
    have habsent := alike_eq_iff harg .absent
    dsimp only
    by_cases hm : a.get 1 "method" = .absent
    · rw [if_pos hm, if_pos (habsent.mp hm), pure_bind]
      exact hrest _ _
    · rw [if_neg hm, if_neg (mt habsent.mpr hm)]
      exact (sim_display harg).bind_same fun ν _ method => hrest ν method
  | abs =>
    cases h with
    | number x => exact .pure (.number _)
    | _ => exact .throw
  | safe => exact (sim_display h).bind_same fun _ _ t => .pure (.safe (hsafe rfl t))
  | _ => exact sim_text h

theorem sim_applyTest (t : Test) (h : σ.Alike v w) (ha : σ.ArgumentsAlike a b) :
    σ.Sim κ (Eval.applyTest t v a) (Eval.applyTest t w b) fun _ c d => c = d := by
  cases t with
  | divisibleby =>
    refine (sim_numberArgument ha 0 "num" 1).bind_same fun μ _ divisor => ?_
    dsimp only
    split
    · exact .throw
    · cases h <;> exact .pure rfl
  | _ => cases h <;> exact .pure rfl

end Stencil.Correspondence
