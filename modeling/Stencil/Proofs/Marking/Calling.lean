import Stencil.Proofs.Marking.Operating
import Stencil.Render.Call

/-! Functions and methods do not see the marks of their arguments. -/
namespace Stencil.Marking

variable {R : Terms} {a b : Arguments} {v w : Value} {xs ys : List Value}

structure Terms.SameArguments (R : Terms) (a b : Arguments) : Prop where
  args : List.Forall₂ R.Same a.args b.args
  named : List.Forall₂ R.SameEntry a.named b.named

theorem same_lookup {ps qs : List (Text × Value)} (h : List.Forall₂ R.SameEntry ps qs) (name : Text) :
    Option.Rel R.Same (ps.lookup name) (qs.lookup name) := by
  obtain ⟨hunmarked, heq⟩ := forall₂_sameEntry_iff.mp h
  refine rel_same_of_eq ?_ fun hstrict => by rw [heq hstrict]
  rw [← Store.lookup_unmarked, ← Store.lookup_unmarked, hunmarked]

namespace Terms.SameArguments

variable (h : R.SameArguments a b)
include h

theorem nth (i : Nat) : R.Same (a.nth i) (b.nth i) := rel_getD (rel_getElem? h.args i) (.refl _)

theorem get (i : Nat) (name : String) : R.Same (a.get i name) (b.get i name) := by
  unfold Arguments.get
  rcases rel_cases (rel_getElem? h.args i) with ⟨hx, hy⟩ | ⟨x, y, hx, hy, hxy⟩ <;> rw [hx, hy]
  · exact rel_getD (same_lookup h.named _) (.refl _)
  · exact hxy

end Terms.SameArguments

theorem follows_textList (ts : List Text) : Follows R (Eval.textList ts) (Eval.textList ts) R.Same :=
  follows_newList (forall₂_text ts)

theorem follows_displays (hxs : List.Forall₂ R.Same xs ys) :
    Follows R (xs.mapM Eval.display) (ys.mapM Eval.display) Eq := by
  refine (Follows.mapM hxs fun _ _ hab => follows_display hab).mono fun ts us hts => ?_
  rwa [List.forall₂_eq_eq_eq] at hts

theorem follows_popAt (id : ListId) (index : Number) :
    Follows R (Eval.popAt id index) (Eval.popAt id index) R.Same := by
  refine (follows_list id).bind fun xs ys hxs => ?_
  rw [hxs.length_eq]
  refine (Follows.modify fun s t hst => hst.setList id (forall₂_eraseIdx hxs _)).bind fun _ _ _ => ?_
  exact .pure (rel_getD (rel_getElem? hxs _) (.refl _))

theorem follows_entriesOf (target : Keyed) :
    Follows R (Eval.read (·.entriesOf target)) (Eval.read (·.entriesOf target)) (List.Forall₂ R.SameEntry) :=
  .read fun _ _ hst => hst.entriesOf target

section arguments

variable (h : R.SameArguments a b)
include h

theorem follows_textArgument (i : Nat) : Follows R (Eval.textArgument a i) (Eval.textArgument b i) Eq := by
  unfold Eval.textArgument
  rw [(h.nth i).text?_eq]
  cases (b.nth i).text? with
  | some t => exact .pure rfl
  | none => exact .throw

theorem follows_callText (m : TextMethod) (self : Text) :
    Follows R (Eval.callText m self a) (Eval.callText m self b) R.Same := by
  cases m with
  | startswith => exact (follows_textArgument h 0).bind_same fun _ => .pure (.refl _)
  | endswith => exact (follows_textArgument h 0).bind_same fun _ => .pure (.refl _)
  | replace =>
    exact (follows_textArgument h 0).bind_same fun _ => (follows_textArgument h 1).bind_same fun _ => .pure (.refl _)
  | split =>
    have hsplit : Follows R (do Eval.textList (Text.splitOn (← Eval.textArgument a 0) self))
        (do Eval.textList (Text.splitOn (← Eval.textArgument b 0) self)) R.Same :=
      (follows_textArgument h 0).bind_same fun _ => follows_textList _
    unfold Eval.callText
    have harg := h.nth 0
    dsimp only
    generalize a.nth 0 = v at harg ⊢
    generalize b.nth 0 = w at harg ⊢
    cases harg.form with
    | refl =>
      cases v with
      | absent => exact follows_textList _
      | none => exact follows_textList _
      | _ => exact hsplit
    | _ => exact hsplit
  | join =>
    exact (follows_items (h.nth 0)).bind fun xs ys hxs => (follows_displays hxs).bind_same fun _ => .pure (.refl _)
  | _ => exact .pure (.refl _)

theorem follows_callList (m : ListMethod) (self : ListId) :
    Follows R (Eval.callList m self a) (Eval.callList m self b) R.Same := by
  cases m with
  | append =>
    refine (Follows.modify fun s t hst => hst.setList self ?_).bind fun _ _ _ => .pure (.refl _)
    exact List.rel_append (hst.list self) (.cons (h.nth 0) .nil)
  | extend =>
    refine (follows_items (h.nth 0)).bind fun xs ys hxs => ?_
    refine (Follows.modify fun s t hst => hst.setList self ?_).bind fun _ _ _ => .pure (.refl _)
    exact List.rel_append (hst.list self) hxs
  | pop =>
    refine (follows_list self).bind fun xs ys hxs => ?_
    rw [hxs.length_eq]
    dsimp only
    split
    · exact .throw
    · have harg := h.nth 0
      generalize a.nth 0 = v at harg ⊢
      generalize b.nth 0 = w at harg ⊢
      cases harg.form with
      | refl =>
        cases v with
        | number index => exact follows_popAt self index
        | _ => exact follows_popAt self _
      | _ => exact follows_popAt self _
  | index =>
    refine (follows_list self).bind fun xs ys hxs => ?_
    refine (Follows.readDeep_same fun s t hst => hst.positionsOf?_eq (h.nth 0) hxs).bind_same fun positions => ?_
    cases positions with
    | nil => exact (follows_repr (h.nth 0)).bind_same fun _ => .throw
    | cons i _ => exact .pure (.refl _)
  | count =>
    refine (follows_list self).bind fun xs ys hxs => ?_
    exact (Follows.readDeep_same fun s t hst => hst.positionsOf?_eq (h.nth 0) hxs).bind_same fun _ => .pure (.refl _)

theorem follows_callKeyed (m : KeyedMethod) (self : Keyed) :
    Follows R (Eval.callKeyed m self a) (Eval.callKeyed m self b) R.Same := by
  cases m with
  | items =>
    refine (follows_entriesOf self).bind fun ps qs hps => ?_
    refine (Follows.mapM (P := R.Same) hps ?_).bind fun _ _ hvs => follows_newList hvs
    rintro ⟨key, v⟩ ⟨key', w⟩ hpq
    cases hpq.key
    exact follows_newList (.cons (.refl _) (.cons hpq.value .nil))
  | keys =>
    refine (follows_entriesOf self).bind fun ps qs hps => follows_newList (forall₂_map hps fun p q hpq => ?_)
    exact .of_eq (congrArg Value.text hpq.key)
  | values =>
    exact (follows_entriesOf self).bind fun ps qs hps => follows_newList (forall₂_map hps fun _ _ hpq => hpq.value)
  | get =>
    refine .get_bind fun s t hst => ?_
    rw [hst.keyText_eq (h.nth 0)]
    rcases rel_cases (hst.ownValue? self (t.keyText (b.nth 0))) with ⟨hx, hy⟩ | ⟨x, y, hx, hy, hxy⟩ <;> rw [hx, hy]
    · apply Follows.pure
      have habsent := (h.nth 1).eq_absent_iff
      by_cases hv : a.nth 1 = .absent
      · rw [if_pos hv, if_pos (habsent.mp hv)]
        exact .refl _
      · rw [if_neg hv, if_neg (mt habsent.mpr hv)]
        exact h.nth 1
    · exact .pure hxy
  | update =>
    refine .get_bind fun s t hst => ?_
    have hentries : List.Forall₂ R.SameEntry ((s.entries? (a.nth 0)).getD [] ++ a.named)
        ((t.entries? (b.nth 0)).getD [] ++ b.named) :=
      List.rel_append (rel_getD (hst.entries? (h.nth 0)) .nil) h.named
    exact (Follows.modify fun s t hst => hst.setEntries self hentries).bind fun _ _ _ => .pure (.refl _)

theorem follows_callRange : Follows R (Eval.callRange a) (Eval.callRange b) R.Same := by
  refine (Follows.mapM (P := Eq) h.args fun v w hvw => ?_).bind fun xs ys hxs => ?_
  · cases hvw.form with
    | refl =>
      cases v with
      | number x =>
        dsimp only
        split
        · exact .pure rfl
        · exact .throw
      | _ => exact .throw
    | _ => exact .throw
  · rw [List.forall₂_eq_eq_eq] at hxs
    cases hxs
    exact (follows_ofExcept _).bind_same fun _ => (follows_ofExcept _).bind_same fun numbers =>
      follows_newList (List.forall₂_same.mpr fun _ _ => .refl _)

theorem follows_callNative (f : Native) : Follows R (Eval.callNative f a) (Eval.callNative f b) R.Same := by
  cases f with
  | range => exact follows_callRange h
  | dict => exact follows_mappingOf h.named
  | cycle index =>
    unfold Eval.callNative
    dsimp only
    rw [isEmpty_eq_of_forall₂ h.args, h.args.length_eq]
    split
    · exact .throw
    · exact .pure (h.nth _)
  | text m self => exact follows_callText h m self
  | list m self => exact follows_callList h m self
  | keyed m self => exact follows_callKeyed h m self

end arguments
end Stencil.Marking
