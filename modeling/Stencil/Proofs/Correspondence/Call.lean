import Stencil.Proofs.Correspondence.Operate
import Stencil.Render.Call

/-! Calls of alike functions with alike arguments. -/
namespace Stencil.Correspondence

variable {σ : Correspondence} {κ : Known} {a b : Arguments}

structure ArgumentsAlike (σ : Correspondence) (a b : Arguments) : Prop where
  args : List.Forall₂ σ.Alike a.args b.args
  named : List.Forall₂ σ.NamedAlike a.named b.named

namespace ArgumentsAlike

variable (h : σ.ArgumentsAlike a b)
include h

theorem nth (i : Nat) : σ.Alike (a.nth i) (b.nth i) := rel_getD (rel_getElem? h.args i) .absent

theorem get (i : Nat) (name : String) : σ.Alike (a.get i name) (b.get i name) := by
  unfold Arguments.get
  rcases rel_cases (rel_getElem? h.args i) with ⟨hx, hy⟩ | ⟨x, y, hx, hy, hxy⟩ <;> rw [hx, hy]
  · exact rel_getD (rel_lookup h.named _) .absent
  · exact hxy

end ArgumentsAlike

variable (h : σ.ArgumentsAlike a b)
include h

theorem sim_textArgument (i : Nat) :
    σ.Sim κ (Eval.textArgument a i) (Eval.textArgument b i) fun _ t u => t = u := by
  unfold Eval.textArgument
  rw [text?_eq (h.nth i), kind_eq (h.nth i)]
  split
  · exact .pure rfl
  · exact .throw

omit h in
theorem sim_textList (ts : List Text) : σ.Sim κ (Eval.textList ts) (Eval.textList ts) fun _ => σ.Alike :=
  sim_newList (forall₂_text ts)

omit h in
theorem sim_displays {xs ys : List Value} (hxs : List.Forall₂ σ.Alike xs ys) :
    σ.Sim κ (xs.mapM Eval.display) (ys.mapM Eval.display) fun _ ts us => ts = us := by
  refine (Sim.mapM hxs fun _ _ _ _ hab => sim_display hab).mono fun _ _ ts us hts => ?_
  rwa [List.forall₂_eq_eq_eq] at hts

theorem sim_callText (m : TextMethod) (self : Text) :
    σ.Sim κ (Eval.callText m self a) (Eval.callText m self b) fun _ => σ.Alike := by
  cases m with
  | startswith => exact (sim_textArgument h 0).bind_same fun _ _ _ => .pure (.bool _)
  | endswith => exact (sim_textArgument h 0).bind_same fun _ _ _ => .pure (.bool _)
  | replace =>
    exact (sim_textArgument h 0).bind_same fun _ _ _ =>
      (sim_textArgument h 1).bind_same fun _ _ _ => .pure (.text _)
  | split =>
    have hsplit : σ.Sim κ (do Eval.textList (Text.splitOn (← Eval.textArgument a 0) self))
        (do Eval.textList (Text.splitOn (← Eval.textArgument b 0) self)) fun _ => σ.Alike :=
      (sim_textArgument h 0).bind_same fun _ _ _ => sim_textList _
    unfold Eval.callText
    have harg := h.nth 0
    dsimp only
    generalize a.nth 0 = v at harg ⊢
    generalize b.nth 0 = w at harg ⊢
    cases harg with
    | absent => exact sim_textList _
    | none => exact sim_textList _
    | _ => exact hsplit
  | join =>
    exact (sim_items (h.nth 0)).bind fun μ _ xs ys hxs =>
      (sim_displays hxs).bind_same fun _ _ _ => .pure (.text _)
  | _ => exact .pure (.text _)

omit h in
theorem sim_popAt {i j : ListId} (hij : σ.rel .list i j) (index : Number) :
    σ.Sim κ (Eval.popAt i index) (Eval.popAt j index) fun _ => σ.Alike := by
  refine (sim_list hij).bind fun μ _ xs ys hxs => ?_
  rw [hxs.length_eq]
  refine (sim_modify fun s t hagree => hagree.setList hij (forall₂_eraseIdx hxs _)).bind fun _ _ _ _ _ => ?_
  exact .pure (rel_getD (rel_getElem? hxs _) .absent)

omit h in
theorem positionsOf?_eq {s t : Store} (hagree : σ.Agree κ s t) {v w : Value} (hvw : σ.Alike v w)
    {xs ys : List Value} (hxs : List.Forall₂ σ.Alike xs ys) : s.positionsOf? v xs = t.positionsOf? w ys := by
  unfold Store.positionsOf?
  rw [mapM_eq_of_forall₂ (forall₂_zipIdx hxs 0)]
  intro p q hpq
  obtain ⟨x, i⟩ := p
  obtain ⟨y, j⟩ := q
  obtain ⟨hxy, rfl⟩ := hpq
  dsimp only
  rw [hagree.equal?_eq hxy hvw]

theorem sim_callList (m : ListMethod) {i j : ListId} (hij : σ.rel .list i j) :
    σ.Sim κ (Eval.callList m i a) (Eval.callList m j b) fun _ => σ.Alike := by
  cases m with
  | append =>
    refine (sim_modify fun s t hagree => hagree.setList hij ?_).bind fun _ _ _ _ _ => .pure .none
    exact List.rel_append (hagree.list hij) (.cons (h.nth 0) .nil)
  | extend =>
    refine (sim_items (h.nth 0)).bind fun μ _ xs ys hxs => ?_
    refine (sim_modify fun s t hagree => hagree.setList hij ?_).bind fun _ _ _ _ _ => .pure .none
    exact List.rel_append (hagree.list hij) hxs
  | pop =>
    refine (sim_list hij).bind fun μ _ xs ys hxs => ?_
    rw [hxs.length_eq]
    dsimp only
    split
    · exact .throw
    · have harg := h.nth 0
      generalize a.nth 0 = v at harg ⊢
      generalize b.nth 0 = w at harg ⊢
      cases harg with
      | number index => exact sim_popAt hij index
      | _ => exact sim_popAt hij _
  | index =>
    refine (sim_list hij).bind fun μ _ xs ys hxs => ?_
    refine (sim_readDeep_same fun s t hagree => positionsOf?_eq hagree (h.nth 0) hxs).bind_same
      fun ν _ positions => ?_
    cases positions with
    | nil => exact (sim_repr (h.nth 0)).bind_same fun _ _ _ => .throw
    | cons i _ => exact .pure (.number _)
  | count =>
    refine (sim_list hij).bind fun μ _ xs ys hxs => ?_
    exact (sim_readDeep_same fun s t hagree => positionsOf?_eq hagree (h.nth 0) hxs).bind_same
      fun ν _ positions => .pure (.number _)

omit h in
theorem sim_entriesOf {c d : Keyed} (hcd : Keyed.Alike σ.rel c d) :
    σ.Sim κ (Eval.read (·.entriesOf c)) (Eval.read (·.entriesOf d)) fun _ => List.Forall₂ σ.NamedAlike :=
  sim_read fun _ _ hagree => hagree.entriesOf hcd

theorem sim_callKeyed (m : KeyedMethod) {c d : Keyed} (hcd : Keyed.Alike σ.rel c d) :
    σ.Sim κ (Eval.callKeyed m c a) (Eval.callKeyed m d b) fun _ => σ.Alike := by
  cases m with
  | items =>
    refine (sim_entriesOf hcd).bind fun μ _ xs ys hxs => ?_
    refine (Sim.mapM (P := σ.Alike) hxs ?_).bind fun _ _ _ _ hvs => sim_newList hvs
    rintro ν _ ⟨key, v⟩ ⟨_, w⟩ ⟨rfl, hvw⟩
    exact sim_newList (.cons (.text key) (.cons hvw .nil))
  | keys =>
    refine (sim_entriesOf hcd).bind fun μ _ xs ys hxs => sim_newList (forall₂_map hxs ?_)
    rintro ⟨key, v⟩ ⟨_, w⟩ ⟨rfl, _⟩
    exact .text key
  | values =>
    exact (sim_entriesOf hcd).bind fun μ _ xs ys hxs => sim_newList (forall₂_map hxs fun _ _ hpq => hpq.2)
  | get =>
    refine sim_get fun s t hagree => ?_
    rw [hagree.keyText_eq (.inl (h.nth 0))]
    rcases rel_cases (hagree.rel_ownValue? hcd (t.keyText (b.nth 0))) with ⟨hx, hy⟩ | ⟨x, y, hx, hy, hxy⟩ <;>
      rw [hx, hy]
    · refine .pure ?_
      have harg := h.nth 1
      generalize a.nth 1 = v at harg ⊢
      generalize b.nth 1 = w at harg ⊢
      have habsent := alike_eq_iff harg .absent
      by_cases hv : v = .absent
      · rw [if_pos hv, if_pos (habsent.mp hv)]
        exact .none
      · rw [if_neg hv, if_neg (mt habsent.mpr hv)]
        exact harg
    · exact .pure hxy
  | update =>
    refine sim_get fun s t hagree => ?_
    have hentries : List.Forall₂ σ.NamedAlike ((s.entries? (a.nth 0)).getD [] ++ a.named)
        ((t.entries? (b.nth 0)).getD [] ++ b.named) :=
      List.rel_append (rel_getD (hagree.rel_entries? (h.nth 0)) .nil) h.named
    exact (sim_modify fun s t hagree => Agree.setEntries hcd hentries hagree).bind fun _ _ _ _ _ => .pure .none

theorem sim_callRange : σ.Sim κ (Eval.callRange a) (Eval.callRange b) fun _ => σ.Alike := by
  refine (Sim.mapM (P := Eq) h.args ?_).bind fun μ _ xs ys hxs => ?_
  · rintro μ _ v w hvw
    cases hvw with
    | number x =>
      dsimp only
      split
      · exact .pure rfl
      · exact .throw
    | _ => exact .throw
  · rw [List.forall₂_eq_eq_eq] at hxs
    cases hxs
    exact (sim_ofExcept _).bind_same fun _ _ _ =>
      (sim_ofExcept _).bind_same fun _ _ numbers => sim_newList (forall₂_map_same .number numbers)

theorem sim_callNative {f g : Native} (hfg : Native.Alike σ.rel f g) :
    σ.Sim κ (Eval.callNative f a) (Eval.callNative g b) fun _ => σ.Alike := by
  cases hfg with
  | range => exact sim_callRange h
  | dict => exact sim_mappingOf h.named
  | cycle index =>
    unfold Eval.callNative
    dsimp only
    rw [isEmpty_eq_of_forall₂ h.args, h.args.length_eq]
    split
    · exact .throw
    · exact .pure (h.nth _)
  | text m self => exact sim_callText h m self
  | list m hij => exact sim_callList h m hij
  | keyed m hcd => exact sim_callKeyed h m hcd

end Stencil.Correspondence
