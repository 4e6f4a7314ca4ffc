import Stencil.Proofs.Correspondence.Access
import Stencil.Render.Operate

/-! Operators on alike values give alike values. -/
namespace Stencil.Correspondence

variable {σ : Correspondence} {κ : Known} {v v' w w' : Value}

theorem sim_padTo (c : Conversion) (t : Text) : σ.Sim κ (Eval.padTo c t) (Eval.padTo c t) fun _ a b => a = b := by
  unfold Eval.padTo
  dsimp only
  repeat' split
  all_goals first | exact .pure rfl | exact .throw

theorem sim_numberText (letter : CodeUnit) (precision : Option Nat) (h : σ.Alike v w) :
    σ.Sim κ (Eval.numberText letter v precision) (Eval.numberText letter w precision) fun _ a b => a = b := by
  unfold Eval.numberText
  refine (sim_plain h).bind fun μ _ a b hab => ?_
  have hnumber : ∀ x : Number, σ.Sim μ
      (if letter = 'f' then
        if 100 < precision.getD 6 then throw .places else pure (x.toFixed (precision.getD 6))
      else pure x.trunc.toText : Eval Text)
      (if letter = 'f' then
        if 100 < precision.getD 6 then throw .places else pure (x.toFixed (precision.getD 6))
      else pure x.trunc.toText : Eval Text) fun _ a b => a = b := by
    intro x
    repeat' split
    all_goals first | exact .pure rfl | exact .throw
  cases hab with
  | number x => exact hnumber x
  | bool b => exact hnumber _
  | _ => exact .throw

theorem sim_conversionValue (c : Conversion) {mapping mapping' : Option Keyed} {args args' : List Value}
    (hmapping : Option.Rel (Keyed.Alike σ.rel) mapping mapping') (hargs : List.Forall₂ σ.Alike args args')
    (used : Nat) :
    σ.Sim κ (Eval.conversionValue c mapping args used) (Eval.conversionValue c mapping' args' used)
      fun _ p q => σ.Alike p.1 q.1 ∧ p.2 = q.2 := by
  unfold Eval.conversionValue
  cases c.key with
  | some key =>
    dsimp only
    rcases rel_cases hmapping with ⟨rfl, rfl⟩ | ⟨d, d', rfl, rfl, hd⟩
    · exact .throw
    · refine sim_get fun s t hagree => ?_
      rcases rel_cases (hagree.rel_ownValue? hd key) with ⟨hx, hy⟩ | ⟨x, y, hx, hy, hxy⟩ <;> rw [hx, hy]
      · exact .throw
      · exact .pure ⟨hxy, rfl⟩
  | none =>
    dsimp only
    rcases rel_cases (rel_getElem? hargs used) with ⟨hx, hy⟩ | ⟨x, y, hx, hy, hxy⟩ <;> rw [hx, hy]
    · exact .throw
    · exact .pure ⟨hxy, rfl⟩

theorem sim_convert (c : Conversion) {mapping mapping' : Option Keyed} {args args' : List Value}
    (hmapping : Option.Rel (Keyed.Alike σ.rel) mapping mapping') (hargs : List.Forall₂ σ.Alike args args')
    (used : Nat) :
    σ.Sim κ (Eval.convert c mapping args used) (Eval.convert c mapping' args' used) fun _ a b => a = b := by
  unfold Eval.convert
  cases c.letter with
  | none => exact .throw
  | some letter =>
    dsimp only
    split
    · exact .pure rfl
    · split
      · exact .throw
      · refine (sim_conversionValue c hmapping hargs used).bind ?_
        rintro μ _ ⟨v, used⟩ ⟨w, _⟩ ⟨hvw, rfl⟩
        have hpad : ∀ (ν : Known) (t : Text), σ.Sim ν (do return (← Eval.padTo c t, used) : Eval (Text × Nat))
            (do return (← Eval.padTo c t, used)) fun _ a b => a = b :=
          fun ν t => (sim_padTo c t).bind_same fun _ _ _ => .pure rfl
        dsimp only
        split
        · split
          · exact (sim_display hvw).bind_same fun _ _ _ => hpad _ _
          · exact (sim_repr hvw).bind_same fun _ _ _ => hpad _ _
        · exact (sim_numberText letter c.precision hvw).bind_same fun _ _ _ => hpad _ _

theorem sim_formatArguments (h : σ.Alike v w) :
    σ.Sim κ (Eval.formatArguments v) (Eval.formatArguments w) fun _ => List.Forall₂ σ.Alike := by
  have hsingle : σ.Sim κ (pure [v] : Eval (List Value)) (pure [w]) fun _ => List.Forall₂ σ.Alike :=
    .pure (.cons h .nil)
  cases h with
  | list hij => exact sim_list hij
  | _ => exact hsingle

theorem sim_percentFormat (format : Text) (h : σ.Alike v w) :
    σ.Sim κ (Eval.percentFormat format v) (Eval.percentFormat format w) fun _ a b => a = b := by
  have hmapping := rel_keyed? h
  have hnone : v.keyed?.isNone = w.keyed?.isNone := by
    rcases rel_cases hmapping with ⟨hx, hy⟩ | ⟨x, y, hx, hy, _⟩ <;> rw [hx, hy]
    rfl
  refine (sim_formatArguments h).bind fun μ _ args args' hargs => ?_
  refine Sim.bind_same ?_ fun ν _ state => ?_
  · refine Sim.foldlM_same rfl fun ν _ c d hcd piece _ => ?_
    cases hcd
    cases piece with
    | literal t => exact .pure rfl
    | conversion c => exact (sim_convert c hmapping hargs _).bind_same fun _ _ _ => .pure rfl
  · obtain ⟨parts, used⟩ := state
    dsimp only
    rw [hnone, hargs.length_eq]
    split
    · exact .throw
    · exact .pure rfl

theorem sim_ofExcept {α : Type} (r : Except Fault α) :
    σ.Sim κ (Eval.ofExcept r) (Eval.ofExcept r) fun _ a b => a = b := by
  cases r with
  | ok a => exact .pure rfl
  | error e => exact .throw

theorem sim_repeated? (times : Number) (h : σ.Alike v w) :
    σ.Sim κ (Eval.repeated? v times) (Eval.repeated? w times) fun _ => Option.Rel σ.Alike := by
  unfold Eval.repeated?
  cases times.toInt? with
  | none => exact .pure .none
  | some n =>
    cases h with
    | text t =>
      dsimp only
      split
      · exact .throw
      · exact .pure (.some (.text _))
    | list hij =>
      refine (sim_list hij).bind fun μ _ xs ys hxs => ?_
      refine (sim_newList ?_).bind fun ν _ a b hnew => .pure (.some hnew)
      cases hxs with
      | nil => exact .nil
      | cons hxy hxs => exact forall₂_repeat (.cons hxy hxs) _
    | _ => exact .pure .none

theorem sim_joined? (h : σ.Alike v v') (h' : σ.Alike w w') :
    σ.Sim κ (Eval.joined? v w) (Eval.joined? v' w') fun _ => Option.Rel σ.Alike := by
  cases h with
  | text t =>
    cases h' with
    | text u => exact .pure (.some (.text _))
    | _ => exact .pure .none
  | list hij =>
    cases h' with
    | list hkl =>
      refine (sim_list hij).bind fun μ _ xs ys hxs => (sim_list hkl).bind fun ν _ xs' ys' hxs' => ?_
      exact (sim_newList (List.rel_append hxs hxs')).bind fun _ _ a b hnew => .pure (.some hnew)
    | _ => exact .pure .none
  | _ => exact .pure .none

theorem sim_multiplied? (h : σ.Alike v v') (h' : σ.Alike w w') :
    σ.Sim κ (Eval.multiplied? v w) (Eval.multiplied? v' w') fun _ => Option.Rel σ.Alike := by
  have hleft := fun n => sim_repeated? (κ := κ) n h
  have hright := fun n => sim_repeated? (κ := κ) n h'
  cases h' with
  | number n => exact hleft n
  | _ =>
    cases h with
    | number n => exact hright n
    | _ => exact .pure .none

theorem sim_combined? (op : BinaryOp) (h : σ.Alike v v') (h' : σ.Alike w w') :
    σ.Sim κ (Eval.combined? op v w) (Eval.combined? op v' w') fun _ => Option.Rel σ.Alike := by
  cases op with
  | add => exact sim_joined? h h'
  | mul => exact sim_multiplied? h h'
  | _ => exact .pure .none

theorem sim_combined (op : BinaryOp) (h : σ.Alike v v') (h' : σ.Alike w w') : σ.Sim κ
    (do match ← Eval.combined? op v w with
      | some v => return v
      | none => throw (.operands op v.kind w.kind))
    (do match ← Eval.combined? op v' w' with
      | some v => return v
      | none => throw (.operands op v'.kind w'.kind)) fun _ => σ.Alike := by
  refine (sim_combined? op h h').bind fun μ _ a b hab => ?_
  rw [kind_eq h, kind_eq h']
  rcases rel_cases hab with ⟨rfl, rfl⟩ | ⟨x, y, rfl, rfl, hxy⟩
  · exact .throw
  · exact .pure hxy

theorem sim_plainBinary (op : BinaryOp) (h : σ.Alike v v') (h' : σ.Alike w w') :
    σ.Sim κ (Eval.plainBinary op v w) (Eval.plainBinary op v' w') fun _ => σ.Alike := by
  have hcombined := sim_combined (κ := κ) op h h'
  cases h with
  | number x =>
    cases h' with
    | number y => exact (sim_ofExcept _).bind_same fun _ _ z => .pure (.number z)
    | _ => exact hcombined
  | _ => exact hcombined

theorem sim_binary (op : BinaryOp) (h : σ.Alike v v') (h' : σ.Alike w w') :
    σ.Sim κ (Eval.binary op v w) (Eval.binary op v' w') fun _ => σ.Alike := by
  unfold Eval.binary
  split
  · exact (sim_display h).bind_same fun _ _ _ => (sim_display h').bind_same fun _ _ _ => .pure (.text _)
  · refine (sim_plain h).bind fun μ _ a b hab => ?_
    have hplain : ∀ op, σ.Sim μ (do Eval.plainBinary op a (← Eval.plain w))
        (do Eval.plainBinary op b (← Eval.plain w')) fun _ => σ.Alike :=
      fun op => (sim_plain h').bind fun _ _ _ _ hcd => sim_plainBinary op hab hcd
    cases op with
    | mod =>
      cases hab with
      | text format => exact (sim_percentFormat format h').bind_same fun _ _ t => .pure (.text t)
      | _ => exact hplain .mod
    | _ => exact hplain _

theorem sim_signed (sign : Sign) (h : σ.Alike v w) :
    σ.Sim κ (Eval.signed sign v) (Eval.signed sign w) fun _ => σ.Alike := by
  refine (sim_plain h).bind fun μ _ a b hab => ?_
  cases hab with
  | number x => exact .pure (.number _)
  | _ => exact .throw

theorem any_key_eq {xs ys : List (Text × Value)} (h : List.Forall₂ σ.NamedAlike xs ys) (key : Text) :
    xs.any (·.1 = key) = ys.any (·.1 = key) := by
  induction h with
  | nil => rfl
  | cons hpq _ ih => rw [List.any_cons, List.any_cons, ih, hpq.1]

theorem sim_hasKey (h : σ.Alike v v') (h' : σ.Alike w w') : σ.Sim κ
    (do match (← get).entries? v with
      | some entries =>
        let key ← Eval.keyOf w
        return entries.any (·.1 = key)
      | none => throw (.notContainer v.kind) : Eval Bool)
    (do match (← get).entries? v' with
      | some entries =>
        let key ← Eval.keyOf w'
        return entries.any (·.1 = key)
      | none => throw (.notContainer v'.kind)) fun _ a b => a = b := by
  refine sim_get fun s t hagree => ?_
  rw [kind_eq h]
  rcases rel_cases (hagree.rel_entries? h) with ⟨hx, hy⟩ | ⟨xs, ys, hx, hy, hxs⟩ <;> rw [hx, hy]
  · exact .throw
  · exact (sim_keyOf h').bind_same fun _ _ key => .pure (any_key_eq hxs key)

theorem sim_holds (h : σ.Alike v v') (h' : σ.Alike w w') :
    σ.Sim κ (Eval.holds v w) (Eval.holds v' w') fun _ a b => a = b := by
  have hkeys := sim_hasKey (κ := κ) h h'
  cases h with
  | text t =>
    refine (sim_plain h').bind fun μ _ a b hab => ?_
    cases hab with
    | text u => exact .pure rfl
    | _ => exact .throw
  | list hij =>
    exact (sim_list hij).bind fun μ _ xs ys hxs => .anyM hxs fun _ _ _ _ hab => sim_equal hab h'
  | _ => exact hkeys

theorem sim_contains (h : σ.Alike v v') (h' : σ.Alike w w') :
    σ.Sim κ (Eval.contains v w) (Eval.contains v' w') fun _ a b => a = b := by
  have hholds : σ.Sim κ (do Eval.holds (← Eval.plain v) w) (do Eval.holds (← Eval.plain v') w')
      fun _ a b => a = b := (sim_plain h).bind fun _ _ _ _ hab => sim_holds hab h'
  cases h with
  | undefined reason => exact .pure rfl
  | _ => exact hholds

theorem sim_ordered (op : CompareOp) (h : σ.Alike v v') (h' : σ.Alike w w') : σ.Sim κ
    (do
      let left ← Eval.plain v
      let right ← Eval.plain w
      match left, right with
      | .number x, .number y => return numbersOrdered op x y
      | .text t, .text u => return textsOrdered op t u
      | left, right => throw (.unordered op left.kind right.kind))
    (do
      let left ← Eval.plain v'
      let right ← Eval.plain w'
      match left, right with
      | .number x, .number y => return numbersOrdered op x y
      | .text t, .text u => return textsOrdered op t u
      | left, right => throw (.unordered op left.kind right.kind)) fun _ a b => a = b := by
  refine (sim_plain h).bind fun μ _ a b hab => (sim_plain h').bind fun ν _ c d hcd => ?_
  cases hab with
  | number x =>
    cases hcd with
    | number y => exact .pure rfl
    | _ => exact .throw
  | text t =>
    cases hcd with
    | text u => exact .pure rfl
    | _ => exact .throw
  | _ => cases hcd <;> exact .throw

theorem sim_compare (op : CompareOp) (h : σ.Alike v v') (h' : σ.Alike w w') :
    σ.Sim κ (Eval.compare op v w) (Eval.compare op v' w') fun _ a b => a = b := by
  cases op with
  | equal => exact sim_equal h h'
  | notEqual => exact (sim_equal h h').bind_same fun _ _ _ => .pure rfl
  | isIn => exact sim_contains h' h
  | isNotIn => exact (sim_contains h' h).bind_same fun _ _ _ => .pure rfl
  | _ => exact sim_ordered _ h h'

end Stencil.Correspondence
