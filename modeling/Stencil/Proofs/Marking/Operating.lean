import Stencil.Proofs.Marking.Reaching
import Stencil.Render.Operate

/-! Operators do not see the marks of their operands. -/
namespace Stencil.Marking

variable {R : Terms} {v w v' w' : Value}

theorem follows_padTo (c : Conversion) (t : Text) : Follows R (Eval.padTo c t) (Eval.padTo c t) Eq := by
  unfold Eval.padTo
  dsimp only
  repeat' split
  all_goals first | exact .pure rfl | exact .throw

theorem follows_numberText (letter : CodeUnit) (precision : Option Nat) (h : R.Same v w) :
    Follows R (Eval.numberText letter v precision) (Eval.numberText letter w precision) Eq := by
  unfold Eval.numberText
  refine (follows_plain h).bind_same fun a => ?_
  have hnumber : ∀ x : Number, Follows R
      (if letter = 'f' then
        if 100 < precision.getD 6 then throw .places else pure (x.toFixed (precision.getD 6))
      else pure x.trunc.toText : Eval Text)
      (if letter = 'f' then
        if 100 < precision.getD 6 then throw .places else pure (x.toFixed (precision.getD 6))
      else pure x.trunc.toText : Eval Text) Eq := by
    intro x
    repeat' split
    all_goals first | exact .pure rfl | exact .throw
  cases a with
  | number x => exact hnumber x
  | bool b => exact hnumber _
  | _ => exact .throw

theorem follows_conversionValue (c : Conversion) (mapping : Option Keyed) {args args' : List Value}
    (hargs : List.Forall₂ R.Same args args') (used : Nat) :
    Follows R (Eval.conversionValue c mapping args used) (Eval.conversionValue c mapping args' used)
      fun p q => R.Same p.1 q.1 ∧ p.2 = q.2 := by
  unfold Eval.conversionValue
  cases c.key with
  | some key =>
    cases mapping with
    | none => exact .throw
    | some target =>
      refine .get_bind fun s t hst => ?_
      rcases rel_cases (hst.ownValue? target key) with ⟨hx, hy⟩ | ⟨x, y, hx, hy, hxy⟩ <;> rw [hx, hy]
      · exact .throw
      · exact .pure ⟨hxy, rfl⟩
  | none =>
    dsimp only
    rcases rel_cases (rel_getElem? hargs used) with ⟨hx, hy⟩ | ⟨x, y, hx, hy, hxy⟩ <;> rw [hx, hy]
    · exact .throw
    · exact .pure ⟨hxy, rfl⟩

theorem follows_convert (c : Conversion) (mapping : Option Keyed) {args args' : List Value}
    (hargs : List.Forall₂ R.Same args args') (used : Nat) :
    Follows R (Eval.convert c mapping args used) (Eval.convert c mapping args' used) Eq := by
  unfold Eval.convert
  cases c.letter with
  | none => exact .throw
  | some letter =>
    dsimp only
    split
    · exact .pure rfl
    · split
      · exact .throw
      · refine (follows_conversionValue c mapping hargs used).bind ?_
        rintro ⟨v, used⟩ ⟨w, _⟩ ⟨hvw, rfl⟩
        have hpad : ∀ t : Text, Follows R (do return (← Eval.padTo c t, used) : Eval (Text × Nat))
            (do return (← Eval.padTo c t, used)) Eq := fun t => (follows_padTo c t).bind_same fun _ => .pure rfl
        dsimp only
        split
        · split
          · exact (follows_display hvw).bind_same fun _ => hpad _
          · exact (follows_repr hvw).bind_same fun _ => hpad _
        · exact (follows_numberText letter c.precision hvw).bind_same fun _ => hpad _

theorem formatArguments_of_not_list (h : ∀ id, v ≠ .list id) : Eval.formatArguments v = pure [v] := by
  cases v with
  | list id => exact absurd rfl (h id)
  | _ => rfl

theorem follows_formatArguments (h : R.Same v w) :
    Follows R (Eval.formatArguments v) (Eval.formatArguments w) (List.Forall₂ R.Same) := by
  by_cases hlist : ∃ id, v = .list id
  · obtain ⟨id, rfl⟩ := hlist
    cases h.eq_of_not_text rfl (fun _ hr => nomatch hr)
    exact follows_list id
  · have hw : ∀ id, w ≠ .list id := by
      rintro id rfl
      exact hlist ⟨id, (h.symm.eq_of_not_text rfl fun _ hr => nomatch hr).symm⟩
    rw [formatArguments_of_not_list fun id hid => hlist ⟨id, hid⟩, formatArguments_of_not_list hw]
    exact .pure (.cons h .nil)

theorem follows_percentFormat (format : Text) (h : R.Same v w) :
    Follows R (Eval.percentFormat format v) (Eval.percentFormat format w) Eq := by
  unfold Eval.percentFormat
  dsimp only
  rw [h.keyed?_eq]
  refine (follows_formatArguments h).bind fun args args' hargs => ?_
  refine Follows.bind_same ?_ fun state => ?_
  · refine .foldlM_same rfl fun c d piece hcd => ?_
    cases hcd
    cases piece with
    | literal t => exact .pure rfl
    | conversion c => exact (follows_convert c w.keyed? hargs _).bind_same fun _ => .pure rfl
  · obtain ⟨parts, used⟩ := state
    dsimp only
    rw [hargs.length_eq]
    split
    · exact .throw
    · exact .pure rfl

/-! ## Arithmetic and joining -/

theorem follows_ofExcept {α : Type} (r : Except Fault α) : Follows R (Eval.ofExcept r) (Eval.ofExcept r) Eq := by
  cases r with
  | ok a => exact .pure rfl
  | error e => exact .throw

theorem follows_repeated? (v : Value) (times : Number) :
    Follows R (Eval.repeated? v times) (Eval.repeated? v times) (Option.Rel R.Same) := by
  unfold Eval.repeated?
  cases times.toInt? with
  | none => exact .pure .none
  | some n =>
    cases v with
    | text t =>
      dsimp only
      split
      · exact .throw
      · exact .pure (.some (.refl _))
    | list id =>
      refine (follows_list id).bind fun xs ys hxs => ?_
      refine (follows_newList ?_).bind fun _ _ hnew => .pure (.some hnew)
      cases hxs with
      | nil => exact .nil
      | cons hxy hxs => exact forall₂_repeat (.cons hxy hxs) _
    | _ => exact .pure .none

theorem follows_joined? (v w : Value) : Follows R (Eval.joined? v w) (Eval.joined? v w) (Option.Rel R.Same) := by
  cases v with
  | text t =>
    cases w with
    | text u => exact .pure (.some (.refl _))
    | _ => exact .pure .none
  | list i =>
    cases w with
    | list j =>
      refine (follows_list i).bind fun xs ys hxs => (follows_list j).bind fun xs' ys' hxs' => ?_
      exact (follows_newList (List.rel_append hxs hxs')).bind fun _ _ hnew => .pure (.some hnew)
    | _ => exact .pure .none
  | _ => exact .pure .none

theorem follows_multiplied? (v w : Value) :
    Follows R (Eval.multiplied? v w) (Eval.multiplied? v w) (Option.Rel R.Same) := by
  cases w with
  | number n => exact follows_repeated? v n
  | _ =>
    cases v with
    | number n => exact follows_repeated? _ n
    | _ => exact .pure .none

theorem follows_combined (op : BinaryOp) (v w : Value) : Follows R
    (do match ← Eval.combined? op v w with
      | some x => return x
      | none => throw (.operands op v.kind w.kind))
    (do match ← Eval.combined? op v w with
      | some x => return x
      | none => throw (.operands op v.kind w.kind)) R.Same := by
  have hcombined : Follows R (Eval.combined? op v w) (Eval.combined? op v w) (Option.Rel R.Same) := by
    cases op with
    | add => exact follows_joined? v w
    | mul => exact follows_multiplied? v w
    | _ => exact .pure .none
  refine hcombined.bind fun a b hab => ?_
  rcases rel_cases hab with ⟨rfl, rfl⟩ | ⟨x, y, rfl, rfl, hxy⟩
  · exact .throw
  · exact .pure hxy

theorem follows_plainBinary (op : BinaryOp) (v w : Value) :
    Follows R (Eval.plainBinary op v w) (Eval.plainBinary op v w) R.Same := by
  have hcombined := follows_combined (R := R) op v w
  cases v with
  | number x =>
    cases w with
    | number y => exact (follows_ofExcept _).bind_same fun z => .pure (.refl _)
    | _ => exact hcombined
  | _ => exact hcombined

theorem follows_binary (op : BinaryOp) (h : R.Same v v') (h' : R.Same w w') :
    Follows R (Eval.binary op v w) (Eval.binary op v' w') R.Same := by
  unfold Eval.binary
  split
  · exact (follows_display h).bind_same fun _ => (follows_display h').bind_same fun _ => .pure (.refl _)
  · refine (follows_plain h).bind_same fun a => ?_
    have hplain : ∀ op, Follows R (do Eval.plainBinary op a (← Eval.plain w))
        (do Eval.plainBinary op a (← Eval.plain w')) R.Same :=
      fun op => (follows_plain h').bind_same fun b => follows_plainBinary op a b
    cases op with
    | mod =>
      cases a with
      | text format => exact (follows_percentFormat format h').bind_same fun _ => .pure (.refl _)
      | _ => exact hplain .mod
    | _ => exact hplain _

theorem follows_signed (sign : Sign) (h : R.Same v w) : Follows R (Eval.signed sign v) (Eval.signed sign w) R.Same := by
  refine (follows_plain h).bind_same fun a => ?_
  cases a with
  | number x => exact .pure (.refl _)
  | _ => exact .throw

/-! ## Comparisons -/

theorem any_key_eq {xs ys : List (Text × Value)} (h : List.Forall₂ R.SameEntry xs ys) (key : Text) :
    xs.any (·.1 = key) = ys.any (·.1 = key) := by
  induction h with
  | nil => rfl
  | cons hpq _ ih => rw [List.any_cons, List.any_cons, ih, hpq.key]

theorem follows_hasKey (v : Value) (h : R.Same w w') : Follows R
    (do match (← get).entries? v with
      | some entries =>
        let key ← Eval.keyOf w
        return entries.any (·.1 = key)
      | none => throw (.notContainer v.kind) : Eval Bool)
    (do match (← get).entries? v with
      | some entries =>
        let key ← Eval.keyOf w'
        return entries.any (·.1 = key)
      | none => throw (.notContainer v.kind)) Eq := by
  refine .get_bind fun s t hst => ?_
  rcases rel_cases (hst.entries? (Terms.Same.refl v)) with ⟨hx, hy⟩ | ⟨xs, ys, hx, hy, hxs⟩ <;> rw [hx, hy]
  · exact .throw
  · exact (follows_keyOf h).bind_same fun key => .pure (any_key_eq hxs key)

theorem follows_holds (v : Value) (h : R.Same w w') : Follows R (Eval.holds v w) (Eval.holds v w') Eq := by
  have hkeys := follows_hasKey (R := R) v h
  cases v with
  | text t =>
    refine (follows_plain h).bind_same fun a => ?_
    cases a with
    | text u => exact .pure rfl
    | _ => exact .throw
  | list id => exact (follows_list id).bind fun xs ys hxs => .anyM hxs fun _ _ hab => follows_equal hab h
  | _ => exact hkeys

theorem contains_of_defined (hv : ∀ r, v ≠ .undefined r) (w : Value) :
    Eval.contains v w = Eval.plain v >>= (Eval.holds · w) := by
  cases v with
  | undefined r => exact absurd rfl (hv r)
  | _ => rfl

theorem follows_contains (h : R.Same v v') (h' : R.Same w w') :
    Follows R (Eval.contains v w) (Eval.contains v' w') Eq := by
  by_cases hundefined : ∃ r, v = .undefined r
  · obtain ⟨r, rfl⟩ := hundefined
    have hv' : ∃ r', v' = .undefined r' := by
      by_contra hne
      exact h.symm.defined (fun r' hr' => hne ⟨r', hr'⟩) r rfl
    obtain ⟨r', rfl⟩ := hv'
    exact .pure rfl
  · have hdefined : ∀ r, v ≠ .undefined r := fun r hr => hundefined ⟨r, hr⟩
    rw [contains_of_defined hdefined, contains_of_defined (h.defined hdefined)]
    exact (follows_plain h).bind_same fun a => follows_holds a h'

theorem follows_ordered (op : CompareOp) (h : R.Same v v') (h' : R.Same w w') : Follows R
    (do
      let left ← Eval.plain v
      let right ← Eval.plain w
      match left, right with
      | .number x, .number y => return numbersOrdered op x y
      | .text t, .text u => return textsOrdered op t u
      | left, right => throw (.unordered op left.kind right.kind))
    (do
      let left ← Eval.plain v'
      let right ← Eval.plain w'
      match left, right with
      | .number x, .number y => return numbersOrdered op x y
      | .text t, .text u => return textsOrdered op t u
      | left, right => throw (.unordered op left.kind right.kind)) Eq := by
  refine (follows_plain h).bind_same fun a => (follows_plain h').bind_same fun b => ?_
  cases a with
  | number x =>
    cases b with
    | number y => exact .pure rfl
    | _ => exact .throw
  | text t =>
    cases b with
    | text u => exact .pure rfl
    | _ => exact .throw
  | _ => exact .throw

theorem follows_compare (op : CompareOp) (h : R.Same v v') (h' : R.Same w w') :
    Follows R (Eval.compare op v w) (Eval.compare op v' w') Eq := by
  cases op with
  | equal => exact follows_equal h h'
  | notEqual => exact (follows_equal h h').bind_same fun _ => .pure rfl
  | isIn => exact follows_contains h' h
  | isNotIn => exact (follows_contains h' h).bind_same fun _ => .pure rfl
  | _ => exact follows_ordered _ h h'

end Stencil.Marking
