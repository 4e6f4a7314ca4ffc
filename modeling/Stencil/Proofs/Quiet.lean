import Stencil.Proofs.Running
import Stencil.Render.Evaluate

/-! Computations that change nothing, however they end. None of them fails for want of a filter or a test. -/
namespace Stencil

/-- A fault that names a filter or a test which is not there. -/
def Fault.isUnknownName : Fault → Bool
  | unknownFilter _ | unknownTest _ => true
  | _ => false

/-- A computation leaves the store as it is, and a fault of it names no filter and no test. -/
structure Quiet {α : Type} (x : Eval α) : Prop where
  ok {s t : Store} {a : α} (h : x s = .ok a t) : t = s
  error {s t : Store} {e : Fault} (h : x s = .error e t) : t = s ∧ e.isUnknownName = false

namespace Quiet

variable {α β : Type} {x : Eval α}

theorem pure (a : α) : Quiet (pure a) where
  ok h := by
    cases h
    rfl
  error h := nomatch h

theorem throw {e : Fault} (he : e.isUnknownName = false) : Quiet (throw e : Eval α) where
  ok h := nomatch h
  error h := by
    cases h
    exact ⟨rfl, he⟩

theorem bind {f : α → Eval β} (hx : Quiet x) (hf : ∀ a, Quiet (f a)) : Quiet (x >>= f) where
  ok h := by
    obtain ⟨a, u, hu, ht⟩ := exists_of_bind_ok h
    cases hx.ok hu
    exact (hf a).ok ht
  error h := by
    rcases exists_of_bind_error h with hu | ⟨a, u, hu, ht⟩
    · exact hx.error hu
    · cases hx.ok hu
      exact (hf a).error ht

theorem get_bind {f : Store → Eval β} (hf : ∀ s, Quiet (f s)) : Quiet (get >>= f) where
  ok {s _ _} h := (hf s).ok h
  error {s _ _} h := (hf s).error h

theorem read (f : Store → α) : Quiet (Eval.read f) := get_bind fun s => .pure (f s)

theorem readDeep (f : Store → Option α) : Quiet (Eval.readDeep f) := by
  refine get_bind fun s => ?_
  cases f s with
  | some a => exact .pure a
  | none => exact .throw rfl

theorem mapM {l : List α} {f : α → Eval β} (hf : ∀ a, Quiet (f a)) : Quiet (l.mapM f) := by
  induction l with
  | nil => exact .pure []
  | cons a l ih =>
    rw [List.mapM_cons]
    exact (hf a).bind fun _ => ih.bind fun _ => .pure _

theorem foldlM {l : List α} {f : β → α → Eval β} (hf : ∀ b a, Quiet (f b a)) (b : β) : Quiet (l.foldlM f b) := by
  induction l generalizing b with
  | nil => exact .pure b
  | cons a l ih =>
    rw [List.foldlM_cons]
    exact (hf b a).bind ih

theorem anyM {l : List α} {f : α → Eval Bool} (hf : ∀ a, Quiet (f a)) : Quiet (l.anyM f) := by
  induction l with
  | nil => exact .pure false
  | cons a l ih =>
    rw [List.anyM]
    refine (hf a).bind fun b => ?_
    cases b with
    | true => exact .pure true
    | false => exact ih

end Quiet

section quiet

variable (v w : Value)

theorem quiet_display : Quiet (Eval.display v) := .readDeep _

theorem quiet_repr : Quiet (Eval.repr v) := .readDeep _

theorem quiet_truthy : Quiet (Eval.truthy v) := .read _

theorem quiet_equal : Quiet (Eval.equal v w) := .readDeep _

theorem quiet_ofExcept {α : Type} {r : Except Fault α} (h : ∀ e, r = .error e → e.isUnknownName = false) :
    Quiet (Eval.ofExcept r) := by
  cases r with
  | ok a => exact .pure a
  | error e => exact .throw (h e rfl)

theorem quiet_arithmetic (op : BinaryOp) (x y : Number) : Quiet (Eval.ofExcept (arithmetic op x y)) := by
  refine quiet_ofExcept fun e he => ?_
  unfold arithmetic at he
  split at he <;> (try split at he) <;> cases he <;> rfl

theorem quiet_rangeBounds (xs : List Number) : Quiet (Eval.ofExcept (Eval.rangeBounds xs)) := by
  refine quiet_ofExcept fun e he => ?_
  unfold Eval.rangeBounds at he
  split at he <;> cases he
  rfl

theorem quiet_rangeNumbers (start stop step : Number) : Quiet (Eval.ofExcept (Eval.rangeNumbers start stop step)) := by
  refine quiet_ofExcept fun e he => ?_
  unfold Eval.rangeNumbers at he
  dsimp only at he
  split at he <;> (try split at he) <;> cases he <;> rfl

theorem quiet_roundNumber (x precision : Number) (method : Text) :
    Quiet (Eval.ofExcept (roundNumber x precision method)) := by
  refine quiet_ofExcept fun e he => ?_
  unfold roundNumber at he
  dsimp only at he
  split at he <;> (try split at he) <;> (try split at he) <;> cases he
  rfl

theorem quiet_plain : Quiet (Eval.plain v) := by
  cases v with
  | undefined reason => exact .throw rfl
  | _ => exact .pure _

theorem quiet_keyOf : Quiet (Eval.keyOf v) := by
  cases v with
  | text t => exact .pure t
  | _ => exact quiet_display _

theorem quiet_sliceBound : Quiet (Eval.sliceBound v) := by
  cases v with
  | absent | none => exact .pure _
  | number x =>
    unfold Eval.sliceBound
    dsimp only
    split
    · exact .pure _
    · exact .throw rfl
  | _ => exact .throw rfl

/-! ## Items -/

theorem Eval.run_items (v : Value) (s : Store) : EStateM.run (items v) s =
    (s.items? v).elim (.error (.notIterable v.kind) s) fun items => .ok items s := by
  unfold items
  rw [EStateM.run_bind]
  change EStateM.run _ s = _
  cases s.items? v <;> rfl

theorem quiet_items : Quiet (Eval.items v) := by
  refine .get_bind fun s => ?_
  cases s.items? v with
  | some vs => exact .pure vs
  | none => exact .throw rfl

theorem quiet_picked? : Quiet (Eval.picked? v w) := by
  cases w with
  | number x => exact .get_bind fun s => .pure _
  | _ => exact .pure none

theorem quiet_dataAt : Quiet (Eval.dataAt v w) := by
  unfold Eval.dataAt
  cases v.keyed? with
  | none => exact .pure none
  | some c =>
    refine (quiet_keyOf w).bind fun name => ?_
    cases Eval.isHidden name with
    | true => exact .throw rfl
    | false => exact .get_bind fun s => .pure _

/-! ## Texts of values -/

theorem quiet_written (features : Features) : Quiet (Eval.written features v) :=
  (quiet_display v).bind fun _ => .pure _

theorem quiet_padTo (c : Conversion) (t : Text) : Quiet (Eval.padTo c t) := by
  unfold Eval.padTo
  dsimp only
  repeat' split
  all_goals first | exact .pure _ | exact .throw rfl

theorem quiet_numberText (letter : CodeUnit) (precision : Option Nat) : Quiet (Eval.numberText letter v precision) := by
  unfold Eval.numberText
  refine (quiet_plain v).bind fun w => ?_
  have hnumber : ∀ x : Number, Quiet
      (if letter = 'f' then
        if 100 < precision.getD 6 then throw .places else pure (x.toFixed (precision.getD 6))
      else pure x.trunc.toText : Eval Text) := by
    intro x
    repeat' split
    all_goals first | exact .pure _ | exact .throw rfl
  cases w with
  | number x => exact hnumber x
  | bool b => exact hnumber _
  | _ => exact .throw rfl

theorem quiet_conversionValue (c : Conversion) (mapping : Option Keyed) (args : List Value) (used : Nat) :
    Quiet (Eval.conversionValue c mapping args used) := by
  unfold Eval.conversionValue
  cases c.key with
  | some key =>
    cases mapping with
    | none => exact .throw rfl
    | some target =>
      refine .get_bind fun s => ?_
      cases s.ownValue? target key with
      | some v => exact .pure _
      | none => exact .throw rfl
  | none =>
    dsimp only
    cases args[used]? with
    | some v => exact .pure _
    | none => exact .throw rfl

theorem quiet_convert (c : Conversion) (mapping : Option Keyed) (args : List Value) (used : Nat) :
    Quiet (Eval.convert c mapping args used) := by
  unfold Eval.convert
  cases c.letter with
  | none => exact .throw rfl
  | some letter =>
    dsimp only
    split
    · exact .pure _
    · split
      · exact .throw rfl
      · refine (quiet_conversionValue c mapping args used).bind fun p => ?_
        have hpad : ∀ t, Quiet (do return (← Eval.padTo c t, p.2)) :=
          fun t => (quiet_padTo c t).bind fun _ => .pure _
        split
        · split
          · exact (quiet_display _).bind fun _ => hpad _
          · exact (quiet_repr _).bind fun _ => hpad _
        · exact (quiet_numberText _ letter c.precision).bind fun _ => hpad _

theorem quiet_formatArguments : Quiet (Eval.formatArguments v) := by
  cases v with
  | list id => exact .read _
  | _ => exact .pure _

theorem quiet_percentFormat (format : Text) : Quiet (Eval.percentFormat format v) := by
  refine (quiet_formatArguments v).bind fun args => (Quiet.foldlM (fun state piece => ?_) _).bind fun state => ?_
  · cases piece with
    | literal t => exact .pure _
    | conversion c => exact (quiet_convert c _ args _).bind fun _ => .pure _
  · dsimp only
    split
    · exact .throw rfl
    · exact .pure _

/-! ## Comparisons and tests -/

theorem quiet_holds : Quiet (Eval.holds v w) := by
  unfold Eval.holds
  split
  · refine (quiet_plain w).bind fun x => ?_
    cases x with
    | text u => exact .pure _
    | _ => exact .throw rfl
  · exact (Quiet.read _).bind fun items => .anyM fun x => quiet_equal x w
  · refine .get_bind fun s => ?_
    split
    · exact (quiet_keyOf w).bind fun _ => .pure _
    · exact .throw rfl

theorem quiet_contains : Quiet (Eval.contains v w) := by
  cases v with
  | undefined reason => exact .pure false
  | _ => exact (quiet_plain _).bind fun x => quiet_holds x w

theorem quiet_compare (op : CompareOp) : Quiet (Eval.compare op v w) := by
  unfold Eval.compare
  split
  · exact quiet_equal v w
  · exact (quiet_equal v w).bind fun _ => .pure _
  · exact quiet_contains w v
  · exact (quiet_contains w v).bind fun _ => .pure _
  · refine (quiet_plain v).bind fun x => (quiet_plain w).bind fun y => ?_
    split
    · exact .pure _
    · exact .pure _
    · exact .throw rfl

theorem quiet_textArgument (a : Arguments) (i : Nat) : Quiet (Eval.textArgument a i) := by
  unfold Eval.textArgument
  split
  · exact .pure _
  · exact .throw rfl

theorem quiet_numberArgument (a : Arguments) (i : Nat) (name : String) (fallback : Number) :
    Quiet (Eval.numberArgument a i name fallback) := by
  unfold Eval.numberArgument
  split
  · exact .pure _
  · exact .pure _
  · exact .throw rfl

theorem quiet_toNumber? : Quiet (Eval.toNumber? v) := by
  cases v with
  | number x => exact .pure _
  | bool b => exact .pure _
  | _ => exact (quiet_display _).bind fun _ => .pure _

theorem quiet_applyTest (t : Test) (a : Arguments) : Quiet (Eval.applyTest t v a) := by
  cases t with
  | divisibleby =>
    refine (quiet_numberArgument a 0 "num" 1).bind fun divisor => ?_
    dsimp only
    split
    · exact .throw rfl
    · exact .pure _
  | _ => exact .pure _

end quiet

end Stencil
