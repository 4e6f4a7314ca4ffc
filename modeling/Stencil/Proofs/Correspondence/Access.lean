import Stencil.Proofs.Correspondence.Change
import Stencil.Proofs.Correspondence.Observe
import Stencil.Proofs.Correspondence.Simulation

/-! Reaching into alike values gives alike values. -/
namespace Stencil.Correspondence

variable {σ : Correspondence} {κ : Known} {s t : Store} {v v' w w' : Value}

namespace Agree

variable (h : σ.Agree κ s t)
include h

theorem rel_resolveWithin {n : Text} : ∀ {m k : Nat} {i j : ScopeId}, σ.rel .scope i j → i < m → j < k →
    n ∈ κ.names i ∨ n ∈ σ.shown → Option.Rel σ.Alike (s.resolveWithin n m i) (t.resolveWithin n k j)
  | 0, _, _, _, _, hm, _, _ => absurd hm (Nat.not_lt_zero _)
  | _ + 1, 0, _, _, _, _, hk, _ => absurd hk (Nat.not_lt_zero _)
  | m + 1, k + 1, i, j, hij, hm, hk, hn => by
    unfold Store.resolveWithin Store.scope
    rcases rel_cases (h.scopes i j hij) with ⟨hp, hq⟩ | ⟨p, q, hp, hq, hpq⟩
    · rw [hp, hq]
      exact .none
    rw [hp, hq]
    dsimp only [Option.getD_some]
    have hknown : n ∈ σ.shown ∨ (i ∈ σ.outer → Option.Rel σ.Alike (p.vars.lookup n) (q.vars.lookup n)) ∧
        ((p.vars.lookup n).isSome ∨ ∀ k ∈ p.parent, n ∈ κ.names k) := by
      rcases hn with hn | hn
      · rcases h.known i n hn with hn | ⟨hclear, p', hp', hn⟩
        · exact .inl hn
        · rw [hp] at hp'
          cases hp'
          refine .inr ⟨fun ho => ?_, hn⟩
          have halike := hclear ho j hij
          unfold Store.scope at halike
          rwa [hp, hq] at halike
      · exact .inl hn
    have hlookup : Option.Rel σ.Alike (p.vars.lookup n) (q.vars.lookup n) := by
      rcases hknown with hn | ⟨hclear, _⟩
      · exact hpq.shown n hn
      · by_cases ho : i ∈ σ.outer
        · exact hclear ho
        · exact rel_lookup (hpq.vars ho) n
    rcases rel_cases hlookup with ⟨hx, hy⟩ | ⟨x, y, hx, hy, hxy⟩
    · rw [hx, hy]
      rcases rel_cases hpq.parent with ⟨ha, hb⟩ | ⟨a, b, ha, hb, hab⟩
      · rw [ha, hb]
        exact .none
      · rw [ha, hb]
        have hai : a < i := hpq.older_left a ha
        have hbj : b < j := hpq.older_right b hb
        refine rel_resolveWithin hab (hai.trans_le (Nat.le_of_lt_succ hm)) (hbj.trans_le (Nat.le_of_lt_succ hk)) ?_
        rcases hknown with hn | ⟨_, hn | hn⟩
        · exact .inr hn
        · rw [hx] at hn
          cases hn
        · exact .inl (hn a ha)
    · rw [hx, hy]
      exact .some hxy

/-- A name that is known in a scope has alike values. -/
theorem resolve_alike {i j : ScopeId} {n : Text} (hij : σ.rel .scope i j) (hn : n ∈ κ.names i) :
    σ.Alike (s.resolve i n) (t.resolve j n) :=
  rel_getD (h.rel_resolveWithin hij (Nat.lt_succ_self i) (Nat.lt_succ_self j) (.inl hn)) (.undefined _)

omit h in
theorem forall₂_keys {xs ys : List (Text × Value)} (hxs : List.Forall₂ σ.NamedAlike xs ys) :
    List.Forall₂ σ.Alike (xs.map fun (key, _) => .text key) (ys.map fun (key, _) => .text key) := by
  refine forall₂_map hxs fun p q hpq => ?_
  change σ.Alike (.text p.1) (.text q.1)
  rw [hpq.1]
  exact .text q.1

theorem rel_items? (hvw : σ.Alike v w) : Option.Rel (List.Forall₂ σ.Alike) (s.items? v) (t.items? w) := by
  cases hvw with
  | undefined _ => exact .some .nil
  | text u => exact .some (forall₂_text _)
  | safe _ => exact .some (forall₂_text _)
  | list hij => exact .some (h.list hij)
  | mapping hij => exact .some (forall₂_keys (h.entriesOf (.mapping hij)))
  | table hij => exact .some (forall₂_keys (h.entriesOf (.table hij)))
  | _ => exact .none

theorem rel_sequence? (hvw : σ.Alike v w) :
    Option.Rel (List.Forall₂ σ.Alike) (Eval.sequence? s v) (Eval.sequence? t w) := by
  cases hvw with
  | text u => exact .some (forall₂_text _)
  | list hij => exact .some (h.list hij)
  | _ => exact .none

end Agree

section reading

variable {α : Type} {Q : Known → α → α → Prop}

theorem sim_read {f g : Store → α} (h : ∀ s t, σ.Agree κ s t → Q κ (f s) (g t)) :
    σ.Sim κ (Eval.read f) (Eval.read g) Q :=
  .get_bind fun s t hagree => .pure (h s t hagree)

theorem sim_get {f g : Store → Eval α} (h : ∀ s t, σ.Agree κ s t → σ.Sim κ (f s) (g t) Q) :
    σ.Sim κ (get >>= f) (get >>= g) Q :=
  .get_bind h

theorem sim_readDeep {f g : Store → Option α} {P : α → α → Prop}
    (h : ∀ s t, σ.Agree κ s t → Option.Rel P (f s) (g t)) :
    σ.Sim κ (Eval.readDeep f) (Eval.readDeep g) fun _ => P := by
  refine sim_get fun s t hagree => ?_
  rcases rel_cases (h s t hagree) with ⟨hf, hg⟩ | ⟨a, b, hf, hg, hab⟩ <;> rw [hf, hg]
  · exact .throw
  · exact .pure hab

theorem sim_readDeep_same {f g : Store → Option α} (h : ∀ s t, σ.Agree κ s t → f s = g t) :
    σ.Sim κ (Eval.readDeep f) (Eval.readDeep g) fun _ a b => a = b :=
  sim_readDeep fun s t hagree => by
    rw [h s t hagree]
    cases g t with
    | none => exact .none
    | some a => exact .some rfl

theorem sim_alloc {f g : Store → α × Store}
    (h : ∀ s t, σ.Agree κ s t → σ.Agree κ (f s).2 (g t).2 ∧ Q κ (f s).1 (g t).1) :
    σ.Sim κ (Eval.alloc f) (Eval.alloc g) Q :=
  .modifyGet fun s t hagree => ⟨κ, le_refl κ, h s t hagree⟩

theorem sim_modify {f g : Store → Store} (h : ∀ s t, σ.Agree κ s t → σ.Agree κ (f s) (g t)) :
    σ.Sim κ (modify f : Eval Unit) (modify g) fun _ _ _ => True :=
  .modify fun s t hagree => ⟨κ, le_refl κ, h s t hagree, trivial⟩

end reading

theorem sim_list {i j : ListId} (hij : σ.rel .list i j) :
    σ.Sim κ (Eval.read (·.list i)) (Eval.read (·.list j)) fun _ => List.Forall₂ σ.Alike :=
  sim_read fun _ _ h => h.list hij

theorem sim_newList {xs ys : List Value} (h : List.Forall₂ σ.Alike xs ys) :
    σ.Sim κ (Eval.newList xs) (Eval.newList ys) fun _ => σ.Alike :=
  sim_alloc fun _ _ hagree => hagree.newList h

theorem sim_mappingOf {xs ys : List (Text × Value)} (h : List.Forall₂ σ.NamedAlike xs ys) :
    σ.Sim κ (Eval.mappingOf xs) (Eval.mappingOf ys) fun _ => σ.Alike :=
  sim_alloc fun _ _ hagree => hagree.newMapping <|
    forall₂_ofList (forall₂_map h fun _ _ hpq => ⟨hpq.1, .data hpq.2⟩)

theorem sim_newNative {f g : Native} (h : Native.Alike σ.rel f g) :
    σ.Sim κ (Eval.newNative f) (Eval.newNative g) fun _ => σ.Alike :=
  sim_alloc fun _ _ hagree => hagree.newNative h

theorem sim_display (h : σ.Alike v w) : σ.Sim κ (Eval.display v) (Eval.display w) fun _ a b => a = b :=
  sim_readDeep_same fun _ _ hagree => hagree.display?_eq h

theorem sim_repr (h : σ.Alike v w) : σ.Sim κ (Eval.repr v) (Eval.repr w) fun _ a b => a = b :=
  sim_readDeep_same fun _ _ hagree => hagree.repr?_eq h

theorem sim_truthy (h : σ.Alike v w) : σ.Sim κ (Eval.truthy v) (Eval.truthy w) fun _ a b => a = b :=
  sim_read fun _ _ hagree => hagree.isTruthy_eq h

theorem sim_equal (h : σ.Alike v v') (h' : σ.Alike w w') :
    σ.Sim κ (Eval.equal v w) (Eval.equal v' w') fun _ a b => a = b :=
  sim_readDeep_same fun _ _ hagree => hagree.equal?_eq h h'

theorem sim_items (h : σ.Alike v w) :
    σ.Sim κ (Eval.items v) (Eval.items w) fun _ => List.Forall₂ σ.Alike := by
  refine sim_get fun s t hagree => ?_
  rw [kind_eq h]
  rcases rel_cases (hagree.rel_items? h) with ⟨hx, hy⟩ | ⟨xs, ys, hx, hy, hxs⟩ <;> rw [hx, hy]
  · exact .throw
  · exact .pure hxs

theorem sim_plain (h : σ.Alike v w) : σ.Sim κ (Eval.plain v) (Eval.plain w) fun _ => σ.Alike := by
  have hpure : σ.Sim κ (pure v : Eval Value) (pure w) fun _ => σ.Alike := .pure h
  cases h with
  | undefined reason => exact .throw
  | safe _ => exact .pure (.text _)
  | _ => exact hpure

theorem sim_bound (kind : Kind) (name : Text) {f? g? : Option Native}
    (h : Option.Rel (Native.Alike σ.rel) f? g?) :
    σ.Sim κ (Eval.bound kind name f?) (Eval.bound kind name g?) fun _ => σ.Alike := by
  cases h with
  | some h => exact sim_newNative h
  | none => exact .pure (.undefined _)

theorem rel_map {α β γ : Type} {R : β → γ → Prop} {f : α → β} {g : α → γ} (a : Option α)
    (h : ∀ x, R (f x) (g x)) : Option.Rel R (a.map f) (a.map g) := by
  cases a with
  | none => exact .none
  | some x => exact .some (h x)

/-- Computations that refuse undefined values. -/
theorem sim_defined {α : Type} {Q : Known → α → α → Prop} {x y : Eval α} {f g : Value → Eval α}
    (hx : x = match v with
      | .undefined reason => throw (.undefined reason)
      | v => f v)
    (hy : y = match w with
      | .undefined reason => throw (.undefined reason)
      | v => g v)
    (h : σ.Alike v w) (hfg : σ.Sim κ (f v) (g w) Q) : σ.Sim κ x y Q := by
  rw [hx, hy]
  cases h with
  | undefined reason => exact .throw
  | _ => exact hfg

theorem sim_memberOfKeyed {c d : Keyed} (h : Keyed.Alike σ.rel c d) (name : Text) :
    σ.Sim κ
      (match KeyedMethod.ofName? name with
        | some m => Eval.newNative (.keyed m c)
        | none => do match (← get).ownValue? c name with
          | some v => return v
          | none => return .undefined (.member .dict name))
      (match KeyedMethod.ofName? name with
        | some m => Eval.newNative (.keyed m d)
        | none => do match (← get).ownValue? d name with
          | some v => return v
          | none => return .undefined (.member .dict name)) fun _ => σ.Alike := by
  split
  · exact sim_newNative (.keyed _ h)
  · refine sim_get fun s t hagree => ?_
    rcases rel_cases (hagree.rel_ownValue? h name) with ⟨hx, hy⟩ | ⟨x, y, hx, hy, hxy⟩ <;> rw [hx, hy]
    · exact .pure (.undefined _)
    · exact .pure hxy

theorem sim_member (h : σ.Alike v w) (name : Text) :
    σ.Sim κ (Eval.member v name) (Eval.member w name) fun _ => σ.Alike := by
  unfold Eval.member
  cases hname : Eval.isHidden name with
  | true => cases h <;> exact .throw
  | false =>
    cases h with
    | undefined reason => exact .throw
    | text u => exact sim_bound _ _ (rel_map _ fun m => .text m u)
    | @safe u _ => exact sim_bound _ _ (rel_map _ fun m => .text m u)
    | list hij => exact sim_bound _ _ (rel_map _ fun m => .list m hij)
    | mapping hij => exact sim_memberOfKeyed (.mapping hij) name
    | table hij => exact sim_memberOfKeyed (.table hij) name
    | _ => exact .pure (.undefined _)

theorem sim_keyOf (h : σ.Alike v w) : σ.Sim κ (Eval.keyOf v) (Eval.keyOf w) fun _ a b => a = b := by
  have hdisplay := sim_display (κ := κ) h
  cases h with
  | text t => exact .pure rfl
  | _ => exact hdisplay

theorem sim_dataAt (h : σ.Alike v v') (h' : σ.Alike w w') :
    σ.Sim κ (Eval.dataAt v w) (Eval.dataAt v' w') fun _ => Option.Rel σ.Alike := by
  unfold Eval.dataAt
  rcases rel_cases (rel_keyed? h) with ⟨hx, hy⟩ | ⟨c, d, hx, hy, hcd⟩ <;> rw [hx, hy]
  · exact .pure .none
  · refine (sim_keyOf h').bind_same fun μ _ name => ?_
    cases Eval.isHidden name with
    | true => exact .throw
    | false => exact sim_get fun s t hagree => .pure (hagree.rel_ownValue? hcd name)

theorem rel_at? {xs ys : List Value} (h : List.Forall₂ σ.Alike xs ys) (i : Int) :
    Option.Rel σ.Alike (Eval.at? xs i) (Eval.at? ys i) := by
  unfold Eval.at?
  rw [h.length_eq]
  dsimp only
  generalize (if i < 0 then (ys.length : Int) + i else i) = k
  by_cases hk : 0 ≤ k
  · rw [if_pos hk, if_pos hk]
    exact rel_getElem? h _
  · rw [if_neg hk, if_neg hk]
    exact .none

/-- What an integer picks from. -/
def PickAlike (σ : Correspondence) (p q : Number × Int × List Value) : Prop :=
  p.1 = q.1 ∧ p.2.1 = q.2.1 ∧ List.Forall₂ σ.Alike p.2.2 q.2.2

theorem sim_picked? (h : σ.Alike v v') (h' : σ.Alike w w') :
    σ.Sim κ (Eval.picked? v w) (Eval.picked? v' w') fun _ => Option.Rel (PickAlike σ) := by
  cases h' with
  | number x =>
    refine sim_get fun s t hagree => .pure ?_
    cases x.toInt? with
    | none => exact .none
    | some i =>
      rw [Option.bind_some, Option.bind_some]
      rcases rel_cases (hagree.rel_sequence? h) with ⟨hx, hy⟩ | ⟨xs, ys, hx, hy, hxs⟩ <;> rw [hx, hy]
      · exact .none
      · exact .some ⟨rfl, rfl, hxs⟩
  | _ => exact .pure .none

theorem sim_item (h : σ.Alike v v') (h' : σ.Alike w w') :
    σ.Sim κ (Eval.item v w) (Eval.item v' w') fun _ => σ.Alike := by
  refine sim_defined rfl rfl h <| (sim_picked? h h').bind fun μ _ a b hab => ?_
  rw [kind_eq h]
  rcases rel_cases hab with ⟨rfl, rfl⟩ | ⟨⟨x, i, xs⟩, ⟨_, _, ys⟩, rfl, rfl, rfl, rfl, hxs⟩
  · refine (sim_dataAt h h').bind fun ν _ a b hab => ?_
    rcases rel_cases hab with ⟨rfl, rfl⟩ | ⟨x, y, rfl, rfl, hxy⟩
    · have hrepr := fun μ => (sim_repr (κ := μ) h').bind_same (R := fun _ => σ.Alike)
        (f := fun key => pure (.undefined (.element v'.kind key))) fun _ _ key => .pure (.undefined _)
      cases h' with
      | text name => exact sim_member h name
      | _ => exact hrepr ν
    · exact .pure hxy
  · exact .pure (rel_getD (rel_at? hxs i) (.undefined _))

theorem sim_sliceBound (h : σ.Alike v w) :
    σ.Sim κ (Eval.sliceBound v) (Eval.sliceBound w) fun _ a b => a = b := by
  cases h with
  | absent => exact .pure rfl
  | none => exact .pure rfl
  | number x =>
    unfold Eval.sliceBound
    dsimp only
    split
    · exact .pure rfl
    · exact .throw
  | _ => exact .throw

theorem flatMap_text_eq {xs ys : List Value} (h : List.Forall₂ σ.Alike xs ys) :
    (xs.flatMap fun c => (c.text?).getD []) = ys.flatMap fun c => (c.text?).getD [] := by
  induction h with
  | nil => rfl
  | cons hxy _ ih => rw [List.flatMap_cons, List.flatMap_cons, text?_eq hxy, ih]

theorem sim_slice {start start' stop stop' step step' : Value} (h : σ.Alike v w) (hstart : σ.Alike start start')
    (hstop : σ.Alike stop stop') (hstep : σ.Alike step step') :
    σ.Sim κ (Eval.slice v start stop step) (Eval.slice w start' stop' step') fun _ => σ.Alike := by
  refine sim_defined rfl rfl h <| sim_get fun s t hagree => ?_
  rcases rel_cases (hagree.rel_sequence? h) with ⟨hx, hy⟩ | ⟨xs, ys, hx, hy, hxs⟩
  · rw [hx, hy, kind_eq h]
    exact .throw
  · rw [hx, hy]
    refine (sim_sliceBound hstep).bind_same fun μ _ step => ?_
    dsimp only
    by_cases hzero : step.getD 1 = 0
    · rw [if_pos hzero, if_pos hzero]
      exact .throw
    · rw [if_neg hzero, if_neg hzero]
      refine (sim_sliceBound hstart).bind_same fun μ _ start => ?_
      refine (sim_sliceBound hstop).bind_same fun μ _ stop => ?_
      rw [hxs.length_eq]
      have hpicked := forall₂_pick hxs (fun i => i) (slicePositions ys.length start stop (step.getD 1))
      cases h with
      | text u =>
        rw [flatMap_text_eq hpicked]
        exact .pure (.text _)
      | _ => exact sim_newList hpicked

end Stencil.Correspondence
