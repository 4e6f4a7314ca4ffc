import Stencil.Proofs.Quiet
import Stencil.Proofs.Realm.Basic

/-! Computations inside of a realm: what they give is of the realm as well, where they give something. -/
namespace Stencil

/-! ## Computations that stay in a realm -/

namespace Realm

variable {ρ : Realm} {s t : Store} {α β γ : Type}

/-- Started in a store of the realm, a computation leaves one with no fewer things and gives what `Q` says, where it
gives something. -/
def Yields (ρ : Realm) (s : Store) (x : Eval α) (Q : Store → α → Prop) : Prop :=
  ρ.Rules s → ∀ a t, x s = .ok a t → ρ.Rules t ∧ s.Grows t ∧ Q t a

namespace Yields

variable {x : Eval α} {P Q : Store → α → Prop}

theorem pure {a : α} (h : Q s a) : ρ.Yields s (pure a) Q := by
  intro hs b t ht
  cases ht
  exact ⟨hs, .refl s, h⟩

theorem throw {e : Fault} : ρ.Yields s (throw e : Eval α) Q := fun _ _ _ h => nomatch h

theorem mono (h : ρ.Yields s x P) (hPQ : ∀ t a, s.Grows t → P t a → Q t a) : ρ.Yields s x Q := by
  intro hs a t ht
  obtain ⟨hrules, hst, ha⟩ := h hs a t ht
  exact ⟨hrules, hst, hPQ t a hst ha⟩

theorem bind {f : α → Eval β} {R : Store → β → Prop} (h : ρ.Yields s x P)
    (hf : ∀ t a, s.Grows t → P t a → ρ.Yields t (f a) R) : ρ.Yields s (x >>= f) R := by
  intro hs b u hu
  obtain ⟨a, t, ht, hu⟩ := exists_of_bind_ok hu
  obtain ⟨hrules, hst, ha⟩ := h hs a t ht
  obtain ⟨hrules, htu, hb⟩ := hf t a hst ha hrules b u hu
  exact ⟨hrules, hst.trans htu, hb⟩

/-- After a computation that changes nothing. -/
theorem after_quiet {f : α → Eval β} {R : Store → β → Prop} (hx : Quiet x) (hf : ∀ a, ρ.Yields s (f a) R) :
    ρ.Yields s (x >>= f) R := by
  intro hs b u hu
  obtain ⟨a, t, ht, hu⟩ := exists_of_bind_ok hu
  cases hx.ok ht
  exact hf a hs b u hu

theorem of_quiet (hx : Quiet x) (hQ : ∀ a, Q s a) : ρ.Yields s x Q := by
  intro hs a t ht
  cases hx.ok ht
  exact ⟨hs, .refl s, hQ a⟩

theorem get_bind {f : Store → Eval β} {R : Store → β → Prop} (h : ρ.Rules s → ρ.Yields s (f s) R) :
    ρ.Yields s (get >>= f) R := fun hs => h hs hs

theorem read {f : Store → α} (h : ρ.Rules s → Q s (f s)) : ρ.Yields s (Eval.read f) Q := by
  intro hs a t ht
  cases ht
  exact ⟨hs, .refl s, h hs⟩

theorem readDeep {f : Store → Option α} (h : ρ.Rules s → ∀ a ∈ f s, Q s a) : ρ.Yields s (Eval.readDeep f) Q := by
  refine get_bind fun hs => ?_
  cases hf : f s with
  | some a => exact .pure (h hs a hf)
  | none => exact .throw

theorem alloc {f : Store → α × Store}
    (h : ρ.Rules s → ρ.Rules (f s).2 ∧ s.Grows (f s).2 ∧ Q (f s).2 (f s).1) : ρ.Yields s (Eval.alloc f) Q := by
  intro hs a t ht
  cases ht
  exact h hs

theorem modify {f : Store → Store} (h : ρ.Rules s → ρ.Rules (f s) ∧ s.Grows (f s)) :
    ρ.Yields s (modify f : Eval Unit) fun _ _ => True := by
  intro hs a t ht
  cases ht
  exact ⟨(h hs).1, (h hs).2, trivial⟩

theorem mapM {l : List α} {f : α → Eval β} {P : Store → β → Prop}
    (hP : ∀ {t u : Store} {b}, t.Grows u → P t b → P u b)
    (hf : ∀ t, s.Grows t → ∀ a ∈ l, ρ.Yields t (f a) P) : ρ.Yields s (l.mapM f) fun t bs => ∀ b ∈ bs, P t b := by
  induction l generalizing s with
  | nil => exact .pure fun _ hb => nomatch hb
  | cons a l ih =>
    rw [List.mapM_cons]
    refine (hf s (.refl s) a List.mem_cons_self).bind fun t b hst hb => ?_
    refine (ih fun u htu a ha => hf u (hst.trans htu) a (List.mem_cons_of_mem _ ha)).bind fun u bs htu hbs => ?_
    exact .pure (List.forall_mem_cons.mpr ⟨hP htu hb, hbs⟩)

theorem foldlM {l : List α} {f : β → α → Eval β} {P : Store → β → Prop} {b : β} (hb : P s b)
    (hf : ∀ t, s.Grows t → ∀ b, P t b → ∀ a ∈ l, ρ.Yields t (f b a) P) : ρ.Yields s (l.foldlM f b) P := by
  induction l generalizing s b with
  | nil => exact .pure hb
  | cons a l ih =>
    rw [List.foldlM_cons]
    refine (hf s (.refl s) b hb a List.mem_cons_self).bind fun t c hst hc => ?_
    exact ih hc fun u htu d hd a ha => hf u (hst.trans htu) d hd a (List.mem_cons_of_mem _ ha)

/-- What is kept of a list was in it. -/
theorem filterM {l : List α} {f : α → Eval Bool}
    (hf : ∀ t, s.Grows t → ∀ a ∈ l, ρ.Yields t (f a) fun _ _ => True) :
    ρ.Yields s (l.filterM f) fun _ bs => ∀ b ∈ bs, b ∈ l := by
  have haux : ∀ (rest done : List α) {s : Store}, (∀ b ∈ done, b ∈ l) → (∀ b ∈ rest, b ∈ l) →
      (∀ t, s.Grows t → ∀ a ∈ l, ρ.Yields t (f a) fun _ _ => True) →
      ρ.Yields s (rest.filterAuxM f done) fun _ bs => ∀ b ∈ bs, b ∈ l := by
    intro rest
    induction rest with
    | nil => exact fun done _ hdone _ _ => .pure hdone
    | cons a rest ih =>
      intro done s hdone hrest hf
      obtain ⟨ha, hrest⟩ := List.forall_mem_cons.mp hrest
      refine (hf s (.refl s) a ha).bind fun t keep hst _ => ?_
      have hf' : ∀ u, t.Grows u → ∀ a ∈ l, ρ.Yields u (f a) fun _ _ => True := fun u htu => hf u (hst.trans htu)
      cases keep with
      | true => exact ih _ (List.forall_mem_cons.mpr ⟨ha, hdone⟩) hrest hf'
      | false => exact ih _ hdone hrest hf'
  refine (haux l [] (fun _ hb => nomatch hb) (fun _ hb => hb) hf).bind fun _ _ _ hbs => .pure ?_
  exact fun b hb => hbs b (List.mem_reverse.mp hb)

end Yields

/-! ## New things -/

section making

variable {vs : List Value} {entries : List (Text × Value)} {v : Value}

theorem yields_newList (h : ∀ v ∈ vs, ρ.Owns s v) : ρ.Yields s (Eval.newList vs) ρ.Owns :=
  .alloc fun hs => hs.newList h

theorem yields_mappingOf (h : ∀ p ∈ entries, ρ.Owns s p.2) : ρ.Yields s (Eval.mappingOf entries) ρ.Owns := by
  refine .alloc fun hs => hs.newMapping fun p hp => ?_
  obtain ⟨q, hq, rfl⟩ := List.mem_map.mp (Properties.mem_ofList hp)
  exact h q hq

theorem yields_newNative {f : Native} (h : ∀ p ∈ f.places, ρ.Has s p) : ρ.Yields s (Eval.newNative f) ρ.Owns :=
  .alloc fun hs => hs.newNative h

theorem yields_newScope {i : ScopeId} (h : ρ.Home s i) : ρ.Yields s (Eval.newScope i) ρ.Home :=
  .alloc fun hs => hs.newScope (fun _ hk => Option.some.inj hk ▸ h.has) fun _ hp => nomatch hp

theorem yields_setVar {i : ScopeId} (h : ρ.Home s i) (name : Text) (hv : ρ.Owns s v) :
    ρ.Yields s (Eval.setVar i name v) fun _ _ => True :=
  .modify fun hs => hs.setVar h name hv

/-- The items that iteration visits. -/
theorem yields_items (h : ρ.Owns s v) : ρ.Yields s (Eval.items v) fun t vs => ∀ w ∈ vs, ρ.Owns t w := by
  refine .get_bind fun hs => ?_
  have htexts : ∀ ts : List Text, ∀ w ∈ ts.map Value.text, ρ.Owns s w := by
    intro ts w hw
    obtain ⟨t, _, rfl⟩ := List.mem_map.mp hw
    exact owns_text t
  have hkeys : ∀ c, ∀ w ∈ (s.entriesOf c).map fun p => Value.text p.1, ρ.Owns s w := by
    intro c w hw
    obtain ⟨p, _, rfl⟩ := List.mem_map.mp hw
    exact owns_text p.1
  cases v with
  | undefined reason => exact .pure fun _ hw => nomatch hw
  | list id => exact .pure (hs.list h)
  | text t | safe t => exact .pure (htexts _)
  | mapping id => exact .pure (hkeys (.mapping id))
  | table id => exact .pure (hkeys (.table id))
  | _ => exact .throw

theorem yields_plain (h : ρ.Owns s v) : ρ.Yields s (Eval.plain v) ρ.Owns := by
  cases v with
  | undefined reason => exact .throw
  | safe t => exact .pure (owns_text t)
  | _ => exact .pure h

end making
end Realm
end Stencil
