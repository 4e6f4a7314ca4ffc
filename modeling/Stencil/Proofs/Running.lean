import Stencil.Action

/-! How computations end, and what the runs of an action's parts are, read off a run of the whole. -/
namespace Stencil

section ends

variable {ε W α β : Type}

/-- What a computation gives, or how it fails. -/
def outcome (x : EStateM ε W α) (w : W) : Except ε α :=
  match x w with
  | .ok a _ => .ok a
  | .error e _ => .error e

/-- The state after a computation, however it ends. -/
def after (x : EStateM ε W α) (w : W) : W :=
  match x w with
  | .ok _ v => v
  | .error _ v => v

theorem outcome_eq_ok {x : EStateM ε W α} {w v : W} {a : α} (h : x w = .ok a v) : outcome x w = .ok a := by
  unfold outcome
  rw [h]

theorem outcome_eq_error {x : EStateM ε W α} {w v : W} {e : ε} (h : x w = .error e v) : outcome x w = .error e := by
  unfold outcome
  rw [h]

/-- Whether there is a result that passes a check. It can be evaluated where failures cannot be compared. -/
def passes (check : α → Bool) : Except ε α → Bool
  | .ok a => check a
  | .error _ => false

theorem exists_of_passes {check : α → Bool} {x : EStateM ε W α} {w : W} (h : passes check (outcome x w) = true) :
    ∃ a v, x w = .ok a v ∧ check a = true := by
  cases hx : x w with
  | ok a v =>
    rw [outcome_eq_ok hx] at h
    exact ⟨a, v, rfl, h⟩
  | error e v =>
    rw [outcome_eq_error hx] at h
    cases h

theorem bind_ok {x : EStateM ε W α} {f : α → EStateM ε W β} {w v : W} {a : α} (h : x w = .ok a v) :
    (x >>= f) w = f a v := by
  change EStateM.bind x f w = _
  unfold EStateM.bind
  rw [h]

theorem bind_error {x : EStateM ε W α} {f : α → EStateM ε W β} {w v : W} {e : ε} (h : x w = .error e v) :
    (x >>= f) w = .error e v := by
  change EStateM.bind x f w = _
  unfold EStateM.bind
  rw [h]

theorem bind_congr_of_eq {x y : EStateM ε W α} {f : α → EStateM ε W β} {w : W} (h : x w = y w) :
    (x >>= f) w = (y >>= f) w := by
  change EStateM.bind x f w = EStateM.bind y f w
  unfold EStateM.bind
  rw [h]

/-- A computation that gives a result got it from the results of its parts. -/
theorem exists_of_bind_ok {x : EStateM ε W α} {f : α → EStateM ε W β} {w v : W} {b : β} (h : (x >>= f) w = .ok b v) :
    ∃ a u, x w = .ok a u ∧ f a u = .ok b v := by
  cases hx : x w with
  | ok a u =>
    rw [bind_ok hx] at h
    exact ⟨a, u, rfl, h⟩
  | error e u =>
    rw [bind_error hx] at h
    cases h

/-- A computation that fails does so in one of its parts. -/
theorem exists_of_bind_error {x : EStateM ε W α} {f : α → EStateM ε W β} {w v : W} {e : ε}
    (h : (x >>= f) w = .error e v) : x w = .error e v ∨ ∃ a u, x w = .ok a u ∧ f a u = .error e v := by
  cases hx : x w with
  | ok a u =>
    rw [bind_ok hx] at h
    exact .inr ⟨a, u, rfl, h⟩
  | error e' u =>
    rw [bind_error hx] at h
    cases h
    exact .inl rfl

/-- What each step of a fold gives, where it gives something, the fold gives. -/
theorem foldlM_ok {P : β → Prop} {f : β → α → EStateM ε W β} {l : List α} {b c : β} {w v : W}
    (hf : ∀ b, P b → ∀ a ∈ l, ∀ w c v, f b a w = .ok c v → P c) (hb : P b) (h : l.foldlM f b w = .ok c v) : P c := by
  induction l generalizing b w with
  | nil =>
    cases h
    exact hb
  | cons a l ih =>
    rw [List.foldlM_cons] at h
    obtain ⟨d, u, hd, h⟩ := exists_of_bind_ok h
    refine ih (fun b hb a' ha' => hf b hb a' (List.mem_cons_of_mem a ha')) ?_ h
    exact hf b hb a List.mem_cons_self w d u hd

/-- A loop none of whose steps ends it, over the results of a computation for each element. -/
theorem forIn_eq {σ : Type} {x : α → EStateM ε W β} {body : α → σ → EStateM ε W (ForInStep σ)} {f : σ → β → σ}
    (hbody : ∀ a b c w v, x a w = .ok b v → body a c w = .ok (.yield (f c b)) v) {l : List α} {bs : List β} {w v : W}
    (h : l.mapM x w = .ok bs v) (c : σ) : forIn l c body w = .ok (bs.foldl f c) v := by
  induction l generalizing w bs c with
  | nil =>
    cases h
    rfl
  | cons a l ih =>
    rw [List.mapM_cons] at h
    obtain ⟨b, u, hb, h⟩ := exists_of_bind_ok h
    obtain ⟨bs', u', hbs, h⟩ := exists_of_bind_ok h
    cases h
    rw [List.forIn_cons, bind_ok (hbody a b c w u hb)]
    exact ih hbs (f c b)

end ends

theorem readDeep_eq {α : Type} {f : Store → Option α} {s : Store} {a : α} (h : f s = some a) :
    Eval.readDeep f s = .ok a s := by
  have hread : (get : Eval Store) s = .ok s s := rfl
  rw [Eval.readDeep, bind_ok hread, h]
  rfl

theorem readDeep_none {α : Type} {f : Store → Option α} {s : Store} (h : f s = none) :
    Eval.readDeep f s = .error .tooDeep s := by
  have hread : (get : Eval Store) s = .ok s s := rfl
  rw [Eval.readDeep, bind_ok hread, h]
  rfl

namespace Action

variable {α β : Type} {w w' : World}

theorem run_bind {x : Action α} {f : α → Action β} {b : β} (h : (x >>= f).run w = .ok b w') :
    ∃ a v, x.run w = .ok a v ∧ (f a).run v = .ok b w' :=
  exists_of_bind_ok h

theorem attempt_eq (x : Action α) (w : World) : attempt x w =
    match x w with
    | .ok a v => .ok (.ok a) v
    | .error e v => .ok (.error e) v := by
  simp only [attempt, tryCatch, tryCatchThe, MonadExceptOf.tryCatch, bind]
  delta EStateM.tryCatch EStateM.bind
  dsimp only
  cases x w <;> rfl

theorem evaluate_eq (x : Eval α) (w : World) : evaluate x w =
    match x w.store with
    | .ok a s => .ok a { w with store := s }
    | .error e s => .error (.fault e) { w with store := s } := by
  change (match x w.store with
    | .ok a s => (do set { w with store := s }; return a : Action α)
    | .error e s => do set { w with store := s }; throw (Failure.fault e)) w = _
  cases x w.store <;> rfl

theorem run_attempt {x : Action α} {a : α} (h : (attempt x).run w = .ok (.ok a) w') : x.run w = .ok a w' := by
  rw [EStateM.run, attempt_eq] at h
  cases hx : x w with
  | ok b v =>
    rw [hx] at h
    cases h
    exact hx
  | error e v =>
    rw [hx] at h
    cases h

/-- What every step of a loop keeps, the loop keeps. -/
theorem run_forIn {I : β → Prop} {f : α → β → Action (ForInStep β)}
    (hf : ∀ a b v r v', I b → (f a b).run v = .ok r v' → I r.value) :
    ∀ {l : List α} {w : World} {b b' : β}, I b → (forIn l b f).run w = .ok b' w' → I b'
  | [], w, b, b', hb, h => by
    cases h
    exact hb
  | a :: l, w, b, b', hb, h => by
    rw [List.forIn_cons] at h
    obtain ⟨r, v, hr, h⟩ := run_bind h
    have hI := hf a b w r v hb hr
    cases r with
    | done c =>
      cases h
      exact hI
    | yield c => exact run_forIn hf hI h

end Action
end Stencil
