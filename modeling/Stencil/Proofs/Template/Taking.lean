import Mathlib.Data.List.Basic
import Stencil.Template.Parser

/-!
Parsers on tokens of known kinds. A parser takes some tokens where others follow: it passes over the former and
gives a result; the lines and the places of tokens play no part. A loop is followed round by round, from the
result of one to that of the next.
-/

namespace Stencil.Parser

variable {α β γ : Type} {total : Nat} {x : Parser α} {ks ks' follow : List TokenKind} {P Q : α → Prop}
  {R : β → Prop}

/-- Where tokens of the kinds `ks` stand before those of the kinds `follow`, the parser passes over the former
and gives a result of `P`. -/
def Takes (total : Nat) (x : Parser α) (ks follow : List TokenKind) (P : α → Prop) : Prop :=
  ∀ used rest : List Token, used.map (·.kind) = ks → rest.map (·.kind) = follow →
    used.length + rest.length ≤ total → ∀ work, ∃ a work',
      x.run ⟨used ++ rest, total, work⟩ = .ok a ⟨rest, total, work'⟩ ∧ P a

/-- The kind of the token ahead. -/
abbrev ahead (ks : List TokenKind) : TokenKind := ks.headD .eof

theorem current_kind (tokens : List Token) (total work : Nat) :
    (State.current ⟨tokens, total, work⟩).kind = ahead (tokens.map (·.kind)) := by
  cases tokens <;> rfl

namespace Takes

theorem pure {a : α} (h : P a) : Takes total (Pure.pure a) [] follow P := by
  intro used rest hused _ _ work
  obtain rfl := List.map_eq_nil_iff.mp hused
  exact ⟨a, work, rfl, h⟩

theorem mono (hx : Takes total x ks follow P) (h : ∀ a, P a → Q a) : Takes total x ks follow Q := by
  intro used rest hused hrest hle work
  obtain ⟨a, work', hrun, ha⟩ := hx used rest hused hrest hle work
  exact ⟨a, work', hrun, h a ha⟩

theorem bind {f : α → Parser β} (hx : Takes total x ks (ks' ++ follow) P)
    (hf : ∀ a, P a → Takes total (f a) ks' follow R) : Takes total (x >>= f) (ks ++ ks') follow R := by
  intro used rest hused hrest hle work
  obtain ⟨first, second, rfl, rfl, rfl⟩ := List.map_eq_append_iff.mp hused
  rw [List.length_append, Nat.add_assoc] at hle
  have hmore : (second ++ rest).map (·.kind) = second.map (·.kind) ++ follow := by rw [List.map_append, hrest]
  obtain ⟨a, work₁, hrun, ha⟩ := hx first (second ++ rest) rfl hmore (by rwa [List.length_append]) work
  obtain ⟨b, work₂, hrun', hb⟩ := hf a ha second rest rfl hrest (by omega) work₁
  refine ⟨b, work₂, ?_, hb⟩
  rw [EStateM.run_bind, List.append_assoc, hrun]
  exact hrun'

theorem map {g : α → β} (hx : Takes total x ks follow P) (h : ∀ a, P a → R (g a)) :
    Takes total (g <$> x) ks follow R := by
  have hbind : Takes total (x >>= fun a => Pure.pure (g a)) (ks ++ []) follow R := hx.bind fun a ha => .pure (h a ha)
  rwa [List.append_nil] at hbind

/-- The first part of a parser takes nothing. -/
theorem bind_nil {f : α → Parser β} (hx : Takes total x [] (ks ++ follow) P)
    (hf : ∀ a, P a → Takes total (f a) ks follow R) : Takes total (x >>= f) ks follow R := hx.bind hf

/-- The last part of a parser takes nothing. -/
theorem bind_last {f : α → Parser β} (hx : Takes total x ks follow P)
    (hf : ∀ a, P a → Takes total (f a) [] follow R) : Takes total (x >>= f) ks follow R := by
  rw [← List.append_nil ks]
  exact hx.bind hf

theorem current {f : Token → Parser α}
    (h : ∀ k : Token, k.kind = ahead (ks ++ follow) → Takes total (f k) ks follow P) :
    Takes total (current >>= f) ks follow P := by
  intro used rest hused hrest hle work
  refine h _ ?_ used rest hused hrest hle work
  rw [current_kind, List.map_append, hused, hrest]

/-- The token behind the next one, if there is one. -/
theorem following {f : Token → Parser α}
    (h : ∀ k : Token, (∀ kind, ((ks ++ follow).drop 1).head? = some kind → k.kind = kind) →
      Takes total (f k) ks follow P) :
    Takes total (following >>= f) ks follow P := by
  intro used rest hused hrest hle work
  refine h _ (fun kind hkind => ?_) used rest hused hrest hle work
  rw [← hused, ← hrest, ← List.map_append, ← List.map_drop, List.head?_map] at hkind
  obtain ⟨k, hk, rfl⟩ := Option.map_eq_some_iff.mp hkind
  rw [List.headD_eq_head?_getD, hk]
  rfl

theorem sees {kind : TokenKind} {f : Bool → Parser α}
    (h : Takes total (f (decide (ahead (ks ++ follow) = kind))) ks follow P) :
    Takes total (sees kind >>= f) ks follow P := by
  intro used rest hused hrest hle work
  have hf := h used rest hused hrest hle work
  rwa [← hused, ← hrest, ← List.map_append, ← current_kind _ total work] at hf

theorem seen {kind : TokenKind} {f : Bool → Parser α} (hk : ahead (ks ++ follow) = kind)
    (h : Takes total (f true) ks follow P) : Takes total (Parser.sees kind >>= f) ks follow P :=
  sees (by rwa [decide_eq_true hk])

theorem unseen {kind : TokenKind} {f : Bool → Parser α} (hk : ahead (ks ++ follow) ≠ kind)
    (h : Takes total (f false) ks follow P) : Takes total (Parser.sees kind >>= f) ks follow P :=
  sees (by rwa [decide_eq_false hk])

theorem next {kind : TokenKind} {f : Token → Parser α} (hk : kind ≠ .eof)
    (h : ∀ k : Token, k.kind = kind → Takes total (f k) ks follow P) :
    Takes total (next >>= f) (kind :: ks) follow P := by
  intro used rest hused hrest hle work
  obtain ⟨k, more, rfl, rfl, hmore⟩ := List.map_eq_cons_iff.mp hused
  have hle : more.length + rest.length ≤ total := by
    rw [List.length_cons] at hle
    omega
  obtain ⟨a, work', hrun, ha⟩ := h k rfl more rest hmore hrest hle work
  refine ⟨a, work', ?_, ha⟩
  rw [← hrun, EStateM.run_bind]
  have hnext : Parser.next.run ⟨k :: more ++ rest, total, work⟩ = .ok k ⟨more ++ rest, total, work⟩ := by
    change (if k.kind = .eof then _ else _ : Parser Token).run _ = _
    rw [if_neg hk]
    rfl
  rw [hnext]

theorem next_alone {kind : TokenKind} (hk : kind ≠ .eof) :
    Takes total Parser.next [kind] follow fun k => k.kind = kind := by
  have hnext : Takes total (Parser.next >>= Pure.pure) [kind] follow fun k => k.kind = kind :=
    next hk fun k hk => .pure hk
  rwa [bind_pure] at hnext

theorem skip {kind : TokenKind} {f : Bool → Parser α} (hk : kind ≠ .eof) (h : Takes total (f true) ks follow P) :
    Takes total (skipIf kind >>= f) (kind :: ks) follow P := by
  unfold skipIf
  rw [bind_assoc]
  refine seen rfl ?_
  rw [if_pos rfl, bind_assoc]
  exact next hk fun _ _ => h

theorem noSkip {kind : TokenKind} {f : Bool → Parser α} (hk : ahead (ks ++ follow) ≠ kind)
    (h : Takes total (f false) ks follow P) : Takes total (skipIf kind >>= f) ks follow P := by
  unfold skipIf
  rw [bind_assoc]
  exact unseen hk h

theorem expectOp {op : Operator} {f : Token → Parser α}
    (h : ∀ k : Token, Takes total (f k) ks follow P) :
    Takes total (expectOp op >>= f) (.operator op :: ks) follow P := by
  unfold Parser.expectOp seesOp
  rw [bind_assoc]
  refine seen rfl ?_
  rw [if_pos rfl]
  exact next (by simp) fun k _ => h k

theorem expectWord {word : String} {f : Token → Parser α}
    (h : ∀ k : Token, Takes total (f k) ks follow P) :
    Takes total (expectWord word >>= f) (.name word :: ks) follow P := by
  unfold Parser.expectWord seesWord
  rw [bind_assoc]
  refine seen rfl ?_
  rw [if_pos rfl]
  exact next (by simp) fun k _ => h k

theorem expectTagEnd {tag : TagKind} {f : Unit → Parser α} (h : Takes total (f ()) ks follow P) :
    Takes total (expectTagEnd tag >>= f) (.tagEnd tag :: ks) follow P := by
  unfold Parser.expectTagEnd
  rw [bind_assoc]
  refine seen rfl ?_
  rw [if_pos rfl, bind_assoc]
  exact next (by simp) fun k _ => h

theorem expectName {word : Text} {f : Name → Parser α} (h : ∀ n : Name, n.text = word → Takes total (f n) ks follow P) :
    Takes total (expectName >>= f) (.name word :: ks) follow P := by
  unfold Parser.expectName
  rw [bind_assoc]
  refine current fun k hk => ?_
  replace hk : k.kind = .name word := hk
  rw [hk, bind_assoc]
  exact next (by simp) fun _ _ => h _ rfl

end Takes

/-! Loops. -/

/-- The parser comes to a loop with a result of `P` so far, and enough fuel for all tokens ahead. The step of the
loop may depend on the line it was entered on. -/
def Arrives (total : Nat) (x : Parser β) (step : Nat → α → Parser (α ⊕ β)) (ks follow : List TokenKind)
    (P : α → Prop) : Prop :=
  ∀ used rest : List Token, used.map (·.kind) = ks → rest.map (·.kind) = follow →
    used.length + rest.length ≤ total → ∀ work, ∃ line a fuel work', rest.length < fuel ∧
      x.run ⟨used ++ rest, total, work⟩ = (iterate (step line) fuel a).run ⟨rest, total, work'⟩ ∧ P a

namespace Arrives

variable {step : Nat → α → Parser (α ⊕ β)} {y : Parser β}

theorem repeating (step : Nat → α → Parser (α ⊕ β)) (line : Nat) {a : α} (h : P a) :
    Arrives total (repeating (step line) a) step [] follow P := by
  intro used rest hused _ hle work
  obtain rfl := List.map_eq_nil_iff.mp hused
  refine ⟨line, a, total + 1, work, ?_, rfl, h⟩
  rw [List.length_nil] at hle
  omega

/-- A loop whose step does not depend on the line. -/
theorem loop {round : α → Parser (α ⊕ β)} {a : α} (h : P a) :
    Arrives total (Parser.repeating round a) (fun _ => round) [] follow P :=
  repeating (fun _ => round) 0 h

theorem bind {z : Parser γ} {f : γ → Parser β} {S : γ → Prop} (hz : Takes total z ks (ks' ++ follow) S)
    (hf : ∀ c, S c → Arrives total (f c) step ks' follow P) :
    Arrives total (z >>= f) step (ks ++ ks') follow P := by
  intro used rest hused hrest hle work
  obtain ⟨first, second, rfl, rfl, rfl⟩ := List.map_eq_append_iff.mp hused
  rw [List.length_append, Nat.add_assoc] at hle
  have hmore : (second ++ rest).map (·.kind) = second.map (·.kind) ++ follow := by rw [List.map_append, hrest]
  obtain ⟨c, work₁, hrun, hc⟩ := hz first (second ++ rest) rfl hmore (by rwa [List.length_append]) work
  obtain ⟨line, a, fuel, work₂, hfuel, hrun', ha⟩ := hf c hc second rest rfl hrest (by omega) work₁
  refine ⟨line, a, fuel, work₂, hfuel, ?_, ha⟩
  rw [← hrun', EStateM.run_bind, List.append_assoc, hrun]

theorem bind_last {z : Parser γ} {f : γ → Parser β} {S : γ → Prop} (hz : Takes total z ks follow S)
    (hf : ∀ c, S c → Arrives total (f c) step [] follow P) : Arrives total (z >>= f) step ks follow P := by
  rw [← List.append_nil ks]
  exact bind hz hf

theorem current {f : Token → Parser β}
    (h : ∀ k : Token, k.kind = ahead (ks ++ follow) → Arrives total (f k) step ks follow P) :
    Arrives total (current >>= f) step ks follow P := by
  intro used rest hused hrest hle work
  refine h _ ?_ used rest hused hrest hle work
  rw [current_kind, List.map_append, hused, hrest]

theorem next {kind : TokenKind} {f : Token → Parser β} (hk : kind ≠ .eof)
    (h : ∀ k : Token, k.kind = kind → Arrives total (f k) step ks follow P) :
    Arrives total (next >>= f) step (kind :: ks) follow P :=
  bind (Takes.next_alone hk) h

theorem run_iterate {a : α} {fuel work : Nat} {rest : List Token} (round : α → Parser (α ⊕ β)) :
    (iterate round (fuel + 1) a).run ⟨rest, total, work⟩ =
      (do match ← round a with
        | .inl a => iterate round fuel a
        | .inr b => return b : Parser β).run ⟨rest, total, work + 1⟩ := rfl

/-- With what a round gives, the loop goes on or is over. -/
theorem round {S : α ⊕ β → Prop} (h : Arrives total y step ks (ks' ++ follow) P)
    (hstep : ∀ line a, P a → Takes total (step line a) ks' follow S) {used rest : List Token}
    (hused : used.map (·.kind) = ks ++ ks') (hrest : rest.map (·.kind) = follow)
    (hle : used.length + rest.length ≤ total) (work : Nat) : ∃ line r fuel work', ks'.length + rest.length ≤ fuel ∧
      y.run ⟨used ++ rest, total, work⟩ =
        (Sum.elim (iterate (step line) fuel) Pure.pure r : Parser β).run ⟨rest, total, work'⟩ ∧ S r := by
  obtain ⟨first, second, rfl, rfl, rfl⟩ := List.map_eq_append_iff.mp hused
  rw [List.length_append, Nat.add_assoc] at hle
  have hmore : (second ++ rest).map (·.kind) = second.map (·.kind) ++ follow := by rw [List.map_append, hrest]
  obtain ⟨line, a, fuel, work₁, hfuel, hrun, ha⟩ :=
    h first (second ++ rest) rfl hmore (by rwa [List.length_append]) work
  rw [List.length_append] at hfuel
  obtain ⟨fuel, rfl⟩ : ∃ n, fuel = n + 1 := ⟨fuel - 1, by omega⟩
  obtain ⟨r, work₂, hround, hr⟩ := hstep line a ha second rest rfl hrest (by omega) (work₁ + 1)
  refine ⟨line, r, fuel, work₂, by rw [List.length_map]; omega, ?_, hr⟩
  rw [List.append_assoc, hrun, run_iterate, EStateM.run_bind, hround]
  cases r <;> rfl

/-- One more round, which takes tokens. -/
theorem more (h : Arrives total y step ks (ks' ++ follow) P) (hne : ks' ≠ [])
    (hstep : ∀ line a, P a → Takes total (step line a) ks' follow (Sum.elim Q fun _ => False)) :
    Arrives total y step (ks ++ ks') follow Q := by
  intro used rest hused hrest hle work
  have hpos := List.length_pos_iff.mpr hne
  obtain ⟨line, r, fuel, work', hfuel, hrun, hr⟩ := h.round hstep hused hrest hle work
  cases r with
  | inl b => exact ⟨line, b, fuel, work', by omega, hrun, hr⟩
  | inr b => exact hr.elim

/-- The last round. -/
theorem last (h : Arrives total y step ks (ks' ++ follow) P)
    (hstep : ∀ line a, P a → Takes total (step line a) ks' follow (Sum.elim (fun _ => False) R)) :
    Takes total y (ks ++ ks') follow R := by
  intro used rest hused hrest hle work
  obtain ⟨line, r, fuel, work', hfuel, hrun, hr⟩ := h.round hstep hused hrest hle work
  cases r with
  | inl b => exact hr.elim
  | inr b => exact ⟨b, work', hrun, hr⟩

/-- The last round, which takes nothing. -/
theorem done (h : Arrives total y step ks follow P)
    (hstep : ∀ line a, P a → Takes total (step line a) [] follow (Sum.elim (fun _ => False) R)) :
    Takes total y ks follow R := by
  rw [← List.append_nil ks]
  exact last h hstep

/-- The tokens of several items one after the other, each spelled as the items before it demand. -/
def piecesFrom (piece : List γ → γ → List TokenKind) : List γ → List γ → List TokenKind
  | _, [] => []
  | done, c :: more => piece done c ++ piecesFrom piece (done ++ [c]) more

/-- One round for each of several items, in their order: if each round keeps what is true of the items so far, it
is true of all in the end. -/
theorem each {piece : List γ → γ → List TokenKind} {I : List γ → α → Prop} (done : List γ) {more : List γ}
    (h : Arrives total y step ks (piecesFrom piece done more ++ follow) (I done))
    (hne : ∀ before, ∀ c ∈ more, piece before c ≠ [])
    (hstep : ∀ before c after, done ++ more = before ++ c :: after → ∀ line a, I before a →
      Takes total (step line a) (piece before c) (piecesFrom piece (before ++ [c]) after ++ follow)
        (Sum.elim (I (before ++ [c])) fun _ => False)) :
    Arrives total y step (ks ++ piecesFrom piece done more) follow (I (done ++ more)) := by
  induction more generalizing done ks with
  | nil => simpa [piecesFrom] using h
  | cons c more ih =>
    rw [piecesFrom, List.append_assoc] at h
    have hround := h.more (hne done c List.mem_cons_self) (hstep done c more rfl)
    have hall := ih (done ++ [c]) hround (fun before d hd => hne before d (List.mem_cons_of_mem c hd))
      fun before d after hbefore =>
        hstep before d after (by rw [← hbefore, List.append_assoc, List.singleton_append])
    rwa [List.append_assoc, List.append_assoc, List.singleton_append] at hall

end Arrives
end Stencil.Parser
