import Stencil.Proofs.Render.LoopTurns
import Stencil.Proofs.Render.Methods
import Stencil.Render.Filter

/-!
The items of a value and their number. Filters, tests, loops and indexes each look at the value for themselves, and find
the same items; only the length of a text is counted in units, of which two may be one item.
-/
namespace Stencil

/-- Number of surrogate pairs. -/
def Text.pairs : Text → Nat
  | u :: v :: rest => if u.isHighSurrogate && v.isLowSurrogate then pairs rest + 1 else pairs (v :: rest)
  | _ => 0

theorem Text.length_pointsOnto (done : List Text) (t : Text) :
    (pointsOnto done t).length + t.pairs = done.length + t.length := by
  fun_induction pointsOnto done t with
  | case1 done => simp [pairs]
  | case2 done u => simp [pairs]
  | case3 done u v rest hpair ih =>
    rw [pairs, if_pos hpair]
    simp only [List.length_cons] at ih ⊢
    omega
  | case4 done u v rest hpair ih =>
    rw [pairs, if_neg hpair]
    simp only [List.length_cons] at ih ⊢
    omega

/-- A pair is one code point, and every other unit is one of its own. -/
theorem Text.length_points (t : Text) : t.points.length + t.pairs = t.length := by
  have h := length_pointsOnto [] t
  rwa [List.length_nil, Nat.zero_add] at h

namespace Eval

variable {features : Features} {depth : Nat} {scope : ScopeId} {e : Expr} {s t : Store} {v : Value} {vs : List Value}
  {x : Number} {i : Int}

/-- An expression gives something that can be gone over: its items make a list, loops go over them, and each turn is told
how many there are. -/
structure Iterates (features : Features) (depth : Nat) (scope : ScopeId) (e : Expr) (s : Store) (v : Value) (t : Store)
    (vs : List Value) : Prop where
  list (a : Arguments) : ∃ id u, applyFilter .list v a t = .ok (.list id) u ∧ u.list id = vs
  loops (line : Nat) (target : Target) (body otherwise : List Stmt) :
    Loop.Goes features depth scope target body otherwise vs t
      (execute features (depth + 1) scope (.loop line target e none body otherwise) s)
  told (past coming : List Value) (item : Value) (h : vs = past ++ item :: coming) :
    (Text.ofString "length", Value.ofNat vs.length) ∈ Loop.facts past coming

theorem items_eq (h : t.items? v = some vs) : items v t = .ok vs t := by
  refine (run_items v t).trans ?_
  rw [h]
  rfl

theorem items_error (h : t.items? v = none) : items v t = .error (.notIterable v.kind) t := by
  refine (run_items v t).trans ?_
  rw [h]
  rfl

theorem list_newList (vs : List Value) (t : Store) : (t.newList vs).2.list t.lists.size = vs := by
  simp [Store.newList, Store.list]

theorem execute_loop_eq (he : evaluate features depth scope e s = .ok v t) (line : Nat) (target : Target)
    (body otherwise : List Stmt) :
    execute features (depth + 1) scope (.loop line target e none body otherwise) s =
      (items v >>= Loop.laps features depth scope target body otherwise) t := by
  simp only [execute]
  exact bind_ok he

theorem iterates_of_items (he : evaluate features depth scope e s = .ok v t) (h : t.items? v = some vs) :
    Iterates features depth scope e s v t vs where
  list _ := ⟨t.lists.size, (t.newList vs).2, bind_ok (items_eq h), list_newList vs t⟩
  loops line target body otherwise := by
    rw [execute_loop_eq he, bind_ok (items_eq h)]
    exact Loop.goes_laps otherwise vs t
  told past coming item hvs := by
    have hlength : vs.length = past.length + 1 + coming.length := by
      rw [hvs]
      simp only [List.length_append, List.length_cons]
      omega
    rw [hlength]
    simp [Loop.facts]

/-- An expression gives something that cannot be gone over. -/
structure Refuses (features : Features) (depth : Nat) (scope : ScopeId) (e : Expr) (s : Store) (v : Value) (t : Store) :
    Prop where
  list (a : Arguments) : applyFilter .list v a t = .error (.notIterable v.kind) t
  length (a : Arguments) : applyFilter .length v a t = .error (.noLength v.kind) t
  loops (line : Nat) (target : Target) (body otherwise : List Stmt) :
    execute features (depth + 1) scope (.loop line target e none body otherwise) s = .error (.notIterable v.kind) t

theorem length?_eq (h : t.items? v = some vs) (hv : v.text? = none) : t.length? v = some vs.length := by
  cases v with
  | undefined _ | list _ =>
    cases h
    rfl
  | mapping id | table id =>
    obtain rfl := Option.some.inj h
    exact congrArg some (List.length_map _).symm
  | text _ | safe _ => cases hv
  | _ => cases h

theorem applyFilter_length {n : Nat} (h : t.length? v = some n) (a : Arguments) :
    applyFilter .length v a t = .ok (.ofNat n) t := by
  have hget : (get : Eval Store) t = .ok t t := rfl
  unfold applyFilter
  dsimp only
  rw [bind_ok hget, h]
  rfl

theorem applyFilter_length_error (h : t.length? v = none) (a : Arguments) :
    applyFilter .length v a t = .error (.noLength v.kind) t := by
  have hget : (get : Eval Store) t = .ok t t := rfl
  unfold applyFilter
  dsimp only
  rw [bind_ok hget, h]
  rfl

theorem refuses_of_items (he : evaluate features depth scope e s = .ok v t) (h : t.items? v = none) :
    Refuses features depth scope e s v t where
  list _ := bind_error (items_error h)
  length _ := by
    have hlength : t.length? v = none := by
      cases v with
      | undefined _ | list _ | text _ | safe _ | mapping _ | table _ => cases h
      | _ => rfl
    exact applyFilter_length_error hlength _
  loops line target body otherwise := by
    rw [execute_loop_eq he]
    exact bind_error (items_error h)

/-! ## Single items -/

theorem at?_eq_none (h : ¬ Picks vs.length i) : at? vs i = none := by
  unfold at?
  dsimp only
  by_cases hneg : i < 0
  · rw [if_pos hneg]
    have hlow : ¬ 0 ≤ vs.length + i := fun hlow => h ⟨by omega, by omega⟩
    exact if_neg hlow
  · rw [if_neg hneg, if_pos (by omega)]
    have hhigh : ¬ i < vs.length := fun hhigh => h ⟨by omega, hhigh⟩
    exact List.getElem?_eq_none (by omega)

theorem item_sequence (h : sequence? s v = some vs) (hx : x.toInt? = some i) :
    item v (.number x) s = .ok ((at? vs i).getD (.undefined (.index v.kind x))) s := by
  have hpicked : picked? v (.number x) s = .ok (some (x, i, vs)) s := by
    change EStateM.Result.ok (x.toInt?.bind fun i => (sequence? s v).map (x, i, ·)) s = _
    rw [hx, h]
    rfl
  cases v with
  | list _ | text _ =>
    unfold item
    dsimp only
    rw [bind_ok hpicked]
    rfl
  | _ => cases h

/-! ## All at once -/

/-- What a value that can be gone over says about its items elsewhere: the test for that, its length, which for a text
is more by one for each pair, and the integers that pick an item of a list or of a plain text. -/
structure Counts (v : Value) (t : Store) (vs : List Value) : Prop where
  iterable (a : Arguments) : applyTest .iterable v a t = .ok (v.kind != .undefined) t
  length (a : Arguments) : ∃ n, applyFilter .length v a t = .ok (.ofNat n) t ∧ (v.text? = none → n = vs.length) ∧
    ∀ text, v.text? = some text → n = text.length ∧ vs.length + text.pairs = n
  picked (hv : (∃ id, v = .list id) ∨ ∃ text, v = .text text) {x : Number} {i : Int} (hx : x.toInt? = some i) :
    (-(vs.length : Int) ≤ i ∧ i < vs.length →
      ∃ item, vs[placeOf vs.length i]? = some item ∧ Eval.item v (.number x) t = .ok item t) ∧
    (¬ (-(vs.length : Int) ≤ i ∧ i < vs.length) →
      Eval.item v (.number x) t = .ok (.undefined (.index v.kind x)) t)

theorem counts_of_items (h : t.items? v = some vs) : Counts v t vs where
  iterable a := by
    cases v with
    | undefined _ | list _ | text _ | safe _ | mapping _ | table _ => rfl
    | _ => cases h
  length a := by
    cases htext : v.text? with
    | none => exact ⟨vs.length, applyFilter_length (length?_eq h htext) a, fun _ => rfl, nofun⟩
    | some text =>
      cases v with
      | text u | safe u =>
        obtain rfl := Option.some.inj htext
        obtain rfl := Option.some.inj h
        refine ⟨u.length, applyFilter_length rfl a, nofun, ?_⟩
        rintro _ ⟨⟩
        rw [List.length_map]
        exact ⟨rfl, u.length_points⟩
      | _ => cases htext
  picked hv x i hx := by
    have hsequence : sequence? t v = some vs := by
      obtain ⟨id, rfl⟩ | ⟨text, rfl⟩ := hv
      · exact h
      · exact h
    refine ⟨fun ⟨hlow, hhigh⟩ => ?_, fun hnot => ?_⟩
    · have hpicks : Picks vs.length i := ⟨hlow, hhigh⟩
      have hitem := List.getElem?_eq_getElem hpicks.place_lt
      refine ⟨_, hitem, ?_⟩
      rw [item_sequence hsequence hx, at?_eq hpicks, hitem]
      rfl
    · rw [item_sequence hsequence hx, at?_eq_none fun hpicks => hnot ⟨hpicks.low, hpicks.high⟩]
      rfl

/-- Every value can either be gone over or not. Where it can, its list, its loops, its length and its indexes agree on
the items; where it cannot, they all refuse it. The test for it is true of what can be gone over, but for undefined
values, which have no items. -/
theorem sizes_agree (he : evaluate features depth scope e s = .ok v t) :
    (∃ vs, Iterates features depth scope e s v t vs ∧ Counts v t vs ∧ (v.kind = .undefined → vs = [])) ∨
      (Refuses features depth scope e s v t ∧ ∀ a, applyTest .iterable v a t = .ok false t) := by
  cases h : t.items? v with
  | some vs =>
    refine Or.inl ⟨vs, iterates_of_items he h, counts_of_items h, ?_⟩
    intro hkind
    cases v with
    | undefined _ => exact (Option.some.inj h).symm
    | number x => cases h
    | _ => cases hkind
  | none =>
    refine Or.inr ⟨refuses_of_items he h, fun a => ?_⟩
    cases v with
    | undefined _ | list _ | text _ | safe _ | mapping _ | table _ => cases h
    | _ => rfl

/-- A letter and a pair are two items in three units. -/
theorem sizes_agree_of_pair :
    let text : Text := [97, 0xD83D, 0xDE00]
    let e := Expr.const 1 (.text text)
    let items : List Value := [.text [97], .text [0xD83D, 0xDE00]]
    evaluate ⟨false, [], []⟩ 1 0 e .empty = .ok (.text text) .empty ∧
      applyFilter .length (.text text) ⟨[], []⟩ .empty = .ok (.ofNat 3) .empty ∧
      Eval.item (.text text) (.number (-1)) .empty = .ok (.text [0xD83D, 0xDE00]) .empty ∧
      ∀ body, Loop.Goes ⟨false, [], []⟩ 1 0 (.name ⟨"c", 1, 1⟩) body [] items .empty
        (execute ⟨false, [], []⟩ 2 0 (.loop 1 (.name ⟨"c", 1, 1⟩) e none body []) .empty) := by
  intro text e items
  have he : evaluate ⟨false, [], []⟩ 1 0 e .empty = .ok (.text text) .empty := by
    rw [evaluate_const]
    rfl
  have hx : (-1 : Number).toInt? = some (-1) := by decide +kernel
  have hlist : applyFilter .list (.text text) ⟨[], []⟩ .empty = .ok (.list 0) (Store.empty.newList items).2 := rfl
  obtain ⟨vs, hiterates, hcounts, -⟩ | ⟨hrefuses, -⟩ := sizes_agree he
  · obtain ⟨id, u, hlist', hvs⟩ := hiterates.list ⟨[], []⟩
    rw [hlist] at hlist'
    cases hlist'
    obtain rfl : items = vs := hvs
    obtain ⟨n, hlength, -, hunits⟩ := hcounts.length ⟨[], []⟩
    obtain ⟨rfl, -⟩ := hunits text rfl
    obtain ⟨item, hitem, hpicked⟩ := (hcounts.picked (.inr ⟨text, rfl⟩) hx).1 ⟨by decide, by decide⟩
    obtain rfl := Option.some.inj hitem
    exact ⟨he, hlength, hpicked, fun body => hiterates.loops 1 _ body []⟩
  · have hrefused := hrefuses.list ⟨[], []⟩
    rw [hlist] at hrefused
    cases hrefused

/-- A pair has the length two, but it is one item of its list and one turn of a loop. A loop goes over an undefined value,
which the test does not pass. A safe text has items, and an index finds none. -/
theorem length_of_pair :
    let pair := Expr.const 1 (.text [0xD83D, 0xDE00])
    let c : Target := .name ⟨"c", 1, 1⟩
    let missing := Expr.name ⟨"u", 1, 1⟩
    textOf [] (.filter 1 pair "length" [] []) = .ok "2" ∧
      textOf [] (.filter 1 (.filter 1 pair "list" [] []) "length" [] []) = .ok "1" ∧
      textOf [] (.test 1 missing "iterable" [] [] false) = .ok "false" ∧
      outcome (execute ⟨false, [], []⟩ 3 0 (.loop 1 c missing none [] [])) .empty = .ok [] ∧
      textOf [] (.item 1 (.filter 1 (.const 1 (.text "a")) "safe" [] []) (.const 1 (.number 0))) = .ok [] := by
  decide +kernel

end Eval
end Stencil
