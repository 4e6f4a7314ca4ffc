import Stencil.Proofs.Pointwise
import Stencil.Proofs.Template.ReadLevels

/-!
What stands in brackets: items between commas, the arguments of a call, tuples, and an expression in parentheses.
-/

namespace Stencil

namespace Expr

variable {ks : List TokenKind}

theorem Begins.ahead (h : Begins ks) (follow : List TokenKind) : (Parser.ahead (ks ++ follow)).starts := by
  obtain ⟨k, rest, rfl, hk⟩ := h
  exact hk

theorem Begins.ahead_ne (h : Begins ks) {k : TokenKind} (hk : k.starts = false) (follow : List TokenKind) :
    Parser.ahead (ks ++ follow) ≠ k := by
  rintro rfl
  have hstarts := h.ahead follow
  rw [hk] at hstarts
  cases hstarts

end Expr

namespace Parser

open Stencil.Expr (Matches Ends Opens Begins held separated tupled)

variable {dialect : Dialect} {total : Nat} {nested : Entry → Parser Expr} {e : Expr} {ks ks' follow : List TokenKind}
  {m n least : Nat} {P : Expr → Prop}

/-- The end of an item, of a bracket or of a part of one follows. -/
def Stops (follow : List TokenKind) : Prop :=
  ∃ op rest, follow = .operator op :: rest ∧ (TokenKind.operator op).pull = 0

theorem Stops.ends (h : Stops follow) : Ends least follow := by
  obtain ⟨op, rest, rfl, hpull⟩ := h
  exact (Nat.le_of_eq hpull).trans (Nat.zero_le _)

theorem stops_comma : Stops (.operator .comma :: ks) := ⟨_, _, rfl, rfl⟩

theorem stops_colon : Stops (.operator .colon :: ks) := ⟨_, _, rfl, rfl⟩

/-- What is read in front of all that ends it, what is nested reads too. -/
theorem ReadsBack.takes (h : ReadsBack dialect total 0 ks e) (hu : Unfolds dialect total n nested)
    (hlt : ks.length < n) (hf : Stops follow) : Takes total (nested .conditional) ks follow e.Matches :=
  (hu.mono hlt).takes fun inner hinner => h inner hinner follow hf.ends

section bracketed

variable {α β : Type} {close : Operator} {item : List α → Parser α} {piece : β → List TokenKind} {R : β → α → Prop}

/-- One more item, or the end of a bracket. -/
def bracketStep (close : Operator) (item : List α → Parser α) (items : List α) : Parser (List α ⊕ List α) := do
  if ← seesOp close then return .inr items.reverse
  if !items.isEmpty then
    let _ ← expectOp .comma
    if ← seesOp close then return .inr items.reverse
  return .inl ((← item items) :: items)

theorem bracketed_eq : bracketed close item = (do
    let items ← repeating (bracketStep close item) []
    let _ ← expectOp close
    return items) := rfl

/-- The pieces that come after others. -/
def remaining (earlier later : List (List TokenKind)) : List TokenKind :=
  if earlier.isEmpty then separated later else later.flatMap (.operator .comma :: ·)

theorem separated_append (ps qs : List (List TokenKind)) : separated (ps ++ qs) = separated ps ++ remaining ps qs := by
  cases ps with
  | nil => rfl
  | cons p ps => simp [separated, remaining]

theorem remaining_append (ps qs rs : List (List TokenKind)) :
    remaining ps (qs ++ rs) = remaining ps qs ++ remaining (ps ++ qs) rs := by
  have h := separated_append ps (qs ++ rs)
  rw [← List.append_assoc, separated_append, separated_append, List.append_assoc] at h
  exact (List.append_cancel_left h).symm

theorem length_le_separated {piece : List TokenKind} {pieces : List (List TokenKind)} (h : piece ∈ pieces) :
    piece.length ≤ (separated pieces).length := by
  obtain ⟨ps, qs, rfl⟩ := List.append_of_mem h
  rw [separated_append, List.length_append]
  cases ps with
  | nil => simp [remaining, separated]
  | cons p ps =>
    simp only [remaining, List.isEmpty_cons, Bool.false_eq_true, if_false, List.flatMap_cons, List.length_append,
      List.length_cons]
    omega

theorem length_le_tupled {piece : List TokenKind} {pieces : List (List TokenKind)} (h : piece ∈ pieces) :
    piece.length ≤ (tupled pieces).length := by
  have hle := length_le_separated h
  unfold tupled
  split
  · obtain rfl := List.mem_singleton.mp h
    simp
  · exact hle

theorem forall₂_concat {acc : List α} {bs : List β} {a : α} {b : β} (h : List.Forall₂ R bs acc.reverse) (ha : R b a) :
    List.Forall₂ R (bs ++ [b]) (a :: acc).reverse := by
  rw [List.reverse_cons]
  exact List.rel_append h (.cons ha .nil)

/-- What comes after an item is a comma or the closing bracket. -/
theorem stops_remaining (hpull : (TokenKind.operator close).pull = 0) {earlier : List (List TokenKind)}
    (later : List (List TokenKind)) (hne : earlier ≠ []) : Stops (remaining earlier later ++ .operator close :: follow) := by
  rw [remaining, List.isEmpty_eq_false_iff.mpr hne]
  cases later with
  | nil => exact ⟨close, follow, rfl, hpull⟩
  | cons piece later => exact stops_comma

theorem remaining_single_ne (earlier : List (List TokenKind)) {piece : List TokenKind} (h : Begins piece) :
    remaining earlier [piece] ≠ [] := by
  obtain ⟨k, rest, rfl, -⟩ := h
  cases earlier <;> simp [remaining, separated]

theorem remaining_comma {earlier : List (List TokenKind)} (hne : earlier ≠ []) (later : List (List TokenKind))
    (rest : List TokenKind) :
    ∃ rest', remaining earlier later ++ .operator .comma :: rest = .operator .comma :: rest' := by
  rw [remaining, List.isEmpty_eq_false_iff.mpr hne]
  cases later with
  | nil => exact ⟨rest, rfl⟩
  | cons piece later => exact ⟨_, rfl⟩

/-- A round reads one more item, behind a comma if it is not the first. -/
theorem takes_bracketStep {done : List β} {b : β} {acc : List α} (hclose : (TokenKind.operator close).starts = false)
    (hcomma : close ≠ .comma) (hbegins : Begins (piece b)) (hacc : List.Forall₂ R done acc.reverse)
    (hitem : Takes total (item acc) (piece b) follow (R b)) :
    Takes total (bracketStep close item acc) (remaining (done.map piece) [piece b]) follow
      (Sum.elim (fun acc => List.Forall₂ R (done ++ [b]) acc.reverse) fun _ => False) := by
  have hmore : Takes total (do return .inl ((← item acc) :: acc) : Parser (List α ⊕ List α)) (piece b) follow
      (Sum.elim (fun acc => List.Forall₂ R (done ++ [b]) acc.reverse) fun _ => False) :=
    hitem.bind_last fun a ha => .pure (forall₂_concat hacc ha)
  unfold bracketStep seesOp
  cases acc with
  | nil =>
    obtain rfl : done = [] := by simpa using hacc
    have hpieces : remaining (List.map piece []) [piece b] = piece b := by simp [remaining, separated]
    rw [hpieces]
    exact .unseen (hbegins.ahead_ne hclose follow) hmore
  | cons a acc =>
    have hdone : done ≠ [] := by
      rintro rfl
      simp at hacc
    have hpieces : remaining (done.map piece) [piece b] = .operator .comma :: piece b := by
      simp [remaining, hdone]
    rw [hpieces]
    refine .unseen (fun hahead => hcomma (TokenKind.operator.inj hahead).symm) ?_
    exact .expectOp fun _ => .unseen (hbegins.ahead_ne hclose follow) hmore

theorem piecesFrom_remaining (done more : List β) :
    Arrives.piecesFrom (fun done b => remaining (done.map piece) [piece b]) done more =
      remaining (done.map piece) (more.map piece) := by
  induction more generalizing done with
  | nil => cases done <;> rfl
  | cons b more ih =>
    rw [Arrives.piecesFrom, ih, List.map_append]
    exact (remaining_append (done.map piece) [piece b] (more.map piece)).symm

/-- Pieces between brackets are read one by one. -/
theorem takes_bracketed (hclose : (TokenKind.operator close).starts = false)
    (hcomma : close ≠ .comma) (hpull : (TokenKind.operator close).pull = 0) {bs : List β}
    (hbegins : ∀ b ∈ bs, Begins (piece b))
    (hitem : ∀ done b more acc, bs = done ++ b :: more → List.Forall₂ R done acc.reverse → ∀ after, Stops after →
      Takes total (item acc) (piece b) after (R b)) :
    Takes total (bracketed close item) (separated (bs.map piece) ++ [.operator close]) follow (List.Forall₂ R bs) := by
  have hrounds : Arrives total (repeating (bracketStep close item) []) (fun _ => bracketStep close item)
      (separated (bs.map piece)) (.operator close :: follow) fun acc => List.Forall₂ R bs acc.reverse := by
    have hstart : Arrives total (repeating (bracketStep close item) []) (fun _ => bracketStep close item) []
        (Arrives.piecesFrom (fun done b => remaining (done.map piece) [piece b]) [] bs ++ .operator close :: follow)
        fun acc => List.Forall₂ R [] acc.reverse := .loop .nil
    have hall := hstart.each (I := fun done (acc : List α) => List.Forall₂ R done acc.reverse) []
      (fun before b hb => remaining_single_ne _ (hbegins b hb)) fun before b after hbs _ acc hacc => by
        rw [piecesFrom_remaining]
        refine takes_bracketStep hclose hcomma (hbegins b (by simp [show bs = _ from hbs])) hacc
          (hitem before b after acc hbs hacc _ ?_)
        exact stops_remaining hpull _ (by simp)
    rwa [piecesFrom_remaining] at hall
  rw [bracketed_eq]
  refine .bind (hrounds.done fun _ acc hacc => .seen rfl (.pure hacc)) fun items hitems => ?_
  exact .expectOp fun _ => .pure hitems

end bracketed

/-! The arguments of a call. -/

/-- The tokens of an argument. -/
def argumentTokens (numeral : Number → TokenKind) : Option Text × Expr → List TokenKind
  | (none, e) => e.spell numeral
  | (some word, e) => .name word :: .operator .assign :: e.spell numeral

/-- Being the same argument, at whatever lines and places. -/
def SameArgument (a b : Option Text × Expr) : Prop := a.1 = b.1 ∧ a.2.Matches b.2

/-- All arguments in the order they are written in. -/
def argumentsInOrder (args : List Expr) (named : List (Text × Expr)) : List (Option Text × Expr) :=
  args.map (none, ·) ++ named.map fun p => (some p.1, p.2)

variable {numeral : Number → TokenKind} {args : List Expr} {named : List (Text × Expr)}

theorem spell_argumentsInOrder : Expr.spell.items numeral args ++ Expr.spell.keywords numeral named =
    (argumentsInOrder args named).map (argumentTokens numeral) := by
  rw [argumentsInOrder, List.map_append, List.map_map, List.map_map, Expr.items_eq_map, Expr.keywords_eq_map]
  rfl

/-- No argument by keyword comes before a positional one. -/
theorem positional_of_before {done more : List (Option Text × Expr)}
    (h : argumentsInOrder args named = done ++ (none, e) :: more) : ∀ a ∈ done, a.1 = none := by
  have hpairs : (argumentsInOrder args named).Pairwise fun a b => b.1 = none → a.1 = none := by
    refine List.pairwise_append.mpr ⟨?_, ?_, ?_⟩
    · exact List.pairwise_map.mpr (List.pairwise_of_forall fun _ _ _ => rfl)
    · exact List.pairwise_map.mpr (List.pairwise_of_forall fun _ _ hb => nomatch hb)
    · rintro a ha b - -
      obtain ⟨e, -, rfl⟩ := List.mem_map.mp ha
      rfl
  rw [h, List.pairwise_append] at hpairs
  exact fun a ha => hpairs.2.2 a ha _ List.mem_cons_self rfl

theorem takes_argument_keyword {word : Text} (acc : List (Option Text × Expr))
    (h : Takes total (nested .conditional) ks follow e.Matches) :
    Takes total (argument nested acc) (.name word :: .operator .assign :: ks) follow (SameArgument (some word, e)) := by
  refine .current fun k hk => .following fun k' hk' => ?_
  replace hk : k.kind = .name word := hk
  replace hk' : k'.kind = .operator .assign := hk' _ rfl
  rw [hk, hk']
  exact .next (by simp) fun _ _ => .next (by simp) fun _ _ => h.bind_last fun a ha => .pure ⟨rfl, ha⟩

theorem takes_argument_positional {acc : List (Option Text × Expr)} (hacc : ∀ a ∈ acc, a.1 = none)
    (ho : Opens least ks) (hf : Stops follow) (h : Takes total (nested .conditional) ks follow e.Matches) :
    Takes total (argument nested acc) ks follow (SameArgument (none, e)) := by
  have hplain : Takes total (do return (none, ← nested .conditional) : Parser (Option Text × Expr)) ks follow
      (SameArgument (none, e)) := h.bind_last fun a ha => .pure ⟨rfl, ha⟩
  have hany : (acc.any fun a => a.1.isSome) = false := by
    rw [List.any_eq_false]
    intro a ha
    simp [hacc a ha]
  refine .current fun k _ => .following fun k' hk' => ?_
  have hassign : k'.kind ≠ .operator .assign := by
    obtain ⟨k₀, rest, rfl, -, -, -, hassign⟩ := ho
    obtain ⟨op, rest', rfl, hpull⟩ := hf
    cases rest with
    | nil =>
      rw [hk' _ rfl]
      rintro heq
      rw [heq] at hpull
      exact nomatch hpull
    | cons k₁ rest =>
      rw [hk' _ rfl]
      exact fun heq => hassign (congrArg some heq)
  dsimp only
  split
  · rename_i hkind
    exact absurd hkind hassign
  · rw [hany]
    exact hplain

/-- Arguments that were read in order fall into the positional ones and those by keyword. -/
theorem filterMap_positional {all : List (Option Text × Expr)}
    (h : List.Forall₂ SameArgument (args.map (none, ·)) all) :
    List.Forall₂ Matches args (all.filterMap fun (word, e) => if word.isNone then some e else none) ∧
      all.filterMap (fun (word, e) => word.map (·, e)) = [] := by
  induction args generalizing all with
  | nil =>
    obtain rfl := List.forall₂_nil_left_iff.mp h
    exact ⟨.nil, rfl⟩
  | cons e args ih =>
    obtain ⟨⟨word, e'⟩, rest, ⟨rfl, he⟩, hrest, rfl⟩ := List.forall₂_cons_left_iff.mp h
    obtain ⟨hargs, hnone⟩ := ih hrest
    exact ⟨.cons he hargs, hnone⟩

theorem filterMap_keyword {all : List (Option Text × Expr)}
    (h : List.Forall₂ SameArgument (named.map fun p => (some p.1, p.2)) all) :
    (all.filterMap fun (word, e) => if word.isNone then some e else none) = [] ∧
      named.map (·.1) = (all.filterMap fun (word, e) => word.map (·, e)).map (·.1) ∧
      List.Forall₂ Matches (named.map (·.2)) ((all.filterMap fun (word, e) => word.map (·, e)).map (·.2)) := by
  induction named generalizing all with
  | nil =>
    obtain rfl := List.forall₂_nil_left_iff.mp h
    exact ⟨rfl, rfl, .nil⟩
  | cons p named ih =>
    obtain ⟨⟨word, e'⟩, rest, ⟨rfl, he⟩, hrest, rfl⟩ := List.forall₂_cons_left_iff.mp h
    obtain ⟨hnone, hwords, hnamed⟩ := ih hrest
    exact ⟨hnone, congrArg (p.1 :: ·) hwords, .cons he hnamed⟩

/-- Being the same arguments of a call. -/
def SameArguments (args : List Expr) (named : List (Text × Expr)) (read : List Expr × List (Text × Expr)) : Prop :=
  List.Forall₂ Matches args read.1 ∧ named.map (·.1) = read.2.map (·.1) ∧
    List.Forall₂ Matches (named.map (·.2)) (read.2.map (·.2))

theorem sameArguments_of_inOrder {all : List (Option Text × Expr)}
    (h : List.Forall₂ SameArgument (argumentsInOrder args named) all) :
    SameArguments args named (all.filterMap fun (word, e) => if word.isNone then some e else none,
      all.filterMap fun (word, e) => word.map (·, e)) := by
  have hargs := List.forall₂_take_append _ _ _ h.flip
  have hnamed := List.forall₂_drop_append _ _ _ h.flip
  obtain ⟨hpos, hnone⟩ := filterMap_positional hargs.flip
  obtain ⟨hnone', hwords, hvalues⟩ := filterMap_keyword hnamed.flip
  have hall := List.take_append_drop (args.map ((none : Option Text), ·)).length all
  rw [SameArguments, ← hall, List.filterMap_append, List.filterMap_append, hnone, hnone', List.append_nil]
  exact ⟨hpos, hwords, hvalues⟩

/-- The tokens of arguments in parentheses. -/
def callTokens (numeral : Number → TokenKind) (args : List Expr) (named : List (Text × Expr)) : List TokenKind :=
  .operator .leftParen :: separated (Expr.spell.items numeral args ++ Expr.spell.keywords numeral named) ++
    [.operator .rightParen]

theorem takes_arguments
    (h : ∀ e ∈ args ++ named.map (·.2), ReadsBack dialect total 0 (e.spell numeral) e ∧ Opens 0 (e.spell numeral))
    (hu : Unfolds dialect total (callTokens numeral args named).length nested) :
    Takes total (arguments nested) (callTokens numeral args named) follow (SameArguments args named) := by
  have hpart : ∀ a ∈ argumentsInOrder args named,
      ReadsBack dialect total 0 (a.2.spell numeral) a.2 ∧ Opens 0 (a.2.spell numeral) := by
    intro a ha
    refine h a.2 ?_
    rcases List.mem_append.mp ha with ha | ha <;> obtain ⟨p, hp, rfl⟩ := List.mem_map.mp ha
    · exact List.mem_append_left _ hp
    · exact List.mem_append_right _ (List.mem_map_of_mem hp)
  have hbegins : ∀ a ∈ argumentsInOrder args named, Begins (argumentTokens numeral a) := by
    rintro ⟨_ | word, e⟩ ha
    · exact (hpart _ ha).2.begins
    · exact ⟨_, _, rfl, rfl⟩
  unfold callTokens at hu ⊢
  rw [spell_argumentsInOrder] at hu ⊢
  have hitem : ∀ done b more (acc : List (Option Text × Expr)), argumentsInOrder args named = done ++ b :: more →
      List.Forall₂ SameArgument done acc.reverse → ∀ after, Stops after →
      Takes total (argument nested acc) (argumentTokens numeral b) after (SameArgument b) := by
    rintro done ⟨word, e⟩ more acc hall hacc after hafter
    have hb : (word, e) ∈ argumentsInOrder args named := by simp [hall]
    have hlength : (e.spell numeral).length < (TokenKind.operator .leftParen ::
        separated ((argumentsInOrder args named).map (argumentTokens numeral)) ++
          [TokenKind.operator .rightParen]).length := by
      have hle := length_le_separated (List.mem_map_of_mem (f := argumentTokens numeral) hb)
      have hpiece : (e.spell numeral).length ≤ (argumentTokens numeral (word, e)).length := by
        cases word <;> simp [argumentTokens, Nat.add_assoc]
      simp only [List.length_append, List.length_cons]
      omega
    have hread := (hpart _ hb).1.takes hu hlength hafter
    cases word with
    | some word => exact takes_argument_keyword acc hread
    | none =>
      refine takes_argument_positional (fun a ha => ?_) (hpart _ hb).2 hafter hread
      obtain ⟨d, hd, hsame⟩ := exists_of_forall₂ hacc (List.mem_reverse.mpr ha)
      rw [← hsame.1]
      exact positional_of_before hall d hd
  refine .expectOp fun _ => ?_
  have hall : Takes total (bracketed .rightParen (argument nested)) (separated _ ++ [.operator .rightParen]) follow _ :=
    takes_bracketed rfl (by simp) rfl hbegins hitem
  exact hall.bind_last fun all hall => .pure (sameArguments_of_inOrder hall)

theorem takes_optionalArguments
    (h : ∀ e ∈ args ++ named.map (·.2), ReadsBack dialect total 0 (e.spell numeral) e ∧ Opens 0 (e.spell numeral))
    (hu : Unfolds dialect total (callTokens numeral args named).length nested) :
    Takes total (optionalArguments nested) (callTokens numeral args named) follow (SameArguments args named) :=
  .seen rfl (takes_arguments h hu)

/-! Tuples, and one expression alone. -/

/-- One more item of a tuple, or the end of it. -/
def tupleStep (item : Parser Expr) (endWords : List Text) (items : List Expr) :
    Parser (List Expr ⊕ List Expr × Bool) := do
  if !items.isEmpty then
    let _ ← expectOp .comma
  if tupleEnds endWords (← current).kind then return .inr (items.reverse, !items.isEmpty)
  let e ← item
  if ← seesOp .comma then return .inl (e :: items)
  return .inr ((e :: items).reverse, !items.isEmpty)

theorem tuple_eq (item : Parser Expr) (endWords : List Text) (parenthesized : Bool) :
    tuple item endWords parenthesized = (do
      let line := (← current).line
      let (items, comma) ← repeating (tupleStep item endWords) []
      match comma, items with
      | false, e :: _ => return e
      | false, [] =>
        if !parenthesized then fail (.expressionExpected (← current).kind)
        return .tuple line []
      | true, items => return .tuple line items) := rfl

theorem tupleEnds_of_starts {k : TokenKind} (h : k.starts) : tupleEnds [] k = false := by
  cases k with
  | operator op => cases op <;> first | rfl | cases h
  | tagEnd | eof => cases h
  | _ => rfl

/-- What a round comes to with one more item: a tuple goes on only behind a comma. -/
def TupleRound (e : Expr) (acc : List Expr) (follow : List TokenKind) (r : List Expr ⊕ List Expr × Bool) : Prop :=
  ∃ a, e.Matches a ∧
    r = if ahead follow = .operator .comma then .inl (a :: acc) else .inr ((a :: acc).reverse, !acc.isEmpty)

/-- A round reads one more item, behind a comma if it is not the first. -/
theorem takes_tupleStep {item : Parser Expr} {done acc : List Expr} {pieces : List (List TokenKind)}
    (hbegins : Begins ks) (hacc : List.Forall₂ Matches done acc.reverse) (hpieces : pieces.length = done.length)
    (hitem : Takes total item ks follow e.Matches) :
    Takes total (tupleStep item [] acc) (remaining pieces [ks]) follow (TupleRound e acc follow) := by
  have hround : Takes total (do
        if tupleEnds [] (← current).kind then return .inr (acc.reverse, !acc.isEmpty)
        let e ← item
        if ← seesOp .comma then return .inl (e :: acc)
        return .inr ((e :: acc).reverse, !acc.isEmpty) : Parser (List Expr ⊕ List Expr × Bool))
      ks follow (TupleRound e acc follow) := by
    refine .current fun k hk => ?_
    rw [tupleEnds_of_starts (hk ▸ hbegins.ahead follow)]
    refine .bind_last hitem fun a ha => .sees ?_
    by_cases hcomma : ahead follow = .operator .comma
    · rw [List.nil_append, decide_eq_true hcomma]
      exact .pure ⟨a, ha, (if_pos hcomma).symm⟩
    · rw [List.nil_append, decide_eq_false hcomma]
      exact .pure ⟨a, ha, (if_neg hcomma).symm⟩
  unfold tupleStep
  cases acc with
  | nil =>
    obtain rfl : done = [] := by simpa using hacc
    obtain rfl : pieces = [] := by simpa using hpieces
    have hks : remaining [] [ks] = ks := by simp [remaining, separated]
    rw [hks]
    exact hround
  | cons a acc =>
    have hne : pieces ≠ [] := by
      rintro rfl
      obtain rfl : done = [] := by simpa using hpieces.symm
      simp at hacc
    have hks : remaining pieces [ks] = .operator .comma :: ks := by simp [remaining, hne]
    rw [hks]
    exact .expectOp fun _ => hround

/-- One expression alone is no tuple. -/
theorem takes_tuple_single {item : Parser Expr} {parenthesized : Bool} (hbegins : Begins ks)
    (hcomma : ahead follow ≠ .operator .comma) (hitem : Takes total item ks follow e.Matches) :
    Takes total (tuple item [] parenthesized) ks follow e.Matches := by
  have hloop : Takes total (repeating (tupleStep item []) []) ks follow fun r => ∃ a, e.Matches a ∧ r = ([a], false) := by
    have hstart : Arrives total (repeating (tupleStep item []) []) (fun _ => tupleStep item []) [] (ks ++ follow)
        (· = []) := .loop rfl
    have hks : ks = remaining [] [ks] := by simp [remaining, separated]
    refine hstart.last ?_
    rintro _ _ rfl
    rw [hks]
    have hnil : List.Forall₂ Matches [] ([] : List Expr).reverse := .nil
    refine (takes_tupleStep hbegins hnil rfl hitem).mono ?_
    rintro _ ⟨a, ha, rfl⟩
    rw [if_neg hcomma]
    exact ⟨a, ha, rfl⟩
  rw [tuple_eq]
  refine .current fun k _ => .bind_last hloop ?_
  rintro _ ⟨a, ha, rfl⟩
  exact .pure ha

/-- The rounds of a tuple for items in front of a comma. -/
theorem takes_tuple_rounds {item : Parser Expr} {es : List Expr} (hbegins : ∀ e ∈ es, Begins (e.spell numeral))
    (hitem : ∀ e ∈ es, ∀ after, Stops after → Takes total item (e.spell numeral) after e.Matches)
    (rest : List TokenKind) :
    Arrives total (repeating (tupleStep item []) []) (fun _ => tupleStep item [])
      (separated (es.map (Expr.spell numeral))) (.operator .comma :: rest)
      fun acc => List.Forall₂ Matches es acc.reverse := by
  have hstart : Arrives total (repeating (tupleStep item []) []) (fun _ => tupleStep item []) []
      (Arrives.piecesFrom (fun done e => remaining (done.map (Expr.spell numeral)) [e.spell numeral]) [] es ++
        .operator .comma :: rest) fun acc => List.Forall₂ Matches [] acc.reverse := .loop .nil
  have hrounds := hstart.each (I := fun done (acc : List Expr) => List.Forall₂ Matches done acc.reverse) []
    (fun before e he => remaining_single_ne _ (hbegins e he)) ?_
  · rwa [piecesFrom_remaining] at hrounds
  · rintro before e after hes _ acc hacc
    have he : e ∈ es := by simp [show es = _ from hes]
    obtain ⟨rest', hcomma⟩ := remaining_comma
      (show (before ++ [e]).map (Expr.spell numeral) ≠ [] by simp) (after.map (Expr.spell numeral)) rest
    rw [piecesFrom_remaining, hcomma]
    refine (takes_tupleStep (hbegins e he) hacc (List.length_map _) (hitem e he _ stops_comma)).mono ?_
    rintro _ ⟨a, ha, rfl⟩
    exact forall₂_concat hacc ha

/-- The items of a tuple in parentheses, and that there is a comma if there is an item. -/
theorem takes_tuple_items {item : Parser Expr} {es : List Expr} (hbegins : ∀ e ∈ es, Begins (e.spell numeral))
    (hitem : ∀ e ∈ es, ∀ after, Stops after → Takes total item (e.spell numeral) after e.Matches) :
    Takes total (repeating (tupleStep item []) []) (tupled (es.map (Expr.spell numeral)))
      (.operator .rightParen :: follow) fun r => List.Forall₂ Matches es r.1 ∧ r.2 = !es.isEmpty := by
  match es with
  | [] =>
    have hstart : Arrives total (repeating (tupleStep item []) []) (fun _ => tupleStep item []) []
        (.operator .rightParen :: follow) (· = []) := .loop rfl
    refine hstart.done ?_
    rintro _ _ rfl
    refine .current fun k hk => ?_
    rw [show k.kind = .operator .rightParen from hk]
    exact .pure ⟨.nil, rfl⟩
  | [e] =>
    -- a comma stands behind a single item
    have hround : Arrives total (repeating (tupleStep item []) []) (fun _ => tupleStep item []) (e.spell numeral)
        ([.operator .comma] ++ .operator .rightParen :: follow) fun acc => List.Forall₂ Matches [e] acc.reverse := by
      simpa [separated] using takes_tuple_rounds hbegins hitem (.operator .rightParen :: follow)
    refine hround.last fun _ acc hacc => ?_
    cases acc with
    | nil => cases hacc
    | cons a acc =>
      refine .expectOp fun _ => .current fun k hk => ?_
      rw [show k.kind = .operator .rightParen from hk]
      exact .pure ⟨hacc, rfl⟩
  | e :: e' :: more =>
    obtain ⟨done, last, hsplit, hdone⟩ : ∃ done last, e :: e' :: more = done ++ [last] ∧ done ≠ [] :=
      ⟨_, _, (List.dropLast_append_getLast (List.cons_ne_nil e (e' :: more))).symm, by simp⟩
    have hlast : last ∈ e :: e' :: more := by simp [hsplit]
    have hbefore : ∀ d ∈ done, d ∈ e :: e' :: more := fun d hd => by simp [hsplit, hd]
    have hcomma : remaining (done.map (Expr.spell numeral)) [last.spell numeral] =
        .operator .comma :: last.spell numeral := by simp [remaining, hdone]
    have htokens : tupled ((e :: e' :: more).map (Expr.spell numeral)) =
        separated (done.map (Expr.spell numeral)) ++ .operator .comma :: last.spell numeral := by
      rw [← hcomma, ← separated_append, ← List.map_singleton, ← List.map_append, ← hsplit]
      rfl
    rw [htokens, hsplit, ← hcomma]
    have hrounds := takes_tuple_rounds (fun d hd => hbegins d (hbefore d hd)) (fun d hd => hitem d (hbefore d hd))
      (last.spell numeral ++ .operator .rightParen :: follow)
    rw [← List.cons_append, ← hcomma] at hrounds
    refine hrounds.last fun _ acc hacc => ?_
    have hacc' : acc ≠ [] := by
      rintro rfl
      exact hdone (by simpa using hacc)
    refine (takes_tupleStep (hbegins last hlast) hacc (List.length_map _)
      (hitem last hlast _ ⟨.rightParen, follow, rfl, rfl⟩)).mono ?_
    rintro _ ⟨a, ha, rfl⟩
    rw [if_neg (by simp)]
    refine ⟨forall₂_concat hacc ha, ?_⟩
    rw [List.isEmpty_eq_false_iff.mpr hacc', List.isEmpty_eq_false_iff.mpr (by simp)]

/-- A tuple of any number of items in parentheses. -/
theorem takes_tuple {item : Parser Expr} {es : List Expr} (hbegins : ∀ e ∈ es, Begins (e.spell numeral))
    (hitem : ∀ e ∈ es, ∀ after, Stops after → Takes total item (e.spell numeral) after e.Matches) (line : Nat) :
    Takes total (tuple item [] true) (tupled (es.map (Expr.spell numeral))) (.operator .rightParen :: follow)
      (Expr.tuple line es).Matches := by
  rw [tuple_eq]
  refine .current fun k _ => .bind_last (takes_tuple_items hbegins hitem) ?_
  rintro ⟨items, comma⟩ ⟨hitems, hcomma⟩
  cases es with
  | nil =>
    obtain rfl := List.forall₂_nil_left_iff.mp hitems
    obtain rfl : comma = false := hcomma
    exact .pure (.tuple .nil)
  | cons e es =>
    obtain rfl : comma = true := hcomma
    exact .pure (.tuple hitems)

end Parser
end Stencil
