import Stencil.Proofs.Template.ReadBrackets

/-!
Primary expressions, and the members, subscripts and calls after them.
-/

namespace Stencil.Parser

open Stencil.Expr (Matches Ends Opens Begins Spells Writable held separated tupled)

variable {dialect : Dialect} {total : Nat} {nested : Entry → Parser Expr} {e : Expr} {ks ks' follow : List TokenKind}
  {least : Nat} {numeral : Number → TokenKind} {l : Nat}

/-- A primary expression is read from tokens, also in front of what goes on with it. -/
def PrimaryBack (dialect : Dialect) (total : Nat) (ks : List TokenKind) (e : Expr) : Prop :=
  ∀ nested, Unfolds dialect total ks.length nested → ∀ follow, Ends 11 follow →
    Takes total (primary nested) ks follow e.Matches

theorem PrimaryBack.reaches (h : PrimaryBack dialect total ks e) : ReachesBack dialect total 10 ks e :=
  fun nested hu follow hf => .bind_last (h nested hu follow hf) fun _ ha => .loop ha

theorem primary_name {n : Name} (hn : n.text ∉ Expr.reservedWords) :
    PrimaryBack dialect total ((Expr.name n).spell numeral) (.name n) := by
  intro nested _ follow _
  have hconstant : constantWord? n.text = none := by
    have hne : ∀ word : String, Text.ofString word ∈ Expr.reservedWords → n.text ≠ word :=
      fun word hword heq => hn (heq ▸ hword)
    unfold constantWord?
    rw [if_neg (by simp [hne "true" (by decide), hne "True" (by decide)]),
      if_neg (by simp [hne "false" (by decide), hne "False" (by decide)]),
      if_neg (by simp [hne "none" (by decide), hne "None" (by decide)])]
  refine .current fun k hk => ?_
  rw [show k.kind = .name n.text from hk]
  refine .next (by simp) fun _ _ => ?_
  rw [hconstant]
  exact .pure (.name rfl)

theorem takes_stringRun {value : Text} (hf : Ends 11 follow) : Takes total (stringRun value) [] follow (· = value) := by
  have hstart : Arrives total (stringRun value) _ [] follow (· = value) := .loop rfl
  refine hstart.done ?_
  rintro _ _ rfl
  refine .current fun k hk => ?_
  split
  · rename_i more hkind
    exact absurd (hk.symm.trans hkind) (hf.ne (by simp [TokenKind.pull]))
  · exact .pure rfl

theorem primary_const (hn : Spells numeral) {v : Constant} (hv : (Expr.const l v).Writable dialect) :
    PrimaryBack dialect total ((Expr.const l v).spell numeral) (.const l v) := by
  intro nested _ follow hf
  have hword : ∀ word : Text, constantWord? word = some v →
      Takes total (primary nested) [.name word] follow (Expr.const l v).Matches := by
    intro word hconstant
    refine .current fun k hk => ?_
    rw [show k.kind = .name word from hk]
    refine .next (by simp) fun _ _ => ?_
    rw [hconstant]
    exact .pure (.const v)
  cases v with
  | none => exact hword _ (by decide)
  | bool b => cases b <;> exact hword _ (by decide)
  | text t =>
    change Takes total (primary nested) [.string t] follow _
    refine .current fun k hk => ?_
    rw [show k.kind = .string t from hk]
    refine .next (by simp) fun _ _ => .bind_nil (takes_stringRun hf) ?_
    rintro _ rfl
    exact .pure (.const _)
  | number x =>
    obtain ⟨spelling, hkind, hvalue⟩ := hn x hv
    change Takes total (primary nested) [numeral x] follow _
    rcases hkind with hkind | hkind <;> rw [hkind]
    all_goals
      refine .current fun k hk => ?_
      first
      | rw [show k.kind = .integer spelling from hk]
      | rw [show k.kind = .float spelling from hk]
      refine .next (by simp) fun _ _ => ?_
      rw [hvalue]
      exact .pure (.const _)

/-- The items of a list are read one by one. -/
theorem primary_list {es : List Expr}
    (h : ∀ e ∈ es, ReadsBack dialect total 0 (e.spell numeral) e ∧ Opens e.level (e.spell numeral)) :
    PrimaryBack dialect total ((Expr.list l es).spell numeral) (.list l es) := by
  intro nested hu follow _
  change Unfolds dialect total (TokenKind.operator .leftBracket ::
    separated (Expr.spell.items numeral es) ++ [TokenKind.operator .rightBracket]).length nested at hu
  change Takes total (primary nested) (.operator .leftBracket :: (separated (Expr.spell.items numeral es) ++
    [.operator .rightBracket])) follow _
  rw [Expr.items_eq_map] at hu ⊢
  refine .current fun k hk => ?_
  rw [show k.kind = .operator .leftBracket from hk]
  refine .next (by simp) fun _ _ => ?_
  have hitems : Takes total (bracketed .rightBracket fun _ => nested .conditional)
      (separated (es.map (Expr.spell numeral)) ++ [.operator .rightBracket]) follow (List.Forall₂ Matches es) := by
    refine takes_bracketed rfl (by simp) rfl (fun e he => (h e he).2.begins) ?_
    rintro done e more acc rfl - after hafter
    have he : e ∈ done ++ e :: more := by simp
    have hle := length_le_separated (List.mem_map_of_mem (f := Expr.spell numeral) he)
    refine (h e he).1.takes hu ?_ hafter
    simp only [List.length_append, List.length_cons]
    omega
  exact hitems.bind_last fun items hitems => .pure (.list hitems)

/-- The entries of a mapping are read one by one. -/
theorem primary_dict {ps : List (Expr × Expr)}
    (h : ∀ e ∈ ps.flatMap fun p => [p.1, p.2],
      ReadsBack dialect total 0 (e.spell numeral) e ∧ Opens e.level (e.spell numeral)) :
    PrimaryBack dialect total ((Expr.dict l ps).spell numeral) (.dict l ps) := by
  have hkey : ∀ p ∈ ps, ReadsBack dialect total 0 (p.1.spell numeral) p.1 ∧ Opens p.1.level (p.1.spell numeral) :=
    fun p hp => h _ (List.mem_flatMap.mpr ⟨p, hp, by simp⟩)
  have hvalue : ∀ p ∈ ps, ReadsBack dialect total 0 (p.2.spell numeral) p.2 ∧ Opens p.2.level (p.2.spell numeral) :=
    fun p hp => h _ (List.mem_flatMap.mpr ⟨p, hp, by simp⟩)
  intro nested hu follow _
  change Unfolds dialect total (TokenKind.operator .leftBrace ::
    separated (Expr.spell.entries numeral ps) ++ [TokenKind.operator .rightBrace]).length nested at hu
  change Takes total (primary nested) (.operator .leftBrace :: (separated (Expr.spell.entries numeral ps) ++
    [.operator .rightBrace])) follow _
  rw [Expr.entries_eq_map] at hu ⊢
  refine .current fun k hk => ?_
  rw [show k.kind = .operator .leftBrace from hk]
  refine .next (by simp) fun _ _ => ?_
  have hentries : Takes total (bracketed .rightBrace fun _ => do
        let key ← nested .conditional
        let _ ← expectOp .colon
        return (key, ← nested .conditional))
      (separated (ps.map fun p => p.1.spell numeral ++ .operator .colon :: p.2.spell numeral) ++
        [.operator .rightBrace]) follow
      (List.Forall₂ (fun p q => p.1.Matches q.1 ∧ p.2.Matches q.2) ps) := by
    refine takes_bracketed rfl (by simp) rfl (fun p hp => ?_) ?_
    · obtain ⟨k, rest, hks, hk⟩ := (hkey p hp).2.begins
      exact ⟨k, rest ++ _, by rw [hks]; rfl, hk⟩
    · rintro done p more acc rfl - after hafter
      have hp : p ∈ done ++ p :: more := by simp
      have hle := length_le_separated (List.mem_map_of_mem
        (f := fun p : Expr × Expr => p.1.spell numeral ++ TokenKind.operator .colon :: p.2.spell numeral) hp)
      simp only [List.length_append, List.length_cons] at hle hu
      refine .bind ((hkey p hp).1.takes hu (by omega) stops_colon) fun key hkey' => .expectOp fun _ => ?_
      exact ((hvalue p hp).1.takes hu (by omega) hafter).bind_last fun value hvalue' => .pure ⟨hkey', hvalue'⟩
  refine hentries.bind_last fun entries hentries => .pure (.dict ?_ ?_)
  · exact List.forall₂_map_left_iff.mpr (List.forall₂_map_right_iff.mpr (hentries.imp fun _ _ h => h.1))
  · exact List.forall₂_map_left_iff.mpr (List.forall₂_map_right_iff.mpr (hentries.imp fun _ _ h => h.2))

/-- What is read inside parentheses is read as it is, with them. -/
theorem primary_parenthesized
    (h : ∀ inner, Unfolds dialect total ks.length inner → ∀ follow,
      Takes total (production dialect inner .parenthesized) ks (.operator .rightParen :: follow) e.Matches) :
    PrimaryBack dialect total (.operator .leftParen :: ks ++ [.operator .rightParen]) e := by
  intro nested hu follow _
  simp only [List.length_append, List.length_cons, List.length_nil] at hu
  change Takes total (primary nested) (.operator .leftParen :: (ks ++ [.operator .rightParen])) follow _
  refine .current fun k hk => ?_
  rw [show k.kind = .operator .leftParen from hk]
  refine .next (by simp) fun _ _ => ?_
  have hread : Takes total (nested .parenthesized) ks (.operator .rightParen :: follow) e.Matches :=
    (hu.mono (by omega)).takes fun inner hinner => h inner hinner follow
  exact .bind hread fun inner hinner => .expectOp fun _ => .pure hinner

theorem primary_wrapped (h : ReadsBack dialect total 0 ks e) (ho : Opens least ks) :
    PrimaryBack dialect total (.operator .leftParen :: ks ++ [.operator .rightParen]) e :=
  primary_parenthesized fun inner hu follow =>
    takes_tuple_single ho.begins (by simp) (h inner hu _ (Stops.ends ⟨.rightParen, follow, rfl, rfl⟩))

theorem primary_tuple {es : List Expr}
    (h : ∀ e ∈ es, ReadsBack dialect total 0 (e.spell numeral) e ∧ Opens e.level (e.spell numeral)) :
    PrimaryBack dialect total ((Expr.tuple l es).spell numeral) (.tuple l es) := by
  change PrimaryBack dialect total (.operator .leftParen :: tupled (Expr.spell.items numeral es) ++
    [.operator .rightParen]) _
  rw [Expr.items_eq_map]
  refine primary_parenthesized fun inner hu follow => ?_
  refine takes_tuple (fun e he => (h e he).2.begins) (fun e he after hafter => ?_) l
  exact (h e he).1 inner (hu.mono (length_le_tupled (List.mem_map_of_mem he))) after hafter.ends

/-! What follows a primary expression. -/

variable {t : Expr}

theorem reaches_member {attr : Text} (ht : ReachesBack dialect total 10 (t.print numeral 10) t) :
    ReachesBack dialect total 10 ((Expr.member l t attr).spell numeral) (.member l t attr) := by
  refine ht.more (Nat.le_refl 11) fun nested _ follow _ line a ha => ?_
  refine .current fun k hk => ?_
  rw [show k.kind = .operator .dot from hk]
  refine .next (by simp) fun _ _ => ?_
  have hmember : Takes total (memberOf k.line a) [.name attr] follow (Expr.member l t attr).Matches :=
    .next (by simp) fun k' hk' => by
      rw [hk']
      exact .pure (.member ha)
  exact hmember.bind_last fun e he => .pure he

/-- Square brackets after an expression. -/
theorem takes_subscript {a : Expr}
    (h : ∀ line, Takes total (subscript nested line a) ks (.operator .rightBracket :: follow) e.Matches) :
    Takes total (postfixStep nested a) (.operator .leftBracket :: (ks ++ [.operator .rightBracket])) follow
      (Sum.elim e.Matches fun _ => False) := by
  refine .current fun k hk => ?_
  rw [show k.kind = .operator .leftBracket from hk]
  exact .next (by simp) fun _ _ => .bind (h k.line) fun e he => .expectOp fun _ => .pure he

/-- A key alone in square brackets. -/
theorem takes_itemKey {n : Nat} {a key : Expr} (hkey : ReadsBack dialect total 0 ks key) (hbegins : Begins ks)
    (hu : Unfolds dialect total n nested) (hlt : ks.length < n) (ha : t.Matches a) (line : Nat) :
    Takes total (subscript nested line a) ks (.operator .rightBracket :: follow) (Expr.item l t key).Matches := by
  have hread : Takes total (nested .conditional) ks (.operator .rightBracket :: follow) key.Matches :=
    hkey.takes hu hlt ⟨.rightBracket, follow, rfl, rfl⟩
  have hstart : Takes total (some <$> nested .conditional) ks (.operator .rightBracket :: follow)
      fun start => ∃ key', start = some key' ∧ key.Matches key' := hread.map fun key' hkey' => ⟨key', rfl, hkey'⟩
  refine .unseen (hbegins.ahead_ne rfl _) (.bind_last hstart ?_)
  rintro _ ⟨key', rfl, hkey'⟩
  exact .unseen (by simp) (.pure (.item ha hkey'))

theorem reaches_item {key : Expr} (ht : ReachesBack dialect total 10 (t.print numeral 10) t)
    (hkey : ReadsBack dialect total 0 (key.spell numeral) key) (ho : Opens key.level (key.spell numeral)) :
    ReachesBack dialect total 10 ((Expr.item l t key).spell numeral) (.item l t key) := by
  have hspell : (Expr.item l t key).spell numeral = t.print numeral 10 ++
      .operator .leftBracket :: (key.spell numeral ++ [.operator .rightBracket]) := by
    simp [Expr.spell, Expr.print]
  rw [hspell]
  refine ht.more (Nat.le_refl 11) fun nested hu follow _ line a ha => takes_subscript fun line => ?_
  refine takes_itemKey hkey ho.begins hu ?_ ha line
  simp only [List.length_append, List.length_cons]
  omega

/-- What stands behind a bound of a slice. -/
def BoundStops (follow : List TokenKind) : Prop :=
  ahead follow = .operator .rightBracket ∨ ahead follow = .operator .colon

theorem BoundStops.stops (h : BoundStops follow) : Stops follow := by
  cases follow with
  | nil => rcases h with h | h <;> cases h
  | cons k rest =>
    rcases h with h | h
    · exact ⟨.rightBracket, rest, congrArg (· :: rest) h, rfl⟩
    · exact ⟨.colon, rest, congrArg (· :: rest) h, rfl⟩

theorem takes_sliceBound {bound : Option Expr} {n : Nat}
    (h : ∀ e ∈ bound, ReadsBack dialect total 0 (e.spell numeral) e ∧ Opens e.level (e.spell numeral))
    (hu : Unfolds dialect total n nested) (hlt : (Expr.spell.bound numeral bound).length < n) (hf : BoundStops follow) :
    Takes total (sliceBound nested) (Expr.spell.bound numeral bound) follow (Option.Rel Matches bound) := by
  cases bound with
  | none =>
    change Takes total (sliceBound nested) [] follow _
    refine .sees (.sees ?_)
    have hends : (decide (ahead ([] ++ follow) = .operator .rightBracket) ||
        decide (ahead ([] ++ follow) = .operator .colon)) = true := by
      simpa [BoundStops] using hf
    rw [hends]
    exact .pure .none
  | some e =>
    obtain ⟨hread, ho⟩ := h e rfl
    have hplain : Takes total (do return some (← nested .conditional) : Parser (Option Expr)) (e.spell numeral) follow
        (Option.Rel Matches (some e)) :=
      (hread.takes hu hlt hf.stops).bind_last fun a ha => .pure (.some ha)
    exact .unseen (ho.begins.ahead_ne rfl _) (.unseen (ho.begins.ahead_ne rfl _) hplain)

theorem reaches_slice {start stop step : Option Expr} (ht : ReachesBack dialect total 10 (t.print numeral 10) t)
    (h : ∀ e ∈ start.toList ++ stop.toList ++ step.toList,
      ReadsBack dialect total 0 (e.spell numeral) e ∧ Opens e.level (e.spell numeral)) :
    ReachesBack dialect total 10 ((Expr.slice l t start stop step).spell numeral) (.slice l t start stop step) := by
  have hspell : (Expr.slice l t start stop step).spell numeral = t.print numeral 10 ++ .operator .leftBracket ::
      (Expr.spell.bound numeral start ++ .operator .colon :: (Expr.spell.bound numeral stop ++
        (if step.isSome then .operator .colon :: Expr.spell.bound numeral step else [])) ++
        [.operator .rightBracket]) := by
    simp [Expr.spell, Expr.print]
  rw [hspell]
  refine ht.more (Nat.le_refl 11) fun nested hu follow _ line a ha => takes_subscript fun line => ?_
  simp only [List.length_append, List.length_cons] at hu
  have hstep : Takes total (lastBound nested)
      (if step.isSome then .operator .colon :: Expr.spell.bound numeral step else []) (.operator .rightBracket :: follow)
      (Option.Rel Matches step) := by
    cases hstep : step with
    | none => exact .noSkip (by simp) (.pure .none)
    | some e =>
      rw [hstep] at hu
      refine .skip (by simp) (takes_sliceBound (fun e he => h e (by simp_all)) hu ?_ (.inl rfl))
      simp only [Option.isSome_some, if_true, List.length_cons]
      omega
  have hstop : BoundStops ((if step.isSome then .operator .colon :: Expr.spell.bound numeral step else []) ++
      .operator .rightBracket :: follow) := by
    cases step
    · exact .inl rfl
    · exact .inr rfl
  have hstart : Takes total (firstBound nested)
      (Expr.spell.bound numeral start) (.operator .colon :: (Expr.spell.bound numeral stop ++
        (if step.isSome then .operator .colon :: Expr.spell.bound numeral step else [])) ++
        .operator .rightBracket :: follow) (Option.Rel Matches start) := by
    cases start with
    | none => exact .seen rfl (.pure .none)
    | some e =>
      obtain ⟨hread, ho⟩ := h e (by simp)
      exact .unseen (ho.begins.ahead_ne rfl _) ((hread.takes hu (by simp only [Expr.spell.bound]; omega) stops_colon).map
        fun a ha => .some ha)
  rw [subscript_eq]
  refine hstart.bind fun start' hstart' => .seen rfl ?_
  refine .next (by simp) fun _ _ => ?_
  refine .bind (takes_sliceBound (fun e he => h e (by simp_all)) hu (by omega) hstop) fun stop' hstop' => ?_
  exact hstep.bind_last fun step' hstep' => .pure (.slice ha hstart' hstop' hstep')

theorem takes_callOf {a : Expr} {args : List Expr} {named : List (Text × Expr)}
    (h : ∀ e ∈ args ++ named.map (·.2), ReadsBack dialect total 0 (e.spell numeral) e ∧ Opens 0 (e.spell numeral))
    (hu : Unfolds dialect total (callTokens numeral args named).length nested) (ha : t.Matches a) :
    Takes total (callOf nested a) (callTokens numeral args named) follow (Expr.call l t args named).Matches :=
  .current fun _ _ => (takes_arguments h hu).bind_last fun _ ⟨hargs, hwords, hnamed⟩ =>
    .pure (.call ha hargs hwords hnamed)

theorem reaches_call {args : List Expr} {named : List (Text × Expr)}
    (ht : ReachesBack dialect total 10 (t.print numeral 10) t)
    (h : ∀ e ∈ args ++ named.map (·.2), ReadsBack dialect total 0 (e.spell numeral) e ∧ Opens 0 (e.spell numeral)) :
    ReachesBack dialect total 10 ((Expr.call l t args named).spell numeral) (.call l t args named) := by
  have hspell : (Expr.call l t args named).spell numeral = t.print numeral 10 ++ callTokens numeral args named := by
    simp [Expr.spell, Expr.print, callTokens]
  rw [hspell]
  refine ht.more (Nat.le_refl 11) fun nested hu follow _ line a ha => ?_
  refine .current fun k hk => ?_
  rw [show k.kind = .operator .leftParen from hk]
  have hcall : Takes total (callOf nested a) (callTokens numeral args named) follow (Expr.call l t args named).Matches :=
    takes_callOf h (hu.mono (by simp [callTokens])) ha
  exact hcall.bind_last fun e he => .pure he

end Stencil.Parser
