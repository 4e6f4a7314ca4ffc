import Stencil.Proofs.Template.ReadOperators

/-!
Expressions are read back from the tokens they are written with, by induction on their parts. What is read at the
level of an expression is read at all levels below it, and in parentheses at every level.
-/

namespace Stencil.Parser

open Stencil.Expr (Matches Ends Opens Spells Printable held separated opens_held opens_spell opens_wrapped)

variable {dialect : Dialect} {total : Nat} {e : Expr} {least : Nat} {numeral : Number → TokenKind}

/-- The tokens of an expression are read back wherever it may stand. -/
structure Readable (dialect : Dialect) (total : Nat) (numeral : Number → TokenKind) (e : Expr) : Prop where
  opens : Opens e.level (e.spell numeral)
  reads : ∀ least ≤ 10, ReadsBack dialect total least (e.print numeral least) e
  reaches : ∀ least, Looped least → ReachesBack dialect total least (e.print numeral least) e
  operand : OperandBack dialect total (e.print numeral e.operandLevel) e

theorem print_of_le (h : least ≤ e.level) : e.print numeral least = e.spell numeral := by
  rw [Expr.print, held, if_neg (by omega)]

theorem print_of_lt (h : e.level < least) :
    e.print numeral least = .operator .leftParen :: e.spell numeral ++ [.operator .rightParen] := by
  rw [Expr.print, held, if_pos h]

theorem level_le (e : Expr) : e.level ≤ 10 := by
  cases e with
  | binary _ op _ _ => cases op <;> simp [Expr.level, BinaryOp.level]
  | logical _ op _ _ => cases op <;> simp [Expr.level, LogicalOp.level]
  | _ => simp [Expr.level]

theorem Readable.item (h : Readable dialect total numeral e) :
    ReadsBack dialect total 0 (e.spell numeral) e ∧ Opens e.level (e.spell numeral) := by
  have hread := h.reads 0 (by omega)
  rw [print_of_le (Nat.zero_le _)] at hread
  exact ⟨hread, h.opens⟩

/-- It is enough to read an expression at its own level. -/
theorem readable_of_level (ho : Opens e.level (e.spell numeral))
    (h : ReadsBack dialect total e.level (e.spell numeral) e)
    (hreaches : Looped e.level → ReachesBack dialect total e.level (e.spell numeral) e)
    (hoperand : e.operandLevel = 10 ∨ OperandBack dialect total (e.print numeral e.operandLevel) e) :
    Readable dialect total numeral e := by
  have hlow := h.below (level_le e) ho
  have hzero : ReadsBack dialect total 0 (e.spell numeral) e := by
    rcases Nat.eq_zero_or_pos e.level with hlevel | hlevel
    · rwa [hlevel] at h
    · exact (hlow 0 hlevel).1
  have hten : ReachesBack dialect total 10 (.operator .leftParen :: e.spell numeral ++ [.operator .rightParen]) e :=
    (primary_wrapped hzero ho).reaches
  have hwrapped := (hten.reads (.inr (.inr rfl))).below (Nat.le_refl 10) (opens_wrapped 10 ho.begins)
  have hreads : ∀ least ≤ 10, ReadsBack dialect total least (e.print numeral least) e := by
    intro least hle
    rcases Nat.lt_trichotomy least e.level with hlt | heq | hgt
    · rw [print_of_le (by omega)]
      exact (hlow least hlt).1
    · rw [print_of_le (by omega), heq]
      exact h
    · rw [print_of_lt hgt]
      rcases Nat.lt_or_eq_of_le hle with hlt | rfl
      · exact (hwrapped least hlt).1
      · exact hten.reads (.inr (.inr rfl))
  have hreaches : ∀ least, Looped least → ReachesBack dialect total least (e.print numeral least) e := by
    intro least hl
    rcases Nat.lt_trichotomy least e.level with hlt | heq | hgt
    · rw [print_of_le (by omega)]
      exact (hlow least hlt).2 hl
    · rw [print_of_le (by omega)]
      subst heq
      exact hreaches hl
    · rw [print_of_lt hgt]
      rcases Nat.lt_or_ge least 10 with hlt | hge
      · exact (hwrapped least hlt).2 hl
      · obtain rfl : least = 10 := by
          unfold Looped Chained at hl
          omega
        exact hten
  refine ⟨ho, hreads, hreaches, hoperand.elim (fun hlevel => ?_) id⟩
  rw [hlevel]
  exact (hreads 10 (Nat.le_refl 10)).to_operand (opens_held 10 ho)

theorem readable_of_reaches (hl : Looped e.level) (ho : Opens e.level (e.spell numeral))
    (h : ReachesBack dialect total e.level (e.spell numeral) e)
    (hoperand : e.operandLevel = 10 ∨ OperandBack dialect total (e.print numeral e.operandLevel) e) :
    Readable dialect total numeral e :=
  readable_of_level ho (h.reads hl) (fun _ => h) hoperand

/-- The tokens of an expression are read back wherever it may stand, by induction on its parts. -/
theorem readable_of_printable (hn : Spells numeral) (e : Expr) (h : e.Printable dialect) :
    Readable dialect total numeral e := by
  have part : ∀ p ∈ e.parts, Readable dialect total numeral p := fun p hp => readable_of_printable hn p (h.part hp)
  have ho := opens_spell hn e h
  have hten : Looped 10 := .inr (.inr rfl)
  have hnine : Looped 9 := .inr (.inl rfl)
  -- arguments stand between commas, where any level may stand
  have arguments : ∀ (args : List Expr) (named : List (Text × Expr)), (∀ p ∈ args ++ named.map (·.2), p ∈ e.parts) →
      ∀ p ∈ args ++ named.map (·.2), ReadsBack dialect total 0 (p.spell numeral) p ∧ Opens 0 (p.spell numeral) :=
    fun args named hparts p hp => (part p (hparts p hp)).item.imp_right fun hopens => hopens.mono (Nat.zero_le _)
  cases e with
  | name n => exact readable_of_reaches hten ho (primary_name h.self).reaches (.inl rfl)
  | const l v => exact readable_of_reaches hten ho (primary_const hn h.self).reaches (.inl rfl)
  | list l es => exact readable_of_reaches hten ho (primary_list fun e he => (part e he).item).reaches (.inl rfl)
  | tuple l es => exact readable_of_reaches hten ho (primary_tuple fun e he => (part e he).item).reaches (.inl rfl)
  | dict l ps => exact readable_of_reaches hten ho (primary_dict fun e he => (part e he).item).reaches (.inl rfl)
  | member l t attr =>
    have ht := part t (by simp [Expr.parts])
    exact readable_of_reaches hten ho (reaches_member (ht.reaches 10 hten)) (.inl rfl)
  | item l t key =>
    have ht := part t (by simp [Expr.parts])
    have hkey := part key (by simp [Expr.parts])
    exact readable_of_reaches hten ho (reaches_item (ht.reaches 10 hten) hkey.item.1 hkey.item.2) (.inl rfl)
  | slice l t start stop step =>
    have ht := part t (by simp [Expr.parts])
    have hbounds : ∀ e ∈ start.toList ++ stop.toList ++ step.toList,
        ReadsBack dialect total 0 (e.spell numeral) e ∧ Opens e.level (e.spell numeral) :=
      fun e he => (part e (List.mem_cons_of_mem _ he)).item
    exact readable_of_reaches hten ho (reaches_slice (ht.reaches 10 hten) hbounds) (.inl rfl)
  | call l c args named =>
    have hc := part c (by simp [Expr.parts])
    have hargs := arguments args named fun _ => List.mem_cons_of_mem _
    exact readable_of_reaches hten ho (reaches_call (hc.reaches 10 hten) hargs) (.inl rfl)
  | filter l t f args named =>
    have ht := part t (by simp [Expr.parts])
    have hargs := arguments args named fun _ => List.mem_cons_of_mem _
    exact readable_of_reaches hnine ho (reaches_filter h.self (ht.reaches 9 hnine) hargs) (.inl rfl)
  | test l t f args named negated =>
    have ht := part t (by simp [Expr.parts])
    have hargs := arguments args named fun _ => List.mem_cons_of_mem _
    obtain ⟨hknown, hnot⟩ := h.self
    exact readable_of_reaches hnine ho (reaches_test hknown hnot (ht.reaches 9 hnine) hargs) (.inl rfl)
  | not l e =>
    have he := part e (by simp [Expr.parts])
    exact readable_of_level ho (reads_not (he.reads 3 (by omega))) (by simp [Looped, Chained, Expr.level]) (.inl rfl)
  | signed l sign e =>
    have he := part e (by simp [Expr.parts])
    have hsigned : OperandBack dialect total _ (.signed l sign e) := operand_signed he.operand
    exact readable_of_reaches hnine ho hsigned.reaches (.inr hsigned)
  | binary l op a b =>
    have ha := part a (by simp [Expr.parts])
    have hb := part b (by simp [Expr.parts])
    have hl : Looped op.level := by cases op <;> simp [Looped, Chained, BinaryOp.level]
    have hle : op.level + 1 ≤ 10 := by cases op <;> decide
    exact readable_of_reaches hl ho (reaches_binary (ha.reaches _ hl) (hb.reads _ hle)) (.inl rfl)
  | logical l op a b =>
    have ha := part a (by simp [Expr.parts])
    have hb := part b (by simp [Expr.parts])
    have hl : Looped op.level := by cases op <;> simp [Looped, Chained, LogicalOp.level]
    have hle : op.level + 1 ≤ 10 := by cases op <;> decide
    exact readable_of_reaches hl ho (reaches_logical (ha.reaches _ hl) (hb.reads _ hle)) (.inl rfl)
  | compare l first rest =>
    have hfirst := part first (by simp [Expr.parts])
    have hrest : ∀ p ∈ rest, ReadsBack dialect total 5 (p.2.print numeral 5) p.2 := fun p hp =>
      (part p.2 (List.mem_cons_of_mem _ (List.mem_map_of_mem hp))).reads 5 (by omega)
    exact readable_of_level ho (reads_compare h.self (hfirst.reads 5 (by omega)) hrest)
      (by simp [Looped, Chained, Expr.level]) (.inl rfl)
  | cond l v t otherwise =>
    have hv := part v (by simp [Expr.parts])
    have ht := part t (by simp [Expr.parts])
    have hotherwise : ∀ e ∈ otherwise, ReadsBack dialect total 0 (e.spell numeral) e := fun e he =>
      (part e (by simp_all [Expr.parts])).item.1
    exact readable_of_level ho (reads_cond (hv.reads 1 (by omega)) (ht.reads 1 (by omega)) hotherwise)
      (by simp [Looped, Chained, Expr.level]) (.inl rfl)
termination_by sizeOf e
decreasing_by exact Expr.sizeOf_lt_of_mem_parts hp

/-- A template that outputs one expression, as tokens that are read as it. -/
theorem takes_output_reads {ks : List TokenKind} (hread : ReadsBack dialect total 0 ks e) (ho : Opens least ks)
    {body : List Text → Parser (List Stmt)} (hle : ks.length ≤ total) :
    Takes total (statements dialect body []) (.tagBegin .output :: (ks ++ [.tagEnd .output])) [.eof]
      fun stmts => ∃ line e', stmts = [.output line e'] ∧ e.Matches e' := by
  have hitem : Takes total (conditional dialect (entry dialect)) ks [.tagEnd .output, .eof] e.Matches :=
    hread (entry dialect) (unfolds_entry.mono (by omega)) _ (Nat.zero_le _)
  have hstart : Arrives total (statements dialect body []) _ []
      (.tagBegin .output :: (ks ++ [.tagEnd .output]) ++ [.eof]) (· = []) := .loop rfl
  refine (hstart.more (Q := fun done => ∃ line e', done = [.output line e'] ∧ e.Matches e') (by simp) ?_).done ?_
  · rintro _ _ rfl
    refine .current fun k hk => ?_
    rw [show k.kind = .tagBegin .output from hk]
    refine .next (by simp) fun _ _ => .bind (takes_tuple_single ho.begins (by simp) hitem) fun e' he' => ?_
    exact .expectTagEnd (.pure ⟨k.line, e', rfl, he'⟩)
  · rintro _ _ ⟨line, e', rfl, he'⟩
    refine .current fun k hk => ?_
    rw [show k.kind = .eof from hk]
    exact .pure ⟨line, e', rfl, he'⟩

theorem takes_output (hn : Spells numeral) (h : e.Printable dialect) {body : List Text → Parser (List Stmt)}
    (hle : (e.spell numeral).length ≤ total) :
    Takes total (statements dialect body []) (.tagBegin .output :: (e.spell numeral ++ [.tagEnd .output])) [.eof]
      fun stmts => ∃ line e', stmts = [.output line e'] ∧ e.Matches e' := by
  have hreadable : Readable dialect total numeral e := readable_of_printable hn e h
  obtain ⟨hread, ho⟩ := hreadable.item
  exact takes_output_reads hread ho hle

/-- An expression that is written as tokens is read back from them, up to lines and places. -/
theorem parse_print {dialect : Dialect} {numeral : Number → TokenKind} (hn : Spells numeral) {e : Expr}
    (h : e.Printable dialect) {tokens : List Token}
    (htokens : tokens.map (·.kind) = .tagBegin .output :: (e.print numeral 0 ++ [.tagEnd .output, .eof])) :
    ∃ line e', parse dialect tokens = .ok [.output line e'] ∧ e.Matches e' := by
  rw [print_of_le (Nat.zero_le _)] at htokens
  have hlength : tokens.length = (e.spell numeral).length + 3 := by
    have hmap := congrArg List.length htokens
    rwa [List.length_map, List.length_cons, List.length_append] at hmap
  obtain ⟨used, rest, rfl, hused, hrest⟩ : ∃ used rest, tokens = used ++ rest ∧
      used.map (·.kind) = .tagBegin .output :: (e.spell numeral ++ [.tagEnd .output]) ∧ rest.map (·.kind) = [.eof] := by
    refine List.map_eq_append_iff.mp (htokens.trans ?_)
    simp
  have htake : Takes (used ++ rest).length (statements dialect (bodyWithin dialect (used ++ rest).length) []) _ [.eof]
      fun stmts => ∃ line e', stmts = [.output line e'] ∧ e.Matches e' := takes_output hn h (by omega)
  obtain ⟨stmts, work, hrun, line, e', rfl, he'⟩ := htake used rest hused hrest (by rw [List.length_append]) 1
  refine ⟨line, e', ?_, he'⟩
  have hparse : (bodyWithin dialect ((used ++ rest).length + 1) []).run ⟨used ++ rest, (used ++ rest).length, 0⟩ =
      .ok [.output line e'] ⟨rest, (used ++ rest).length, work⟩ := hrun
  rw [parse, hparse]

/-- `-x ** (y ** 2) not in [z]` -/
def powerOfPower : Expr :=
  .compare 1 (.binary 1 .pow (.signed 1 .minus (.name ⟨"x", 1, 4⟩))
    (.binary 1 .pow (.name ⟨"y", 1, 10⟩) (.const 1 (.number (.finite false (2 * Number.unit))))))
    [(.isNotIn, .list 1 [.name ⟨"z", 1, 25⟩])]

theorem printable_powerOfPower : powerOfPower.Printable ⟨false, [], []⟩ := by
  have hname : ∀ n : Name, n.text ∉ Expr.reservedWords → (Expr.name n).Printable ⟨false, [], []⟩ :=
    fun n hn => .of_parts hn nofun
  have hx := hname ⟨"x", 1, 4⟩ (by decide)
  have hy := hname ⟨"y", 1, 10⟩ (by decide)
  have hz := hname ⟨"z", 1, 25⟩ (by decide)
  have htwo : (Expr.const 1 (.number (.finite false (2 * Number.unit)))).Printable ⟨false, [], []⟩ :=
    .of_parts ⟨rfl, by decide +kernel⟩ nofun
  have hminus : (Expr.signed 1 .minus (.name ⟨"x", 1, 4⟩)).Printable ⟨false, [], []⟩ :=
    .of_parts trivial (List.forall_mem_singleton.mpr hx)
  have hpower := Expr.Printable.of_parts (e := .binary 1 .pow _ _) trivial
    (List.forall_mem_cons.mpr ⟨hy, List.forall_mem_singleton.mpr htwo⟩)
  have hleft := Expr.Printable.of_parts (e := .binary 1 .pow _ _) trivial
    (List.forall_mem_cons.mpr ⟨hminus, List.forall_mem_singleton.mpr hpower⟩)
  have hlist := Expr.Printable.of_parts (e := .list 1 [_]) trivial (List.forall_mem_singleton.mpr hz)
  exact .of_parts (List.cons_ne_nil _ _) (List.forall_mem_cons.mpr ⟨hleft, List.forall_mem_singleton.mpr hlist⟩)

theorem parse_print_powerOfPower : ∃ line e', parse ⟨false, [], []⟩ ([.tagBegin .output,
      .operator .minus, .name "x", .operator .power, .operator .leftParen, .name "y", .operator .power,
      .float (Number.finite false (2 * Number.unit)).spelling, .operator .rightParen, .name "not", .name "in",
      .operator .leftBracket, .name "z", .operator .rightBracket, .tagEnd .output, .eof].map fun k => ⟨k, 1, 0⟩) =
        .ok [.output line e'] ∧ powerOfPower.Matches e' :=
  parse_print Expr.spells_spelling printable_powerOfPower rfl

/-- A comparison with nothing to compare with is written like its first operand, and that is read back. -/
theorem comparison_alone :
    (Expr.compare 1 (.name ⟨"x", 1, 3⟩) []).print (fun x => .float x.spelling) 0 = [.name "x"] ∧
      parse ⟨false, [], []⟩ [⟨.tagBegin .output, 1, 0⟩, ⟨.name "x", 1, 3⟩, ⟨.tagEnd .output, 1, 5⟩, ⟨.eof, 1, 7⟩] =
        .ok [.output 1 (.name ⟨"x", 1, 3⟩)] ∧
      ¬ (Expr.compare 1 (.name ⟨"x", 1, 3⟩) []).Matches (.name ⟨"x", 1, 3⟩) :=
  ⟨rfl, rfl, nofun⟩

end Stencil.Parser
