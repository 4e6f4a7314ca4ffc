import Stencil.Proofs.Template.TokenPlaces

/-!
What splitting a source costs. Every step of the lexer is charged for the rounds of its loops; the units
it passes over pay for them, so a source is split in time linear in its length and the fuel is never used up.
-/

namespace Stencil

namespace Cursor

/-- The units still to be read. -/
def left (c : Cursor) : Nat := c.rest.length

theorem left_skip (c : Cursor) (n : Nat) : (c.skip n).left = c.left - n := by
  simp [left, skip]

theorem left_advance (c : Cursor) (n : Nat) : (c.advance n).left = c.left - n := by
  simp [left, advance, skip]

/-- The blanks ahead. -/
def blanks (c : Cursor) : Nat := (c.rest.takeWhile CodeUnit.isBlank).length

theorem blanks_le (c : Cursor) : c.blanks ≤ c.left := (List.takeWhile_sublist _).length_le

theorem left_skipBlanks (c : Cursor) : c.skipBlanks.left = c.left - c.blanks := left_advance c _

end Cursor

namespace Lexer

/-! ## Rounds of the loops -/

/-- The places at which a search in `length` units looks, where it finds its first match after `found?` units. -/
def searchRounds (length : Nat) (found? : Option Nat) : Nat := found?.elim length id + 1

/-- The rounds of reading a string up to its closing quote. -/
def stringRounds (quote : CodeUnit) : Text → Nat
  | [] => 0
  | [_] => 1
  | u :: v :: rest =>
    if u = quote then 1
    else if u = '\\' then 1 + stringRounds quote rest
    else 1 + stringRounds quote (v :: rest)

/-- The rounds of matching a word that blanks may surround. -/
def wordRounds (word : String) (t : Text) : Nat :=
  let blanks := (t.takeWhile CodeUnit.isBlank).length
  let t := t.drop blanks
  let word := Text.ofString word
  blanks + if word.isPrefixOf t then ((t.drop word.length).takeWhile CodeUnit.isBlank).length else 0

/-- What follows the mark of a tag and the dash that may belong to it. -/
def afterMark (t : Text) : Text := if t.head? = some ('-' : CodeUnit) then t.drop 1 else t

/-- The rounds of looking for the end of a raw block, which is tried at every place. -/
def rawEndRounds : Text → Nat
  | [] => 0
  | u :: rest =>
    1 + (if (Text.ofString "\x7b%").isPrefixOf (u :: rest) then wordRounds "endraw" (afterMark (rest.drop 1)) else 0) +
      if (rawEnd? (u :: rest)).isSome then 0 else rawEndRounds rest

/-- The units of a raw block up to the end of its closing tag, or all units if it has none. -/
def rawLength (t : Text) : Nat :=
  match rawEndAt? t with
  | some (n, length, _) => n + length
  | none => t.length

/-- The rounds of a step between tags: the search for a mark, the lines of the text before it, and what a
comment or a raw block takes. -/
def betweenRounds (c : Cursor) : Nat :=
  match openerAt? c.rest with
  | none => searchRounds c.left none + c.left
  | some (n, opener, dash) =>
    let inner := (c.advance n).skip (if dash then 3 else 2)
    let found := searchRounds c.left (some n) + n
    match opener with
    | .comment =>
      let close? := Text.find? (Text.ofString "#\x7d") inner.rest
      found + searchRounds inner.left close? + close?.getD 0
    | .tag .output => found
    | .tag .statement =>
      let found := found + wordRounds "raw" inner.rest
      match wordThenClose? "raw" inner.rest with
      | some (width, _) =>
        let body := inner.advance width
        found + width + rawEndRounds body.rest + rawLength body.rest
      | none => found

/-- The rounds of reading a token inside a tag; the lines of a string are counted after it was read. -/
def tokenRounds : Text → Nat
  | [] => 0
  | u :: rest =>
    if u = '\'' || u = '"' then stringRounds u rest + ((stringBody? u rest).map (·.2)).getD 0
    else if u.isDigit then (numberLength (u :: rest)).1
    else ((u :: rest).takeWhile CodeUnit.isNamePart).length

/-- The rounds of a step inside a tag: the blanks, which are passed over and counted for their lines,
and the token after them. -/
def insideRounds (c : Cursor) : Nat := 2 * c.blanks + tokenRounds c.skipBlanks.rest

/-- The rounds of a step. -/
def stepRounds (c : Cursor) : Mode → Nat
  | .between _ => betweenRounds c
  | .inside _ _ _ => insideRounds c

/-- What the steps of a run cost: one for each step, and the rounds of its loops. -/
def runWork : Nat → Cursor → Mode → Nat
  | 0, _, _ => 0
  | fuel + 1, c, mode =>
    1 + match c.rest, mode with
      | [], .between _ => 0
      | _, _ => stepRounds c mode + match step c mode with
        | .ok s => runWork fuel s.cursor s.mode
        | .error _ => 0

/-- What splitting a source costs. -/
def work (source : Text) (keep : Bool) : Nat :=
  let source := trimmed source keep
  runWork (source.length + 1) (.start source) (.between false)

/-! ## Rounds against the units passed over -/

theorem stringRounds_le_length (quote : CodeUnit) (t : Text) : stringRounds quote t ≤ t.length := by
  fun_induction stringRounds quote t with
  | case1 => simp
  | case2 => simp
  | case3 => simp
  | case4 v rest hquote ih =>
    simp only [List.length_cons]
    omega
  | case5 u v rest hquote hslash ih =>
    simp only [List.length_cons] at ih ⊢
    omega

theorem stringRounds_le {quote : CodeUnit} {t value : Text} {n : Nat} (h : stringBody? quote t = some (value, n)) :
    stringRounds quote t ≤ n ∧ n ≤ t.length := by
  fun_induction stringRounds quote t generalizing value n with
  | case1 => cases h
  | case2 u =>
    simp only [stringBody?] at h
    split at h
    · cases h
      simp
    · cases h
  | case3 v rest =>
    simp only [stringBody?, if_true] at h
    cases h
    simp
  | case4 v rest hquote ih =>
    rw [stringBody?, if_neg hquote, if_pos rfl] at h
    obtain ⟨⟨value', m⟩, hm, he⟩ := Option.map_eq_some_iff.mp h
    cases he
    obtain ⟨hrounds, hlength⟩ := ih hm
    simp only [List.length_cons]
    omega
  | case5 u v rest hquote hslash ih =>
    rw [stringBody?, if_neg hquote, if_neg hslash] at h
    obtain ⟨⟨value', m⟩, hm, he⟩ := Option.map_eq_some_iff.mp h
    cases he
    obtain ⟨hrounds, hlength⟩ := ih hm
    simp only [List.length_cons] at hlength ⊢
    omega

theorem runLength_le (p : CodeUnit → Bool) (t : Text) : Text.runLength p t ≤ t.length := by
  fun_induction Text.runLength p t with
  | case1 => simp
  | case2 => simp
  | case3 => simp
  | case4 u v rest hu hv ih =>
    simp only [List.length_cons]
    omega
  | case5 u v rest hu hv ih =>
    simp only [List.length_cons] at ih ⊢
    omega
  | case6 => simp

theorem fractionLength_le (t : Text) : Text.fractionLength t ≤ t.length := by
  fun_cases Text.fractionLength t with
  | case1 u rest hu =>
    have hdigits : Text.digitsLength rest ≤ rest.length := runLength_le _ rest
    rw [List.length_cons]
    omega
  | case2 => simp
  | case3 => simp

theorem exponentLength_le (t : Text) : Text.exponentLength t ≤ t.length := by
  fun_cases Text.exponentLength t with
  | case1 => simp
  | case2 u rest hu sign digits hdigits =>
    have hle : digits ≤ (rest.drop sign).length := runLength_le _ _
    rw [List.length_drop] at hle
    rw [List.length_cons]
    omega
  | case3 => simp
  | case4 => simp

theorem numberLength_le (t : Text) : (numberLength t).1 ≤ t.length := by
  have hwhole : t.digitsLength ≤ t.length := runLength_le _ t
  have hfraction := fractionLength_le (t.drop t.digitsLength)
  have hexponent := exponentLength_le (t.drop (t.digitsLength + Text.fractionLength (t.drop t.digitsLength)))
  rw [List.length_drop] at hfraction hexponent
  unfold numberLength
  dsimp only
  omega

/-- A text has `n` units ahead in which no tag opens. -/
def Flat (n : Nat) (t : Text) : Prop := n ≤ t.length ∧ ('\x7b' : CodeUnit) ∉ t.take n

theorem Flat.zero (t : Text) : Flat 0 t := ⟨Nat.zero_le _, by simp⟩

theorem Flat.cons {n : Nat} {t : Text} {u : CodeUnit} (hu : ('\x7b' : CodeUnit) ≠ u) (h : Flat n t) :
    Flat (n + 1) (u :: t) := by
  refine ⟨Nat.succ_le_succ h.1, ?_⟩
  rw [List.take_succ_cons, List.mem_cons]
  rintro (heq | hmem)
  · exact hu heq
  · exact h.2 hmem

theorem Flat.append {m n : Nat} {t : Text} (h : Flat m t) (h' : Flat n (t.drop m)) : Flat (m + n) t := by
  obtain ⟨hm, hflat⟩ := h
  obtain ⟨hn, hflat'⟩ := h'
  rw [List.length_drop] at hn
  refine ⟨by omega, ?_⟩
  rw [List.take_add, List.mem_append]
  rintro (hmem | hmem)
  · exact hflat hmem
  · exact hflat' hmem

theorem flat_prefix {p t : Text} (h : p <+: t) (hp : ('\x7b' : CodeUnit) ∉ p) : Flat p.length t := by
  refine ⟨h.length_le, ?_⟩
  rwa [← List.prefix_iff_eq_take.mp h]

theorem flat_blanks (t : Text) : Flat (t.takeWhile CodeUnit.isBlank).length t := by
  refine flat_prefix (List.takeWhile_prefix _) fun hmem => ?_
  have hblank := List.all_eq_true.mp List.all_takeWhile _ hmem
  revert hblank
  decide

/-- What a word is matched against opens no tag. -/
theorem flat_wordRounds (word : String) (hw : ('\x7b' : CodeUnit) ∉ Text.ofString word) (t : Text) :
    ∃ n, Flat n t ∧ wordRounds word t ≤ n := by
  have hblanks := flat_blanks t
  unfold wordRounds
  dsimp only
  split
  · rename_i hfront
    have hword := flat_prefix (List.isPrefixOf_iff_prefix.mp hfront) hw
    exact ⟨_, hblanks.append (hword.append (flat_blanks _)), by omega⟩
  · exact ⟨_, hblanks, by omega⟩

/-- A matched word was paid for by its units. -/
theorem wordRounds_le {word : String} {t : Text} {width : Nat} {dash : Bool}
    (h : wordThenClose? word t = some (width, dash)) : wordRounds word t ≤ width ∧ width ≤ t.length := by
  have hclose : ∀ {mark : String} {rest : Text}, (Text.ofString mark).isPrefixOf rest →
      (Text.ofString mark).length ≤ rest.length :=
    fun hfront => (List.isPrefixOf_iff_prefix.mp hfront).length_le
  have hblanks := (List.takeWhile_sublist (l := t) CodeUnit.isBlank).length_le
  unfold wordThenClose? at h
  unfold wordRounds
  dsimp only at h ⊢
  split at h
  · rename_i hword
    rw [if_pos hword]
    have hwordLength := hclose hword
    have hmore := (List.takeWhile_sublist (l := (t.drop (t.takeWhile CodeUnit.isBlank).length).drop
      (Text.ofString word).length) CodeUnit.isBlank).length_le
    have hthree : (Text.ofString "-%\x7d").length = 3 := by decide
    have htwo : (Text.ofString "%\x7d").length = 2 := by decide
    split at h
    · rename_i hmark
      cases h
      have hmarkLength := hclose hmark
      simp only [List.length_drop] at hwordLength hmore hmarkLength
      omega
    · split at h
      · rename_i hmark
        cases h
        have hmarkLength := hclose hmark
        simp only [List.length_drop] at hwordLength hmore hmarkLength
        omega
      · cases h
  · cases h

/-- What follows a mark is all but the dash. -/
theorem afterMark_facts (t : Text) : ∃ width, afterMark t = t.drop width ∧ Flat width t ∧
    width = if t.head? = some ('-' : CodeUnit) then 1 else 0 := by
  unfold afterMark
  split
  · rename_i hdash
    obtain ⟨rest, rfl⟩ := List.head?_eq_some_iff.mp hdash
    exact ⟨1, rfl, (Flat.zero rest).cons (by decide), rfl⟩
  · exact ⟨0, rfl, Flat.zero t, rfl⟩

/-- The tag that ends a raw block is paid for by its units. -/
theorem rawEnd?_eq_some {u : CodeUnit} {rest : Text} {length : Nat} {dashes : Bool × Bool}
    (h : rawEnd? (u :: rest) = some (length, dashes)) :
    wordRounds "endraw" (afterMark (rest.drop 1)) + 2 ≤ length ∧ length ≤ rest.length + 1 := by
  obtain ⟨width, hafter, ⟨hwidth, -⟩, hdash⟩ := afterMark_facts (rest.drop 1)
  unfold rawEnd? at h
  split at h
  · rename_i hmark
    have hmarkLength := (List.isPrefixOf_iff_prefix.mp hmark).length_le
    have htwo : (Text.ofString "\x7b%").length = 2 := by decide
    obtain ⟨⟨n, dashAfter⟩, hword, he⟩ := Option.map_eq_some_iff.mp h
    change wordThenClose? "endraw" (afterMark (rest.drop 1)) = _ at hword
    have hopen : (if (rest.drop 1).head? = some ('-' : CodeUnit) then 3 else 2) = width + 2 := by
      rw [hdash]
      split <;> rfl
    change ((if (rest.drop 1).head? = some ('-' : CodeUnit) then 3 else 2) + n, _) = _ at he
    rw [hopen] at he
    obtain ⟨hrounds, hlength⟩ := wordRounds_le hword
    cases he
    rw [hafter, List.length_drop, List.length_drop] at hlength
    simp only [List.length_drop, List.length_cons] at hwidth hmarkLength
    omega
  · cases h

/-- A place that opens no tag is looked at once. -/
theorem rawEnd?_flat {u : CodeUnit} (hu : ('\x7b' : CodeUnit) ≠ u) (rest : Text) :
    rawEnd? (u :: rest) = none ∧ rawEndRounds (u :: rest) = 1 + rawEndRounds rest := by
  have hmark : ¬ (Text.ofString "\x7b%").isPrefixOf (u :: rest) := by
    intro hfront
    obtain ⟨more, heq⟩ := List.isPrefixOf_iff_prefix.mp hfront
    exact hu (List.cons.inj heq).1
  have hnone : rawEnd? (u :: rest) = none := by
    unfold rawEnd?
    exact if_neg hmark
  refine ⟨hnone, ?_⟩
  rw [rawEndRounds, if_neg hmark, hnone]
  rfl

theorem rawLength_none {u : CodeUnit} {rest : Text} (h : rawEnd? (u :: rest) = none) :
    rawLength (u :: rest) = 1 + rawLength rest := by
  unfold rawLength
  rw [rawEndAt?, h]
  cases hrest : rawEndAt? rest with
  | none => simp [Nat.add_comm]
  | some found =>
    obtain ⟨n, length, dashes⟩ := found
    simp only [Option.map_some]
    omega

theorem rawLength_some {u : CodeUnit} {rest : Text} {length : Nat} {dashes : Bool × Bool}
    (h : rawEnd? (u :: rest) = some (length, dashes)) : rawLength (u :: rest) = length := by
  unfold rawLength
  rw [rawEndAt?, h]
  exact Nat.zero_add length

theorem rawLength_le (t : Text) : rawLength t ≤ t.length := by
  induction t with
  | nil => simp [rawLength, rawEndAt?]
  | cons u rest ih =>
    rw [List.length_cons]
    cases hend : rawEnd? (u :: rest) with
    | none =>
      rw [rawLength_none hend]
      omega
    | some found =>
      rw [rawLength_some hend]
      exact (rawEnd?_eq_some hend).2

/-- Looking for the end of a raw block takes two rounds for each unit. A failed attempt passes over units
that open no tag, at which no further attempt is made: they have a round to spare. -/
theorem rawEndRounds_add_le (t : Text) : ∀ n, Flat n t → rawEndRounds t + n ≤ 2 * rawLength t := by
  induction t with
  | nil =>
    intro n hn
    have hzero : n ≤ 0 := hn.1
    simp only [rawEndRounds]
    omega
  | cons u rest ih =>
    intro n hn
    cases n with
    | succ n =>
      have hu : ('\x7b' : CodeUnit) ≠ u := fun heq => hn.2 (by simp [heq])
      have hflat : Flat n rest :=
        ⟨Nat.le_of_succ_le_succ hn.1, fun hmem => hn.2 (by rw [List.take_succ_cons]; exact List.mem_cons_of_mem _ hmem)⟩
      obtain ⟨hend, hrounds⟩ := rawEnd?_flat hu rest
      have hmore := ih n hflat
      rw [hrounds, rawLength_none hend]
      omega
    | zero =>
      cases hend : rawEnd? (u :: rest) with
      | some found =>
        have hpaid := (rawEnd?_eq_some hend).1
        rw [rawLength_some hend, rawEndRounds, hend]
        simp only [Option.isSome_some, if_true]
        split <;> omega
      | none =>
        rw [rawLength_none hend, rawEndRounds, hend]
        simp only [Option.isSome_none, Bool.false_eq_true, if_false]
        split
        · rename_i hmark
          obtain ⟨more, heq⟩ := List.isPrefixOf_iff_prefix.mp hmark
          have hrest : rest = ('%' : CodeUnit) :: more := (List.cons.inj heq).2.symm
          obtain ⟨width, hafter, hwidth, -⟩ := afterMark_facts more
          obtain ⟨m, hflat, hrounds⟩ := flat_wordRounds "endraw" (by decide) (afterMark more)
          rw [hafter] at hflat
          have hattempt : Flat (width + m + 1) rest := hrest ▸ (hwidth.append hflat).cons (by decide)
          have hmore := ih _ hattempt
          have hdrop : rest.drop 1 = more := by rw [hrest]; rfl
          rw [hdrop]
          omega
        · have hmore := ih 0 (Flat.zero rest)
          omega

theorem rawEndRounds_le (t : Text) : rawEndRounds t ≤ 2 * rawLength t := rawEndRounds_add_le t 0 (Flat.zero t)

/-! ## Steps -/

/-- The units up to the next brace. -/
def flatLength (t : Text) : Nat := (t.takeWhile (· ≠ ('\x7b' : CodeUnit))).length

theorem flatLength_le (t : Text) : flatLength t ≤ t.length := (List.takeWhile_sublist _).length_le

theorem le_flatLength {n : Nat} {t : Text} (h : Flat n t) : n ≤ flatLength t := by
  have hall : ∀ u ∈ t.take n, (u ≠ ('\x7b' : CodeUnit)) := fun u hu heq => h.2 (heq ▸ hu)
  have hsplit : t.takeWhile (· ≠ ('\x7b' : CodeUnit)) =
      t.take n ++ (t.drop n).takeWhile (· ≠ ('\x7b' : CodeUnit)) := by
    conv_lhs => rw [← List.take_append_drop n t]
    exact List.takeWhile_append_of_pos (by simpa using hall)
  unfold flatLength
  rw [hsplit, List.length_append, List.length_take]
  have hn := h.1
  omega

theorem flatLength_drop (t : Text) (n : Nat) : flatLength t ≤ n + flatLength (t.drop n) := by
  induction t generalizing n with
  | nil => simp [flatLength]
  | cons u rest ih =>
    cases n with
    | zero => simp
    | succ n =>
      have hrest := ih n
      rw [List.drop_succ_cons]
      unfold flatLength at hrest ⊢
      rw [List.takeWhile_cons]
      split
      · rw [List.length_cons]
        omega
      · simp

/-- Five rounds for each unit passed over pay for what a step is due, and a step that fails is paid by the
units ahead; a step that succeeds passes over a unit. The units up to the next brace may have been looked at
before, when the word of a raw block was looked for, and count once more. -/
def Paid (c : Cursor) (due : Nat) : Except Unreadable Step → Prop
  | .ok s => due + 5 * s.cursor.left ≤ 5 * c.left + flatLength s.cursor.rest ∧ s.cursor.left < c.left ∧
      s.tokens.length ≤ 2
  | .error (.malformed _) => due ≤ 5 * c.left + 1
  | .error .exhausted => False

theorem dataTokens_length (c : Cursor) (n : Nat) (stripStart stripEnd : Bool) :
    (dataTokens c n stripStart stripEnd).length ≤ 1 := by
  unfold dataTokens
  dsimp only
  split <;> simp

/-- The units up to an opening mark and its dash, and no brace before the first mark is further away. -/
theorem opener_length {t : Text} {n : Nat} {o : Opener} {dash : Bool} (h : openerAt? t = some (n, o, dash)) :
    n + (if dash then 3 else 2) ≤ t.length ∧ flatLength t ≤ n := by
  obtain ⟨u, rest, hrest, -, hdash⟩ := openerAt?_eq_some h
  have hlength := congrArg List.length hrest
  simp only [List.length_drop, List.length_cons] at hlength
  constructor
  · split
    · rename_i hd
      rw [hdash, decide_eq_true_eq] at hd
      obtain ⟨more, rfl⟩ := List.head?_eq_some_iff.mp hd
      simp only [List.length_cons] at hlength
      omega
    · omega
  · have hflat := flatLength_drop t n
    rw [hrest] at hflat
    simpa [flatLength] using hflat

theorem find?_length {part t : Text} {n : Nat} (hne : part ≠ []) (h : Text.find? part t = some n) :
    n + part.length ≤ t.length := by
  have hfront := (Text.find?_eq_some h).1.length_le
  have hpos := List.length_pos_of_ne_nil hne
  rw [List.length_drop] at hfront
  omega

section between

variable {c inner : Cursor} {before : List Token} {passed : Nat} (due : Nat)

theorem paid_comment (hb : before.length ≤ 1) (hpassed : inner.left + passed = c.left) (hpos : 2 ≤ passed)
    (hdue : due + 5 ≤ 5 * passed) (dash : Bool) :
    let close? := Text.find? (Text.ofString "#\x7d") inner.rest
    Paid c (due + searchRounds inner.left close? + close?.getD 0) (comment before inner dash) := by
  unfold comment
  cases hfind : Text.find? (Text.ofString "#\x7d") inner.rest with
  | none =>
    change due + (inner.left + 1) + 0 ≤ _
    omega
  | some n =>
    have hlength : n + 2 ≤ inner.left := find?_length (by decide) hfind
    dsimp only
    refine ⟨?_, ?_, Nat.le_succ_of_le hb⟩
    · rw [Cursor.left_skip, Cursor.left_advance]
      change due + (n + 1) + n + _ ≤ _
      omega
    · rw [Cursor.left_skip, Cursor.left_advance]
      omega

theorem paid_rawBlock {width : Nat} (hb : before.length ≤ 1) (hpassed : inner.left + passed = c.left)
    (hpos : 2 ≤ passed) (hwidth : width ≤ inner.left) (hdue : due ≤ 5 * passed + width) (strip : Bool) :
    let body := inner.advance width
    Paid c (due + width + rawEndRounds body.rest + rawLength body.rest) (rawBlock before inner width strip) := by
  have hrounds := rawEndRounds_le (inner.advance width).rest
  have hlength : rawLength (inner.advance width).rest ≤ (inner.advance width).left := rawLength_le _
  rw [Cursor.left_advance] at hlength
  unfold rawBlock
  dsimp only
  split
  · change due + width + _ + _ ≤ _
    omega
  · rename_i n length dash dashAfter hend
    have hraw : rawLength (inner.advance width).rest = n + length := by
      unfold rawLength
      rw [hend]
    have hdata := dataTokens_length (inner.advance width) n strip dash
    refine ⟨?_, ?_, ?_⟩
    · rw [Cursor.left_advance, Cursor.left_advance, Cursor.left_advance]
      omega
    · rw [Cursor.left_advance, Cursor.left_advance, Cursor.left_advance]
      omega
    · rw [List.length_append]
      omega

end between

section betweenRounds

variable {c : Cursor} {strip : Bool} {n : Nat} {dash : Bool}

/-- The rounds up to an opening mark are paid by the units before it, and those by the mark. -/
theorem opened_facts {o : Opener} (hopener : openerAt? c.rest = some (n, o, dash)) :
    (∃ mark, 2 ≤ mark ∧ (behindMark c n dash).left + (n + mark) = c.left) ∧
      1 + (searchRounds c.left (some n) + n) + flatLength c.rest ≤ 3 * n + 2 := by
  obtain ⟨hlength, hbrace⟩ := opener_length hopener
  constructor
  · refine ⟨if dash then 3 else 2, by split <;> omega, ?_⟩
    unfold behindMark
    rw [Cursor.left_skip, Cursor.left_advance]
    unfold Cursor.left
    omega
  · change 1 + (n + 1 + n) + _ ≤ _
    omega

theorem betweenRounds_comment (hopener : openerAt? c.rest = some (n, .comment, dash)) :
    let close? := Text.find? (Text.ofString "#\x7d") (behindMark c n dash).rest
    betweenRounds c = searchRounds c.left (some n) + n + searchRounds (behindMark c n dash).left close? +
      close?.getD 0 := by
  unfold betweenRounds
  rw [hopener]
  rfl

theorem betweenRounds_raw {width : Nat} {stripBody : Bool} (hopener : openerAt? c.rest = some (n, .tag .statement, dash))
    (hword : wordThenClose? "raw" (behindMark c n dash).rest = some (width, stripBody)) :
    let body := (behindMark c n dash).advance width
    betweenRounds c = searchRounds c.left (some n) + n + wordRounds "raw" (behindMark c n dash).rest + width +
      rawEndRounds body.rest + rawLength body.rest := by
  unfold behindMark at hword
  unfold betweenRounds
  rw [hopener]
  dsimp only
  rw [hword]
  rfl

theorem betweenRounds_output (hopener : openerAt? c.rest = some (n, .tag .output, dash)) :
    betweenRounds c = searchRounds c.left (some n) + n := by
  unfold betweenRounds
  rw [hopener]

theorem betweenRounds_statement (hopener : openerAt? c.rest = some (n, .tag .statement, dash))
    (hword : wordThenClose? "raw" (behindMark c n dash).rest = none) :
    betweenRounds c = searchRounds c.left (some n) + n + wordRounds "raw" (behindMark c n dash).rest := by
  unfold behindMark at hword
  unfold betweenRounds
  rw [hopener]
  dsimp only
  rw [hword]
  rfl

theorem paid_betweenStep (hc : c.rest ≠ []) {r : Except Unreadable Step} (hstep : BetweenStep c strip r) :
    Paid c (1 + betweenRounds c + flatLength c.rest) r := by
  cases hstep with
  | last hopener =>
    have hpos : 0 < c.left := List.length_pos_of_ne_nil hc
    have hflat : flatLength c.rest ≤ c.left := flatLength_le c.rest
    have hdata := dataTokens_length c c.rest.length strip false
    have hrounds : betweenRounds c = c.left + 1 + c.left := by
      unfold betweenRounds
      rw [hopener]
      rfl
    have hleft : (c.advance c.rest.length).left = 0 := (Cursor.left_advance c _).trans (Nat.sub_self c.left)
    refine ⟨?_, ?_, Nat.le_succ_of_le hdata⟩ <;> rw [hleft] <;> omega
  | @comment n dash hopener =>
    obtain ⟨⟨mark, hmark, hinner⟩, hfound⟩ := opened_facts hopener
    have hdata := dataTokens_length c n strip dash
    have hpaid := paid_comment (1 + (searchRounds c.left (some n) + n) + flatLength c.rest) hdata hinner (by omega)
      (by omega) dash
    rw [betweenRounds_comment hopener]
    convert hpaid using 1
    omega
  | @raw n width dash stripBody hopener hword =>
    obtain ⟨⟨mark, hmark, hinner⟩, hfound⟩ := opened_facts hopener
    have hdata := dataTokens_length c n strip dash
    obtain ⟨hrounds, hwidth⟩ := wordRounds_le hword
    have hpaid := paid_rawBlock (1 + (searchRounds c.left (some n) + n) + flatLength c.rest +
      wordRounds "raw" (behindMark c n dash).rest) hdata hinner (by omega) hwidth (by omega) stripBody
    rw [betweenRounds_raw hopener hword]
    convert hpaid using 1
    omega
  | @tag kind n dash hopener hword =>
    obtain ⟨⟨mark, hmark, hinner⟩, hfound⟩ := opened_facts hopener
    have hdata := dataTokens_length c n strip dash
    refine ⟨?_, by dsimp only; omega, by rw [List.length_append, List.length_singleton]; omega⟩
    dsimp only
    cases kind with
    | output =>
      rw [betweenRounds_output hopener]
      omega
    | statement =>
      -- the word may be looked for without success: up to the next brace, its units are looked at once more
      obtain ⟨m, hm, hrounds⟩ := flat_wordRounds "raw" (by decide) (behindMark c n dash).rest
      have hle := le_flatLength hm
      rw [betweenRounds_statement hopener (hword rfl)]
      omega

end betweenRounds

/-- Marks and operators are read without a loop. -/
theorem tokenRounds_mark {u : CodeUnit} (rest : Text) (hquote : ¬ (u = '\'' || u = '"')) (hpart : ¬ u.isNamePart) :
    tokenRounds (u :: rest) = 0 := by
  have hdigit : ¬ u.isDigit := fun hu => hpart (by simp [CodeUnit.isNamePart, hu])
  rw [tokenRounds, if_neg hquote, if_neg hdigit, List.takeWhile_cons_of_neg hpart]
  rfl

theorem tokenRounds_le (t : Text) : tokenRounds t ≤ 2 * t.length := by
  fun_cases tokenRounds t with
  | case1 => simp
  | case2 u rest hquote =>
    have hlength := stringRounds_le_length u rest
    rw [List.length_cons]
    cases hbody : stringBody? u rest with
    | none =>
      simp only [Option.map_none, Option.getD_none]
      omega
    | some found =>
      obtain ⟨value, n⟩ := found
      have hn := stringRounds_le hbody
      simp only [Option.map_some, Option.getD_some]
      omega
  | case3 u rest hquote hdigit =>
    have hn := numberLength_le (u :: rest)
    omega
  | case4 u rest hquote hdigit =>
    have hn := (List.takeWhile_sublist (l := u :: rest) CodeUnit.isNamePart).length_le
    omega

/-- A token of `width` units is due two rounds for each of them and one for its step; blanks may stand before it. -/
theorem paid_token {c after : Cursor} {k : Token} {mode : Mode} {width : Nat}
    (hrounds : tokenRounds c.skipBlanks.rest ≤ 2 * width) (hpos : 0 < width) (hwidth : width ≤ c.skipBlanks.left)
    (hafter : after.rest = c.skipBlanks.rest.drop width) :
    Paid c (1 + insideRounds c + flatLength c.rest) (.ok ⟨[k], after, mode⟩) := by
  have hblanks := c.blanks_le
  have hskip := c.left_skipBlanks
  have hflat := flatLength_drop c.rest (c.blanks + width)
  have hrest : c.rest.drop (c.blanks + width) = after.rest := by
    rw [hafter, ← List.drop_drop]
    rfl
  have hleft : after.left = c.skipBlanks.left - width := by
    unfold Cursor.left
    rw [hafter, List.length_drop]
  rw [hrest] at hflat
  unfold insideRounds
  refine ⟨?_, ?_, by simp⟩
  · change _ + 5 * after.left ≤ _ + flatLength after.rest
    omega
  · change after.left < _
    omega

/-- A mark is a text that starts like no word, number or string. -/
def Mark (mark : Text) : Prop := ∃ u more, mark = u :: more ∧ ¬ (u = '\'' || u = '"') ∧ ¬ u.isNamePart

theorem paid_mark {c : Cursor} (k : Token) (mode : Mode) {mark : Text} (hmark : Mark mark)
    (hfront : mark.isPrefixOf c.skipBlanks.rest) :
    Paid c (1 + insideRounds c + flatLength c.rest) (.ok ⟨[k], c.skipBlanks.skip mark.length, mode⟩) := by
  obtain ⟨u, more, rfl, hquote, hpart⟩ := hmark
  have hle := (List.isPrefixOf_iff_prefix.mp hfront).length_le
  obtain ⟨rest, hrest⟩ := List.isPrefixOf_iff_prefix.mp hfront
  have hrounds : tokenRounds c.skipBlanks.rest = 0 := by
    rw [← hrest]
    exact tokenRounds_mark (more ++ rest) hquote hpart
  exact paid_token (by omega) (by simp) hle rfl

theorem mark_close (kind : TagKind) :
    Mark (Text.ofString kind.closeMark) ∧ Mark (('-' : CodeUnit) :: Text.ofString kind.closeMark) := by
  refine ⟨?_, _, _, rfl, by decide, by decide⟩
  cases kind <;> exact ⟨_, _, rfl, by decide, by decide⟩

theorem mark_symbol (op : Operator) :
    Mark (Text.ofString op.symbol) ∧ op.symbol.length = (Text.ofString op.symbol).length := by
  cases op <;> exact ⟨⟨_, _, rfl, by decide, by decide⟩, by decide⟩

theorem paid_insideStep {c : Cursor} {kind : TagKind} {openLine : Nat} {brackets : List Operator}
    {r : Except Unreadable Step} (hstep : InsideStep c.skipBlanks kind openLine brackets r) :
    Paid c (1 + insideRounds c + flatLength c.rest) r := by
  have hblanks := c.blanks_le
  have hskip := c.left_skipBlanks
  have hflat : flatLength c.rest ≤ c.left := flatLength_le c.rest
  have hrounds : tokenRounds c.skipBlanks.rest ≤ 2 * c.skipBlanks.left := tokenRounds_le _
  have fault : 1 + insideRounds c + flatLength c.rest ≤ 5 * c.left + 1 := by
    unfold insideRounds
    omega
  obtain ⟨hclose, hdashClose⟩ := mark_close kind
  obtain ⟨htwo, -⟩ := closeMark_facts kind
  cases hstep with
  | unclosedTag | unclosedString | strayUnit | strayBracket => exact fault
  | dashedEnd hempty hmark =>
    have hpaid := paid_mark ⟨.tagEnd kind, c.skipBlanks.line, c.skipBlanks.offset⟩ (.between true) hdashClose
      (List.isPrefixOf_iff_prefix.mpr hmark)
    rwa [List.length_cons, htwo] at hpaid
  | bareEnd hempty hmark =>
    have hpaid := paid_mark ⟨.tagEnd kind, c.skipBlanks.line, c.skipBlanks.offset⟩ (.between false) hclose
      (List.isPrefixOf_iff_prefix.mpr hmark)
    rwa [htwo] at hpaid
  | @string u rest value n hrest hopen hquote hbody =>
    obtain ⟨hstring, hn⟩ := stringRounds_le hbody
    have hlength : c.skipBlanks.left = rest.length + 1 := congrArg List.length hrest
    have htoken : tokenRounds c.skipBlanks.rest ≤ 2 * (n + 1) := by
      rw [hrest, tokenRounds, if_pos hquote, hbody]
      simp only [Option.map_some, Option.getD_some]
      omega
    refine paid_token htoken (Nat.succ_pos n) (by omega) ?_
    simp [Cursor.advance, Cursor.skip]
  | @number u rest n float hrest hopen hdigit hnumber =>
    obtain rfl : (numberLength c.skipBlanks.rest).1 = n := congrArg Prod.fst hnumber
    have hquote := isQuote_eq_false (Bool.or_eq_true_iff.mpr (.inl hdigit))
    have htoken : tokenRounds c.skipBlanks.rest = (numberLength c.skipBlanks.rest).1 := by
      rw [hrest, tokenRounds, if_neg (Bool.eq_false_iff.mp hquote), if_pos hdigit]
    have hpos : 0 < (numberLength c.skipBlanks.rest).1 := hrest ▸ numberLength_pos hdigit
    exact paid_token (by omega) hpos (numberLength_le _) rfl
  | @name u rest word hrest hopen hstart hword =>
    subst hword
    have hquote := isQuote_eq_false (Bool.or_eq_true_iff.mpr (.inr hstart))
    have htoken : tokenRounds c.skipBlanks.rest = (c.skipBlanks.rest.takeWhile CodeUnit.isNamePart).length := by
      rw [hrest, tokenRounds, if_neg (Bool.eq_false_iff.mp hquote), if_neg (isDigit_of_isNameStart hstart)]
    have hpart : u.isNamePart := by simp [CodeUnit.isNamePart, hstart]
    have hpos : 0 < (c.skipBlanks.rest.takeWhile CodeUnit.isNamePart).length := by
      simp [hrest, hpart]
    exact paid_token (by omega) hpos (List.takeWhile_sublist _).length_le rfl
  | @operator u rest op opened hrest hopen hu hop htrack =>
    obtain ⟨hmark, hlength⟩ := mark_symbol op
    rw [hlength]
    exact paid_mark _ _ hmark (Operator.ofStart?_isPrefix hop)

theorem paid_step {c : Cursor} {mode : Mode} (h : GoesOn c mode) :
    Paid c (1 + stepRounds c mode + flatLength c.rest) (step c mode) := by
  cases mode with
  | between strip =>
    rcases h with hc | ⟨kind, line, brackets, hmode⟩
    · exact paid_betweenStep hc (betweenStep c strip)
    · cases hmode
  | inside kind openLine brackets => exact paid_insideStep (insideStep c kind openLine brackets)

/-! ## Runs -/

section runs

variable {c : Cursor} {mode : Mode} {s : Step}

theorem runWork_over (hrest : c.rest = []) (strip : Bool) (fuel : Nat) : runWork (fuel + 1) c (.between strip) = 1 := by
  unfold runWork
  rw [hrest]
  rfl

theorem runWork_of_error (h : GoesOn c mode) {e : Unreadable} (hs : step c mode = .error e) (fuel : Nat) :
    runWork (fuel + 1) c mode = 1 + stepRounds c mode := by
  unfold runWork
  split
  · rename_i hrest
    exact (h.not_over hrest rfl).elim
  · rw [hs]
    rfl

theorem runWork_of_ok (h : GoesOn c mode) (hs : step c mode = .ok s) (fuel : Nat) :
    runWork (fuel + 1) c mode = 1 + (stepRounds c mode + runWork fuel s.cursor s.mode) := by
  conv_lhs => unfold runWork
  split
  · rename_i hrest
    exact (h.not_over hrest rfl).elim
  · rw [hs]

/-- How a run ends that had fuel for every unit: the units pay for it, and it fails at a fault only. -/
def RunPaid (c : Cursor) : Except Unreadable (List Token) → Prop
  | .ok tokens => tokens.length ≤ 2 * c.left + 1
  | .error (.malformed _) => True
  | .error .exhausted => False

theorem RunPaid.append {r : Except Unreadable (List Token)} (hless : s.cursor.left < c.left)
    (htokens : s.tokens.length ≤ 2) (h : RunPaid s.cursor r) : RunPaid c ((s.tokens ++ ·) <$> r) := by
  rcases r with (e | _) | tokens
  · trivial
  · exact h
  · change tokens.length ≤ _ at h
    change (s.tokens ++ tokens).length ≤ _
    rw [List.length_append]
    omega

theorem paid_run (fuel : Nat) (c : Cursor) (mode : Mode) (hfuel : c.left < fuel) :
    runWork fuel c mode + flatLength c.rest ≤ 5 * c.left + 1 ∧ RunPaid c (run fuel c mode) := by
  induction fuel generalizing c mode with
  | zero => omega
  | succ fuel ih =>
    obtain ⟨hrest, strip, rfl⟩ | hmore := over_or_goesOn c mode
    · rw [runWork_over hrest, run_over hrest, hrest]
      exact ⟨Nat.le_add_left 1 _, Nat.le_add_left 1 _⟩
    · have hpaid := paid_step hmore
      cases hs : step c mode with
      | error e =>
        rw [hs] at hpaid
        rw [runWork_of_error hmore hs, run_of_error hmore hs]
        cases e with
        | malformed e => exact ⟨hpaid, trivial⟩
        | exhausted => exact hpaid.elim
      | ok s =>
        rw [hs] at hpaid
        obtain ⟨hdue, hless, htokens⟩ := hpaid
        obtain ⟨hwork, hrun⟩ := ih s.cursor s.mode (by omega)
        rw [runWork_of_ok hmore hs, run_of_ok hmore hs]
        exact ⟨by omega, hrun.append hless htokens⟩

end runs

/-- A source is split in time linear in its length, into a number of tokens linear in it. -/
theorem paid_tokenize (source : Text) (keep : Bool) :
    work source keep ≤ 5 * source.length + 1 ∧
      match tokenize source keep with
      | .ok tokens => tokens.length ≤ 2 * source.length + 1
      | .error (.malformed _) => True
      | .error .exhausted => False := by
  have htrimmed := (prefix_trimmed source keep).length_le
  obtain ⟨hwork, hrun⟩ := paid_run ((trimmed source keep).length + 1) (.start (trimmed source keep)) (.between false)
    (Nat.lt_succ_self _)
  change _ ≤ 5 * (trimmed source keep).length + 1 at hwork
  refine ⟨by unfold work; dsimp only; omega, ?_⟩
  unfold tokenize
  dsimp only
  cases hr : run ((trimmed source keep).length + 1) (.start (trimmed source keep)) (.between false) with
  | error e =>
    rw [hr] at hrun
    cases e with
    | malformed e => trivial
    | exhausted => exact hrun
  | ok tokens =>
    rw [hr] at hrun
    change tokens.length ≤ 2 * (trimmed source keep).length + 1 at hrun
    dsimp only
    omega

end Lexer
end Stencil
