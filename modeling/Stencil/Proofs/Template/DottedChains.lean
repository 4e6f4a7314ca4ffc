import Stencil.Proofs.Literal.IntegerSpellings
import Stencil.Proofs.Template.Failing
import Stencil.Proofs.Template.LexingTags
import Stencil.Proofs.Template.ReadBack

/-!
Items that are read one out of the other, by integers after dots or between brackets. A number is split off without
regard to the dot before it, so that an integer with a dot right behind it is taken for the whole part of a number, and
no such number is read after a dot. Where blanks keep the dots apart, both forms are read alike.
-/

namespace Stencil

open Lexer (Halts halts_of_apart)
open Literal (Digits Blanks Apart)

/-- An integer by which an item is read, as a number token spells it. -/
structure IntegerKey where
  value : Nat
  spelling : Text
  digits : Digits 10 value spelling

/-- A word that stands for a value: a name, or a constant. -/
structure IsOperand (word : Text) : Prop where
  spelled : ∃ u rest, word = u :: rest ∧ u.isNameStart = true ∧ rest.all CodeUnit.isNamePart = true
  ne_not : word ≠ Text.ofString "not"

namespace IntegerKey

variable {key : IntegerKey} {keys : List IntegerKey} {more : List (Text × IntegerKey)} {blanks rest word : Text}

/-! ## Values -/

/-- The number nearest to the integer. -/
def number (key : IntegerKey) : Number := .ofDecimal false ⟨key.value, 0⟩

/-- What the integer is read as after a dot, where underscores are not left out: with one in it, it is no number. -/
def afterDot (key : IntegerKey) : Number := if ('_' : CodeUnit) ∈ key.spelling then .nan else key.number

theorem numberValue_spelling (key : IntegerKey) : Parser.numberValue key.spelling = key.number := by
  change (Number.ofText? (Literal.bare key.spelling)).getD .nan = key.number
  rw [key.digits.ofText?, Option.getD_some]
  rfl

/-- Digits with an underscore behind some of them are no decimal. -/
theorem decimal?_eq_none {digits : Text} (hne : digits ≠ []) (hdigits : ∀ u ∈ digits, u.isDigit = true)
    (rest : Text) : Number.decimal? (digits ++ ('_' : CodeUnit) :: rest) = none := by
  have hspan : Number.spanDigits (digits ++ ('_' : CodeUnit) :: rest) = (digits, ('_' : CodeUnit) :: rest) := by
    unfold Number.spanDigits
    rw [List.takeWhile_append_of_pos hdigits, List.dropWhile_append_of_pos hdigits]
    exact congrArg (·, _) (List.append_nil digits)
  have hempty : digits.isEmpty = false := List.isEmpty_eq_false_iff.mpr hne
  unfold Number.decimal?
  rw [hspan]
  dsimp only
  rw [hempty, Bool.false_and, if_neg Bool.false_ne_true]
  rfl

theorem exists_before_underscore (h : ('_' : CodeUnit) ∈ key.spelling) : ∃ digits rest : Text,
    key.spelling = digits ++ ('_' : CodeUnit) :: rest ∧ digits ≠ [] ∧ ∀ u ∈ digits, u.isDigit = true := by
  obtain ⟨digits, rest, heq, hnot⟩ := List.eq_append_cons_of_mem h
  refine ⟨digits, rest, heq, ?_, ?_⟩
  · rintro rfl
    obtain ⟨v, t, d, hhead, hv⟩ := key.digits.exists_cons
    exact hv.ne_underscore (List.cons.inj (hhead.symm.trans heq)).1
  · intro v hv
    have hmem : v ∈ key.spelling := by
      rw [heq]
      exact List.mem_append_left _ hv
    rcases key.digits.all v hmem with ⟨d, hd⟩ | rfl
    · exact hd.isDigit.1
    · exact absurd hv hnot

theorem ofText?_eq_none (h : ('_' : CodeUnit) ∈ key.spelling) : Number.ofText? key.spelling = none := by
  obtain ⟨digits, rest, heq, hne, hdigits⟩ := exists_before_underscore h
  have hdecimal := decimal?_eq_none hne hdigits rest
  rw [heq]
  cases digits with
  | nil => exact absurd rfl hne
  | cons d digits =>
    obtain ⟨hd, hdigits⟩ := List.forall_mem_cons.mp hdigits
    -- no mark of a base: behind the first digit there is a digit or the underscore
    have hmarked : Number.marked? (d :: (digits ++ ('_' : CodeUnit) :: rest)) = none := by
      cases digits with
      | nil => simp +decide [Number.marked?]
      | cons d' digits => exact Number.marked?_eq_none (.inl (hdigits d' List.mem_cons_self))
    exact (Number.ofText?_of_head hd hmarked).trans (congrArg _ hdecimal)

theorem ofText?_spelling (key : IntegerKey) : (Number.ofText? key.spelling).getD .nan = key.afterDot := by
  unfold afterDot
  split
  · rename_i h
    rw [ofText?_eq_none h, Option.getD_none]
  · rename_i h
    have hbare : Literal.bare key.spelling = key.spelling := by
      refine List.filter_eq_self.mpr fun v hv => bne_iff_ne.mpr ?_
      rintro rfl
      exact h hv
    rw [← numberValue_spelling]
    unfold Parser.numberValue
    exact congrArg (fun t => (Number.ofText? t).getD .nan) hbare.symm

/-! ## Texts and tokens -/

/-- Dots with integers after them, and with blanks in front of the dots. -/
def dots (keys : List (Text × IntegerKey)) : Text := keys.flatMap fun p => p.1 ++ ('.' : CodeUnit) :: p.2.spelling

/-- Items of a variable, by integers after dots. -/
def dotted (word : Text) (keys : List (Text × IntegerKey)) : Text := word ++ dots keys

/-- Items of a variable, by integers between brackets. -/
def bracketed (word : Text) (keys : List IntegerKey) : Text :=
  word ++ keys.flatMap fun key => ('[' : CodeUnit) :: (key.spelling ++ [(']' : CodeUnit)])

/-- The tokens behind a dot. An integer with a dot right behind it is one token with the integer after that dot. -/
def dotTokens : IntegerKey → List (Text × IntegerKey) → List TokenKind
  | key, [] => [.integer key.spelling]
  | key, (blanks, next) :: more =>
    if blanks.isEmpty then
      .float (key.spelling ++ ('.' : CodeUnit) :: next.spelling) ::
        match more with
        | [] => []
        | (_, third) :: more => .operator .dot :: dotTokens third more
    else .integer key.spelling :: .operator .dot :: dotTokens next more

theorem dotTokens_of_blanks (h : blanks ≠ []) (key next : IntegerKey) (more : List (Text × IntegerKey)) :
    dotTokens key ((blanks, next) :: more) = .integer key.spelling :: .operator .dot :: dotTokens next more := by
  have hempty : blanks.isEmpty = false := List.isEmpty_eq_false_iff.mpr h
  rw [dotTokens.eq_def]
  dsimp only
  rw [hempty, if_neg Bool.false_ne_true]

theorem dotTokens_joined (key next : IntegerKey) (more : List (Text × IntegerKey)) :
    ∃ number rest, dotTokens key (([], next) :: more) = .float number :: rest := by
  rw [dotTokens.eq_def]
  exact ⟨_, _, rfl⟩

theorem dotTokens_apart (h : ∀ p ∈ more, p.1 ≠ []) (key : IntegerKey) :
    .operator .dot :: dotTokens key more =
      (key :: more.map (·.2)).flatMap fun key => [.operator .dot, .integer key.spelling] := by
  induction more generalizing key with
  | nil => rfl
  | cons p more ih =>
    obtain ⟨hblanks, h⟩ := List.forall_mem_cons.mp h
    rw [dotTokens_of_blanks hblanks, ih h]
    rfl

/-! ## Numbers ahead -/

theorem halts_dot (rest : Text) : Halts ('.' :: rest) := by
  rintro u ⟨⟩
  decide

/-- Blanks keep a number apart from what comes next. -/
theorem apart_blanks (hblanks : Blanks blanks) (hne : blanks ≠ []) (rest : Text) : Apart (blanks ++ rest) := by
  obtain ⟨u, blanks, rfl⟩ := List.exists_cons_of_ne_nil hne
  exact Literal.apart_cons (Literal.isNumberUnit_of_isBlank (hblanks u List.mem_cons_self)) _

theorem halts_blanks (hblanks : Blanks blanks) (rest : Text) : Halts (blanks ++ ('.' : CodeUnit) :: rest) := by
  by_cases hne : blanks = []
  · rw [hne]
    exact halts_dot rest
  · exact halts_of_apart (apart_blanks hblanks hne _)

theorem digitsLength_spelling (key : IntegerKey) (hrest : Halts rest) :
    Text.digitsLength (key.spelling ++ rest) = key.spelling.length := by
  have hafter : Literal.runAfter CodeUnit.isDigit rest = 0 := by
    have hrun : Text.runLength CodeUnit.isDigit rest = 0 := Text.runLength_of_head fun u hu => (hrest u hu).1
    rcases rest with _ | ⟨u, _ | ⟨v, rest⟩⟩
    · rfl
    · exact hrun
    · have hmark : decide (u = '_') = false := decide_eq_false (hrest u rfl).2.1
      unfold Literal.runAfter
      dsimp only
      rw [hmark, Bool.false_and, if_neg Bool.false_ne_true, hrun]
  have hrun := key.digits.runLength (p := CodeUnit.isDigit) (fun _ _ hu => hu.isDigit.1) rest
  rwa [hafter] at hrun

/-- Two integers with nothing but a dot between them are one number. -/
theorem numberLength_dot (key next : IntegerKey) (hrest : Halts rest) :
    Lexer.numberLength (key.spelling ++ ('.' : CodeUnit) :: next.spelling ++ rest) =
      ((key.spelling ++ ('.' : CodeUnit) :: next.spelling).length, true) := by
  have hpos : next.spelling.length ≠ 0 := by
    obtain ⟨u, t, d, ht, -⟩ := next.digits.exists_cons
    rw [ht]
    exact Nat.succ_ne_zero _
  have hwhole := digitsLength_spelling key (halts_dot (next.spelling ++ rest))
  have hfraction : Text.fractionLength (('.' : CodeUnit) :: (next.spelling ++ rest)) = 1 + next.spelling.length := by
    unfold Text.fractionLength
    dsimp only
    rw [digitsLength_spelling next hrest]
    exact if_pos (by simpa using hpos)
  have hdrop : (key.spelling ++ ('.' : CodeUnit) :: (next.spelling ++ rest)).drop
      (key.spelling.length + (1 + next.spelling.length)) = rest := by
    rw [← List.drop_drop, List.drop_left' rfl, Nat.add_comm 1, List.drop_succ_cons, List.drop_left' rfl]
  rw [List.append_assoc, List.cons_append]
  unfold Lexer.numberLength
  dsimp only
  rw [hwhole, List.drop_left' rfl, hfraction, hdrop, Lexer.exponentLength_eq_zero hrest]
  simp
  omega

/-! ## Splitting -/

variable {before : List Operator}

theorem isDigit_head (key : IntegerKey) : ∀ u ∈ key.spelling.head?, u.isDigit = true := by
  obtain ⟨v, t, d, ht, hv⟩ := key.digits.exists_cons
  rw [ht]
  rintro u ⟨⟩
  exact hv.isDigit.1

theorem spelling_ne_nil (key : IntegerKey) : key.spelling ≠ [] := by
  obtain ⟨v, t, d, ht, -⟩ := key.digits.exists_cons
  rw [ht]
  exact List.cons_ne_nil _ _

theorem lexes_spelling (key : IntegerKey) (hrest : Apart rest) :
    Lexer.Lexes before key.spelling [.integer key.spelling] before rest :=
  Lexer.lexes_number key.isDigit_head key.spelling_ne_nil
    (Lexer.numberLength_integer (digitsLength_spelling key (halts_of_apart hrest)) hrest)

theorem lexes_joined (key next : IntegerKey) (hrest : Halts rest) :
    Lexer.Lexes before (key.spelling ++ ('.' : CodeUnit) :: next.spelling)
      [.float (key.spelling ++ ('.' : CodeUnit) :: next.spelling)] before rest := by
  refine Lexer.lexes_number (fun u hu => key.isDigit_head u ?_) (by simp) (numberLength_dot key next hrest)
  rwa [List.head?_append_of_ne_nil _ key.spelling_ne_nil] at hu

theorem lexes_dotTokens (hblanks : ∀ p ∈ more, Blanks p.1) (hrest : Apart rest) (key : IntegerKey) :
    Lexer.Lexes before (key.spelling ++ dots more) (dotTokens key more) before rest := by
  have hnone : Blanks [] := List.forall_mem_nil _
  -- along `dotTokens`, which goes on behind the second integer where two of them are one token
  induction key, more using dotTokens.induct with
  | case1 key => simpa [dots, dotTokens] using lexes_spelling key hrest
  | case2 key blanks next more hempty ih =>
    obtain rfl : blanks = [] := List.isEmpty_iff.mp hempty
    obtain ⟨-, hblanks⟩ := List.forall_mem_cons.mp hblanks
    cases more with
    | nil => simpa [dots, dotTokens] using lexes_joined key next (halts_of_apart hrest)
    | cons p more =>
      obtain ⟨blanks, third⟩ := p
      obtain ⟨hthird, hblanks⟩ := List.forall_mem_cons.mp hblanks
      have hnext : Lexer.Lexes before _ _ before (blanks ++ ('.' : CodeUnit) :: (third.spelling ++ dots more ++ rest)) :=
        lexes_joined key next (halts_blanks hthird _)
      have hall := hnext.append hthird (Lexer.lexes_dot.append hnone (ih hblanks))
      simpa [dots, dotTokens] using hall
  | case3 key blanks next more hempty ih =>
    have hne : blanks ≠ [] := fun h => hempty (List.isEmpty_iff.mpr h)
    obtain ⟨hnext, hblanks⟩ := List.forall_mem_cons.mp hblanks
    have hfirst : Lexer.Lexes before _ _ before (blanks ++ ('.' : CodeUnit) :: (next.spelling ++ dots more ++ rest)) :=
      lexes_spelling key (apart_blanks hnext hne _)
    have hall := hfirst.append hnext (Lexer.lexes_dot.append hnone (ih hblanks))
    rw [dotTokens_of_blanks hne]
    simpa [dots] using hall

theorem lexes_dotted {first : Text × IntegerKey} (hword : IsOperand word) (hblanks : ∀ p ∈ first :: more, Blanks p.1)
    (hrest : Apart rest) :
    Lexer.Lexes before (dotted word (first :: more)) (.name word :: .operator .dot :: dotTokens first.2 more)
      before rest := by
  obtain ⟨u, word, rfl, hstart, hparts⟩ := hword.spelled
  obtain ⟨hfirst, hblanks⟩ := List.forall_mem_cons.mp hblanks
  have hnone : Blanks [] := List.forall_mem_nil _
  have hend : ∀ v ∈ (first.1 ++ ('.' : CodeUnit) :: (first.2.spelling ++ dots more ++ rest)).head?,
      v.isNamePart = false := by
    by_cases hne : first.1 = []
    · rw [hne]
      rintro v ⟨⟩
      decide
    · exact (apart_blanks hfirst hne _).isNamePart
  have hname : Lexer.Lexes before (u :: word) [.name (u :: word)] before _ := Lexer.lexes_name hstart hparts hend
  have hall := hname.append hfirst (Lexer.lexes_dot.append hnone (lexes_dotTokens hblanks hrest first.2))
  simpa [dotted, dots] using hall

/-- The tokens of an integer between brackets. -/
def bracketTokens (key : IntegerKey) : List TokenKind :=
  [.operator .leftBracket, .integer key.spelling, .operator .rightBracket]

theorem lexes_bracket (key : IntegerKey) :
    Lexer.Lexes before (('[' : CodeUnit) :: (key.spelling ++ [(']' : CodeUnit)])) key.bracketTokens before rest := by
  have hnone : Blanks [] := List.forall_mem_nil _
  have hopen : ∀ more, Lexer.Lexes before [('[' : CodeUnit)] [.operator .leftBracket] (.leftBracket :: before) more :=
    fun more => Lexer.lexes_punctuation Lexer.punctuation_leftBracket (Lexer.goes_of_head (by decide) (by decide)) rfl
  have hclose : Lexer.Lexes (.leftBracket :: before) [(']' : CodeUnit)] [.operator .rightBracket] before rest :=
    Lexer.lexes_punctuation Lexer.punctuation_rightBracket (Lexer.goes_of_ne (List.cons_ne_nil _ _)) rfl
  have hend : Apart ((']' : CodeUnit) :: rest) := Literal.apart_cons (by decide) rest
  have hkey : Lexer.Lexes (.leftBracket :: before) key.spelling _ (.leftBracket :: before) _ := lexes_spelling key hend
  have hall := Lexer.Lexes.append (hopen _) hnone (hkey.append hnone hclose)
  simpa [bracketTokens] using hall

theorem lexes_bracketed (hword : IsOperand word) (hrest : ∀ v ∈ rest.head?, v.isNamePart = false)
    (keys : List IntegerKey) :
    Lexer.Lexes before (bracketed word keys) (.name word :: keys.flatMap bracketTokens) before rest := by
  obtain ⟨u, word, rfl, hstart, hparts⟩ := hword.spelled
  -- from the end: what follows a bracket is free, while the word must not go on into what follows it
  induction keys using List.reverseRecOn generalizing rest with
  | nil => simpa [bracketed] using Lexer.lexes_name hstart hparts hrest
  | append_singleton keys key ih =>
    have hnone : Blanks [] := List.forall_mem_nil _
    have hbracket : ∀ v ∈ (('[' : CodeUnit) :: (key.spelling ++ [(']' : CodeUnit)] ++ rest)).head?,
        v.isNamePart = false := by
      rintro v ⟨⟩
      decide
    have hall := (ih hbracket).append hnone (lexes_bracket key)
    simpa [bracketed] using hall

end IntegerKey

/-! ## Expressions -/

namespace Expr

/-- What a word alone is read as. -/
def ofWord (word : Text) : Expr :=
  match Parser.constantWord? word with
  | some v => .const 0 v
  | none => .name ⟨word, 0, 0⟩

/-- Items that are read one out of the other, by numbers. -/
def itemsOf (e : Expr) (numbers : List Number) : Expr :=
  numbers.foldl (fun e x => .item 0 e (.const 0 (.number x))) e

end Expr

namespace Parser

open IntegerKey (dotTokens dotTokens_joined dotTokens_of_blanks)

variable {dialect : Dialect} {total : Nat} {ks : List TokenKind} {t : Expr} {more : List (Text × IntegerKey)}

theorem primary_word (word : Text) : PrimaryBack dialect total [.name word] (Expr.ofWord word) := by
  intro nested _ follow _
  refine .current fun k hk => ?_
  rw [show k.kind = .name word from hk]
  refine .next (by simp) fun _ _ => ?_
  unfold Expr.ofWord
  cases constantWord? word with
  | none => exact .pure (.name rfl)
  | some v => exact .pure (.const v)

theorem primary_integer (key : IntegerKey) :
    PrimaryBack dialect total [.integer key.spelling] (.const 0 (.number key.number)) := by
  intro nested _ follow _
  refine .current fun k hk => ?_
  rw [show k.kind = .integer key.spelling from hk]
  refine .next (by simp) fun _ _ => ?_
  rw [key.numberValue_spelling]
  exact .pure (.const _)

theorem opens_integer (key : IntegerKey) {least : Nat} : Expr.Opens least [.integer key.spelling] :=
  .single rfl nofun nofun nofun

/-- An integer between brackets after what was read so far. -/
theorem reaches_bracket (ht : ReachesBack dialect total 10 ks t) (key : IntegerKey) :
    ReachesBack dialect total 10 (ks ++ key.bracketTokens) (.item 0 t (.const 0 (.number key.number))) := by
  have hten : ReadsBack dialect total 10 [.integer key.spelling] (.const 0 (.number key.number)) :=
    (primary_integer key).reaches.reads (.inr (.inr rfl))
  obtain ⟨hread, -⟩ := hten.below (Nat.le_refl 10) (opens_integer key) 0 (by omega)
  refine ht.more (Nat.le_refl 11) fun nested hu follow _ line a ha => ?_
  have hlt : [TokenKind.integer key.spelling].length < (ks ++ key.bracketTokens).length := by
    simp only [IntegerKey.bracketTokens, List.length_append, List.length_cons]
    omega
  have hkey : ∀ line, Takes total (subscript nested line a) [.integer key.spelling] (.operator .rightBracket :: follow)
      (Expr.item 0 t (.const 0 (.number key.number))).Matches :=
    takes_itemKey hread ⟨_, [], rfl, rfl⟩ hu hlt ha
  exact takes_subscript hkey

/-- An integer after a dot. -/
theorem reaches_dot (ht : ReachesBack dialect total 10 ks t) (key : IntegerKey) :
    ReachesBack dialect total 10 (ks ++ [.operator .dot, .integer key.spelling])
      (.item 0 t (.const 0 (.number key.afterDot))) := by
  refine ht.more (Nat.le_refl 11) fun nested _ follow _ line a ha => ?_
  refine .current fun k hk => ?_
  rw [show k.kind = .operator .dot from hk]
  refine .next (by simp) fun _ _ => ?_
  have hmember : Takes total (memberOf k.line a) [.integer key.spelling] follow
      (Expr.item 0 t (.const 0 (.number key.afterDot))).Matches := by
    refine .next (by simp) fun k' hk' => ?_
    rw [hk']
    dsimp only
    rw [key.ofText?_spelling]
    exact .pure (.item ha (.const _))
  exact hmember.bind_last fun e he => .pure he

/-- Rounds of one form, one for each integer. -/
theorem reaches_items {piece : IntegerKey → List TokenKind} {number : IntegerKey → Number}
    (hround : ∀ ks t key, ReachesBack dialect total 10 ks t →
      ReachesBack dialect total 10 (ks ++ piece key) (.item 0 t (.const 0 (.number (number key)))))
    (ht : ReachesBack dialect total 10 ks t) (keys : List IntegerKey) :
    ReachesBack dialect total 10 (ks ++ keys.flatMap piece) (t.itemsOf (keys.map number)) := by
  induction keys generalizing ks t with
  | nil => simpa [Expr.itemsOf] using ht
  | cons key keys ih =>
    have hall := ih (hround ks t key ht)
    rwa [List.append_assoc] at hall

/-- Where two integers are one number, there is no member to be read. -/
theorem fails_joined (hjoined : ∃ p ∈ more, p.1 = []) (follow : List TokenKind)
    (ht : ReachesBack dialect total 10 ks t) (key : IntegerKey)
    (hle : (ks ++ .operator .dot :: dotTokens key more).length ≤ total) :
    Fails total (reader dialect (entry dialect) 10) (ks ++ .operator .dot :: (dotTokens key more ++ follow))
      .memberExpected := by
  -- what was read so far grows by one integer in each step, up to the first dot without a blank in front of it
  induction more generalizing ks t key with
  | nil =>
    obtain ⟨p, hp, -⟩ := hjoined
    cases hp
  | cons p more ih =>
    obtain ⟨blanks, next⟩ := p
    by_cases hblanks : blanks = []
    · subst hblanks
      obtain ⟨number, rest, hfloat⟩ := dotTokens_joined key next more
      rw [hfloat] at hle ⊢
      rw [List.length_append] at hle
      have harrives := ht (entry dialect) (unfolds_entry.mono (by omega))
        (.operator .dot :: (.float number :: rest ++ follow)) (Nat.le_refl 11)
      refine harrives.fails fun line a _ => ?_
      refine .current fun k hk => ?_
      rw [show k.kind = .operator .dot from hk]
      refine .next (by simp) fun _ _ => ?_
      have hmember : Fails total (memberOf k.line a) (.float number :: rest ++ follow) .memberExpected := by
        refine .next (by simp) fun k' hk' => ?_
        rw [hk']
        exact .failAt _
      exact hmember.bind _
    · have hlater : ∃ p ∈ more, p.1 = [] := by
        obtain ⟨p, hp, hempty⟩ := hjoined
        rcases List.mem_cons.mp hp with rfl | hp
        · exact absurd hempty hblanks
        · exact ⟨p, hp, hempty⟩
      rw [dotTokens_of_blanks hblanks] at hle ⊢
      have hall := ih hlater (reaches_dot ht key) next (by simpa using hle)
      simpa using hall

end Parser
end Stencil
