import Mathlib.Data.List.Forall2
import Stencil.Proofs.Number.Numeral
import Stencil.Proofs.Template.Parts
import Stencil.Template.Parser

/-!
Expressions written back as tokens. An operand stands in parentheses exactly where its level is below the one its
position needs. What comes out starts like an expression, and nothing that may follow it could be read as more
of it.
-/

namespace Stencil

theorem Parser.numberValue_spelling {x : Number} (h : x.Unsigned) : Parser.numberValue x.spelling = x := by
  have hplain : x.spelling.filter (· != ('_' : CodeUnit)) = x.spelling :=
    List.filter_eq_self.mpr fun u hu => bne_iff_ne.mpr (ne_of_mem_of_not_mem hu x.underscore_not_mem_spelling)
  rw [Parser.numberValue, hplain, Number.ofText?_spelling h]
  rfl

/-- How tightly an operator holds its operands. -/
def BinaryOp.level : BinaryOp → Nat
  | add | sub => 5
  | concat => 6
  | mul | div | floorDiv | mod => 7
  | pow => 8

def BinaryOp.operator : BinaryOp → Operator
  | add => .plus | sub => .minus | mul => .times | div => .divide | floorDiv => .floorDiv | mod => .modulo
  | pow => .power | concat => .tilde

def LogicalOp.level : LogicalOp → Nat
  | or => 1
  | and => 2

def CompareOp.kinds : CompareOp → List TokenKind
  | equal => [.operator .equal] | notEqual => [.operator .notEqual]
  | less => [.operator .less] | greater => [.operator .greater]
  | lessEqual => [.operator .lessEqual] | greaterEqual => [.operator .greaterEqual]
  | isIn => [.name "in"] | isNotIn => [.name "not", .name "in"]

def Sign.operator : Sign → Operator
  | minus => .minus
  | plus => .plus

/-- The token of a constant; how numbers are spelled is left open. -/
def Constant.kind (numeral : Number → TokenKind) : Constant → TokenKind
  | none => .name "none"
  | bool b => .name (if b then "true" else "false")
  | number x => numeral x
  | text t => .string t

namespace Expr

/-- How tightly an expression holds together: the places it may stand at without parentheses. -/
def level : Expr → Nat
  | cond _ _ _ _ => 0
  | logical _ op _ _ => op.level
  | not _ _ => 3
  | compare _ _ _ => 4
  | binary _ op _ _ => op.level
  | signed _ _ _ | filter _ _ _ _ _ | test _ _ _ _ _ _ => 9
  | _ => 10

/-- What the place of an operand of a sign needs: another sign may stand there too. -/
def operandLevel : Expr → Nat
  | signed _ _ _ => 9
  | _ => 10

/-- The tokens of an expression at a place that needs `least`. -/
def held (least : Nat) (e : Expr) (ks : List TokenKind) : List TokenKind :=
  if e.level < least then .operator .leftParen :: ks ++ [.operator .rightParen] else ks

/-- Pieces with commas between them. -/
def separated : List (List TokenKind) → List TokenKind
  | [] => []
  | piece :: rest => piece ++ rest.flatMap (.operator .comma :: ·)

/-- Pieces with commas between them and the comma that makes a tuple of a single one. -/
def tupled : List (List TokenKind) → List TokenKind
  | [piece] => piece ++ [.operator .comma]
  | pieces => separated pieces

/-- The tokens that an expression is written with. -/
def spell (numeral : Number → TokenKind) : Expr → List TokenKind
  | name n => [.name n.text]
  | const _ v => [v.kind numeral]
  | list _ es => .operator .leftBracket :: separated (items es) ++ [.operator .rightBracket]
  | tuple _ es => .operator .leftParen :: tupled (items es) ++ [.operator .rightParen]
  | dict _ ps => .operator .leftBrace :: separated (entries ps) ++ [.operator .rightBrace]
  | member _ t attr => held 10 t (t.spell numeral) ++ [.operator .dot, .name attr]
  | item _ t key => held 10 t (t.spell numeral) ++ .operator .leftBracket :: key.spell numeral ++ [.operator .rightBracket]
  | slice _ t start stop step =>
    held 10 t (t.spell numeral) ++ .operator .leftBracket :: bound start ++ .operator .colon :: bound stop ++
      (if step.isSome then .operator .colon :: bound step else []) ++ [.operator .rightBracket]
  | call _ c args named =>
    held 10 c (c.spell numeral) ++
      .operator .leftParen :: separated (items args ++ keywords named) ++ [.operator .rightParen]
  | filter _ t f args named =>
    held 9 t (t.spell numeral) ++ .operator .pipe :: .name f ::
      .operator .leftParen :: separated (items args ++ keywords named) ++ [.operator .rightParen]
  | test _ t f args named negated =>
    held 9 t (t.spell numeral) ++ .name "is" :: (if negated then [.name "not"] else []) ++ .name f ::
      .operator .leftParen :: separated (items args ++ keywords named) ++ [.operator .rightParen]
  | not _ e => .name "not" :: held 3 e (e.spell numeral)
  | signed _ sign e => .operator sign.operator :: held e.operandLevel e (e.spell numeral)
  | binary _ op a b =>
    held op.level a (a.spell numeral) ++ .operator op.operator :: held (op.level + 1) b (b.spell numeral)
  | logical _ op a b =>
    held op.level a (a.spell numeral) ++ .name op.symbol :: held (op.level + 1) b (b.spell numeral)
  | compare _ first rest => held 5 first (first.spell numeral) ++ comparisons rest
  | cond _ v t otherwise =>
    held 1 v (v.spell numeral) ++ .name "if" :: held 1 t (t.spell numeral) ++ alternative otherwise
where
  items : List Expr → List (List TokenKind)
    | [] => []
    | e :: rest => e.spell numeral :: items rest
  entries : List (Expr × Expr) → List (List TokenKind)
    | [] => []
    | (key, value) :: rest => (key.spell numeral ++ .operator .colon :: value.spell numeral) :: entries rest
  keywords : List (Text × Expr) → List (List TokenKind)
    | [] => []
    | (word, e) :: rest => (.name word :: .operator .assign :: e.spell numeral) :: keywords rest
  comparisons : List (CompareOp × Expr) → List TokenKind
    | [] => []
    | (op, e) :: rest => op.kinds ++ held 5 e (e.spell numeral) ++ comparisons rest
  bound : Option Expr → List TokenKind
    | none => []
    | some e => e.spell numeral
  alternative : Option Expr → List TokenKind
    | none => []
    | some e => .name "else" :: e.spell numeral

/-- The tokens of an expression at a place that needs `least`, in parentheses where it is below. -/
def print (numeral : Number → TokenKind) (least : Nat) (e : Expr) : List TokenKind := held least e (e.spell numeral)

/-- Words that are not names of variables. -/
def reservedWords : List Text :=
  ["and", "or", "not", "if", "else", "in", "is", "true", "false", "none", "True", "False", "None"].map Text.ofString

/-- What an expression must be made of in order to be written: names that are no words of the grammar, numbers
without a sign, filters and tests that are known. A test named `not` can only be written where it is negated, and
a comparison needs something to compare with. -/
def Writable (dialect : Dialect) : Expr → Prop
  | name n => n.text ∉ reservedWords
  | const _ (.number x) => x.Unsigned
  | filter _ _ f _ _ => f ∈ dialect.filters
  | test _ _ t _ _ negated => t ∈ dialect.tests ∧ (t = "not" → negated)
  | compare _ _ rest => rest ≠ []
  | _ => True

/-- An expression of which every part is writable. -/
def Printable (dialect : Dialect) (e : Expr) : Prop := ∀ x : Expr, x.Within e → x.Writable dialect

/-- Every number without a sign is written as a token of which it is the value. -/
def Spells (numeral : Number → TokenKind) : Prop :=
  ∀ x : Number, x.Unsigned → ∃ spelling,
    (numeral x = .integer spelling ∨ numeral x = .float spelling) ∧ Parser.numberValue spelling = x

/-- There is such a token for each of them. -/
theorem spells_spelling : Spells fun x => .float x.spelling :=
  fun x hx => ⟨x.spelling, .inr rfl, Parser.numberValue_spelling hx⟩

/-- Being the same expression, at whatever lines and places. -/
inductive Matches : Expr → Expr → Prop where
  | name {n m : Name} (h : n.text = m.text) : Matches (.name n) (.name m)
  | const {l l' : Nat} (v : Constant) : Matches (.const l v) (.const l' v)
  | list {l l' : Nat} {es es' : List Expr} (h : List.Forall₂ Matches es es') : Matches (.list l es) (.list l' es')
  | tuple {l l' : Nat} {es es' : List Expr} (h : List.Forall₂ Matches es es') : Matches (.tuple l es) (.tuple l' es')
  | dict {l l' : Nat} {ps ps' : List (Expr × Expr)} (hk : List.Forall₂ Matches (ps.map (·.1)) (ps'.map (·.1)))
    (hv : List.Forall₂ Matches (ps.map (·.2)) (ps'.map (·.2))) : Matches (.dict l ps) (.dict l' ps')
  | member {l l' : Nat} {t t' : Expr} {attr : Text} (h : Matches t t') : Matches (.member l t attr) (.member l' t' attr)
  | item {l l' : Nat} {t t' k k' : Expr} (ht : Matches t t') (hk : Matches k k') : Matches (.item l t k) (.item l' t' k')
  | slice {l l' : Nat} {t t' : Expr} {a a' b b' c c' : Option Expr} (ht : Matches t t') (ha : Option.Rel Matches a a')
    (hb : Option.Rel Matches b b') (hc : Option.Rel Matches c c') : Matches (.slice l t a b c) (.slice l' t' a' b' c')
  | call {l l' : Nat} {c c' : Expr} {args args' : List Expr} {named named' : List (Text × Expr)} (hc : Matches c c')
    (ha : List.Forall₂ Matches args args') (hw : named.map (·.1) = named'.map (·.1))
    (hn : List.Forall₂ Matches (named.map (·.2)) (named'.map (·.2))) :
    Matches (.call l c args named) (.call l' c' args' named')
  | filter {l l' : Nat} {t t' : Expr} {f : Text} {args args' : List Expr} {named named' : List (Text × Expr)}
    (ht : Matches t t') (ha : List.Forall₂ Matches args args') (hw : named.map (·.1) = named'.map (·.1))
    (hn : List.Forall₂ Matches (named.map (·.2)) (named'.map (·.2))) :
    Matches (.filter l t f args named) (.filter l' t' f args' named')
  | test {l l' : Nat} {t t' : Expr} {f : Text} {args args' : List Expr} {named named' : List (Text × Expr)}
    {negated : Bool} (ht : Matches t t') (ha : List.Forall₂ Matches args args')
    (hw : named.map (·.1) = named'.map (·.1)) (hn : List.Forall₂ Matches (named.map (·.2)) (named'.map (·.2))) :
    Matches (.test l t f args named negated) (.test l' t' f args' named' negated)
  | not {l l' : Nat} {e e' : Expr} (h : Matches e e') : Matches (.not l e) (.not l' e')
  | signed {l l' : Nat} {sign : Sign} {e e' : Expr} (h : Matches e e') : Matches (.signed l sign e) (.signed l' sign e')
  | binary {l l' : Nat} {op : BinaryOp} {a a' b b' : Expr} (ha : Matches a a') (hb : Matches b b') :
    Matches (.binary l op a b) (.binary l' op a' b')
  | logical {l l' : Nat} {op : LogicalOp} {a a' b b' : Expr} (ha : Matches a a') (hb : Matches b b') :
    Matches (.logical l op a b) (.logical l' op a' b')
  | compare {l l' : Nat} {e e' : Expr} {rest rest' : List (CompareOp × Expr)} (he : Matches e e')
    (ho : rest.map (·.1) = rest'.map (·.1)) (hr : List.Forall₂ Matches (rest.map (·.2)) (rest'.map (·.2))) :
    Matches (.compare l e rest) (.compare l' e' rest')
  | cond {l l' : Nat} {v v' t t' : Expr} {o o' : Option Expr} (hv : Matches v v') (ht : Matches t t')
    (ho : Option.Rel Matches o o') : Matches (.cond l v t o) (.cond l' v' t' o')

end Expr

namespace TokenKind

/-- Whether an expression may start with a token. -/
def starts : TokenKind → Bool
  | name _ | string _ | integer _ | float _ => true
  | operator .leftParen | operator .leftBracket | operator .leftBrace | operator .plus | operator .minus => true
  | _ => false

/-- The tightest level at which a token that follows an expression would go on with it, and one more. -/
def pull : TokenKind → Nat
  | string _ | operator .assign => 12
  | operator .dot | operator .leftBracket | operator .leftParen => 11
  | operator .pipe => 10
  | operator .power => 9
  | operator .times | operator .divide | operator .floorDiv | operator .modulo => 8
  | operator .tilde => 7
  | operator .plus | operator .minus => 6
  | operator .equal | operator .notEqual | operator .less | operator .greater | operator .lessEqual
  | operator .greaterEqual => 5
  | name word =>
    if word = "is" then 10
    else if word = "in" ∨ word = "not" then 5
    else if word = "and" then 3
    else if word = "or" then 2
    else if word = "if" ∨ word = "else" then 1
    else 0
  | _ => 0

end TokenKind

namespace Expr

/-- What follows does not go on with an expression of a level. -/
def Ends (least : Nat) (follow : List TokenKind) : Prop := (follow.headD .eof).pull ≤ least

theorem Ends.mono {m n : Nat} {follow : List TokenKind} (h : Ends m follow) (hle : m ≤ n) : Ends n follow :=
  Nat.le_trans h hle

theorem Ends.ne {least : Nat} {follow : List TokenKind} {k : TokenKind} (h : Ends least follow) (hk : least < k.pull) :
    follow.headD .eof ≠ k := by
  rintro rfl
  exact Nat.not_le_of_lt hk h

/-- How the tokens of an expression start: not with `not` where it is held tighter than that, nor with a sign at
the tightest level; and never like an argument by keyword. -/
def Opens (least : Nat) (ks : List TokenKind) : Prop :=
  ∃ k rest, ks = k :: rest ∧ k.starts ∧ (4 ≤ least → k ≠ .name "not") ∧
    (10 ≤ least → k ≠ .operator .plus ∧ k ≠ .operator .minus) ∧ rest.head? ≠ some (.operator .assign)

/-- The tokens start like an expression or an argument by keyword. -/
def Begins (ks : List TokenKind) : Prop := ∃ k rest, ks = k :: rest ∧ k.starts

variable {least m : Nat} {ks more : List TokenKind}

theorem Opens.begins (h : Opens least ks) : Begins ks := by
  obtain ⟨k, rest, hks, hk, -⟩ := h
  exact ⟨k, rest, hks, hk⟩

theorem Opens.mono (h : Opens m ks) (hle : least ≤ m) : Opens least ks := by
  obtain ⟨k, rest, hks, hk, hnot, hsign, hassign⟩ := h
  exact ⟨k, rest, hks, hk, fun h => hnot (by omega), fun h => hsign (by omega), hassign⟩

theorem Opens.append (h : Opens least ks) (hmore : more.head? ≠ some (.operator .assign)) :
    Opens least (ks ++ more) := by
  obtain ⟨k, rest, rfl, hk, hnot, hsign, hassign⟩ := h
  refine ⟨k, rest ++ more, rfl, hk, hnot, hsign, ?_⟩
  cases rest with
  | nil => exact hmore
  | cons k' rest => exact hassign

theorem Opens.single {k : TokenKind} (hstart : k.starts) (hnot : k ≠ .name "not") (hplus : k ≠ .operator .plus)
    (hminus : k ≠ .operator .minus) : Opens least [k] :=
  ⟨k, [], rfl, hstart, fun _ => hnot, fun _ => ⟨hplus, hminus⟩, by simp⟩

theorem Opens.word {word : Text} (h : word ≠ "not") : Opens least [.name word] :=
  .single rfl (fun hname => h (TokenKind.name.inj hname)) nofun nofun

theorem Begins.head?_ne (h : Begins ks) (more : List TokenKind) : (ks ++ more).head? ≠ some (.operator .assign) := by
  obtain ⟨k, rest, rfl, hk⟩ := h
  rintro heq
  obtain rfl : k = .operator .assign := by simpa using heq
  exact nomatch hk

theorem separated_head?_ne {pieces : List (List TokenKind)} (h : ∀ piece ∈ pieces, Begins piece)
    (hmore : more.head? ≠ some (.operator .assign)) : (separated pieces ++ more).head? ≠ some (.operator .assign) := by
  cases pieces with
  | nil => exact hmore
  | cons piece rest =>
    rw [separated, List.append_assoc]
    exact (h piece List.mem_cons_self).head?_ne _

theorem opens_wrapped (least : Nat) (h : Begins ks) :
    Opens least (.operator .leftParen :: ks ++ [.operator .rightParen]) :=
  ⟨_, ks ++ [.operator .rightParen], rfl, rfl, by simp, by simp, h.head?_ne _⟩

theorem opens_held {e : Expr} (least : Nat) (h : Opens e.level ks) : Opens least (held least e ks) := by
  unfold held
  split
  · exact opens_wrapped least h.begins
  · exact h.mono (by omega)

section

variable {numeral : Number → TokenKind} {dialect : Dialect} {e : Expr}

theorem items_eq_map (es : List Expr) : spell.items numeral es = es.map (spell numeral) := by
  induction es with
  | nil => rfl
  | cons e es ih => simp [spell.items, ih]

theorem entries_eq_map (ps : List (Expr × Expr)) : spell.entries numeral ps =
    ps.map fun p => p.1.spell numeral ++ .operator .colon :: p.2.spell numeral := by
  induction ps with
  | nil => rfl
  | cons p ps ih => simp [spell.entries, ih]

theorem keywords_eq_map (ps : List (Text × Expr)) : spell.keywords numeral ps =
    ps.map fun p => .name p.1 :: .operator .assign :: p.2.spell numeral := by
  induction ps with
  | nil => rfl
  | cons p ps ih => simp [spell.keywords, ih]

theorem Printable.part (h : e.Printable dialect) {p : Expr} (hp : p ∈ e.parts) : p.Printable dialect :=
  fun x hx => h x (.part hp hx)

theorem Printable.of_parts (h : e.Writable dialect) (hparts : ∀ p ∈ e.parts, p.Printable dialect) :
    e.Printable dialect := by
  rintro x (_ | ⟨hp, hx⟩)
  · exact h
  · exact hparts _ hp x hx

theorem Printable.self (h : e.Printable dialect) : e.Writable dialect := h e .whole

/-- The tokens of an expression start as its level tells. -/
theorem opens_spell (hn : Spells numeral) (e : Expr) (he : e.Printable dialect) : Opens e.level (e.spell numeral) := by
  have opens : ∀ p ∈ e.parts, Opens p.level (p.spell numeral) := fun p hp => opens_spell hn p (he.part hp)
  have part : ∀ p ∈ e.parts, ∀ least, Opens least (held least p (p.spell numeral)) :=
    fun p hp least => opens_held least (opens p hp)
  have begins : ∀ p ∈ e.parts, Begins (p.spell numeral) := fun p hp => (opens p hp).begins
  -- what stands behind the first token of brackets does not start like an argument by keyword
  have bracket : ∀ (op : Operator) (pieces : List (List TokenKind)) (close : Operator) (least : Nat),
      (TokenKind.operator op).starts → op ≠ .plus → op ≠ .minus → (∀ piece ∈ pieces, Begins piece) →
      close ≠ .assign →
      Opens least (.operator op :: separated pieces ++ [.operator close]) := by
    intro op pieces close least hop hplus hminus hpieces hclose
    refine ⟨_, _, rfl, hop, by simp, by simp [hplus, hminus], separated_head?_ne hpieces ?_⟩
    simpa using hclose
  cases e with
  | name n =>
    have hword : n.text ∉ reservedWords := he.self
    refine .word fun hnot => hword ?_
    rw [hnot]
    decide
  | const l v =>
    change Opens 10 [v.kind numeral]
    cases v with
    | none => exact .word (by decide)
    | bool b => cases b <;> exact .word (by decide)
    | text t => exact .single rfl nofun nofun nofun
    | number x =>
      rw [Constant.kind]
      obtain ⟨spelling, h | h, -⟩ := hn x he.self
      · rw [h]
        exact .single rfl nofun nofun nofun
      · rw [h]
        exact .single rfl nofun nofun nofun
  | list l es =>
    refine bracket .leftBracket _ .rightBracket 10 rfl (by simp) (by simp) ?_ (by simp)
    simpa [items_eq_map, parts] using begins
  | dict l ps =>
    refine bracket .leftBrace _ .rightBrace 10 rfl (by simp) (by simp) ?_ (by simp)
    rw [entries_eq_map]
    rintro piece hpiece
    obtain ⟨p, hp, rfl⟩ := List.mem_map.mp hpiece
    obtain ⟨k, rest, hks, hk⟩ := begins p.1 (List.mem_flatMap.mpr ⟨p, hp, List.mem_cons_self⟩)
    exact ⟨k, rest ++ _, by rw [hks]; rfl, hk⟩
  | tuple l es =>
    have hpieces : ∀ piece ∈ spell.items numeral es, Begins piece := by simpa [items_eq_map, parts] using begins
    have hhead : (tupled (spell.items numeral es) ++ [TokenKind.operator .rightParen]).head? ≠
        some (.operator .assign) := by
      unfold tupled
      split
      · rename_i piece heq
        rw [List.append_assoc]
        exact (hpieces piece (by simp [heq])).head?_ne _
      · exact separated_head?_ne hpieces (by simp)
    exact ⟨_, _, rfl, rfl, by simp, by simp, hhead⟩
  | member l t attr => exact (part t (by simp [parts]) 10).append (by simp)
  | item l t key =>
    rw [spell, List.append_assoc]
    exact (part t (by simp [parts]) 10).append (by simp)
  | slice l t start stop step =>
    simp only [spell, List.append_assoc, List.cons_append]
    exact (part t (by simp [parts]) 10).append (by simp)
  | call l c args named =>
    rw [spell, List.append_assoc]
    exact (part c (by simp [parts]) 10).append (by simp)
  | filter l t f args named =>
    rw [spell, List.append_assoc]
    exact (part t (by simp [parts]) 9).append (by simp)
  | test l t f args named negated =>
    simp only [spell, List.append_assoc, List.cons_append]
    exact (part t (by simp [parts]) 9).append (by simp)
  | not l e =>
    obtain ⟨k, rest, hks, hk⟩ := (part e (by simp [parts]) 3).begins
    refine ⟨_, _, rfl, rfl, by simp [level], by simp, ?_⟩
    simpa using (part e (by simp [parts]) 3).begins.head?_ne []
  | signed l sign e =>
    have hrest := (part e (by simp [parts]) e.operandLevel).begins.head?_ne []
    rw [List.append_nil] at hrest
    cases sign <;> exact ⟨_, _, rfl, rfl, by simp, by simp [level], hrest⟩
  | binary l op a b => exact (part a (by simp [parts]) op.level).append (by cases op <;> simp [BinaryOp.operator])
  | logical l op a b => exact (part a (by simp [parts]) op.level).append (by simp)
  | compare l first rest =>
    refine ((part first (by simp [parts]) 5).append ?_).mono (by simp [level])
    cases rest with
    | nil => simp [spell.comparisons]
    | cons p rest =>
      obtain ⟨op, e⟩ := p
      cases op <;> simp [spell.comparisons, CompareOp.kinds]
  | cond l v t otherwise =>
    rw [spell, List.append_assoc]
    exact ((part v (by simp [parts]) 1).append (by simp)).mono (by simp [level])
termination_by sizeOf e
decreasing_by exact sizeOf_lt_of_mem_parts hp

end

end Expr
end Stencil
