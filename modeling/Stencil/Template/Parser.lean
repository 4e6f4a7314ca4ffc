import Stencil.Number.Read
import Stencil.Template.SyntaxError
import Stencil.Template.Tree

/-!
Reading a tree from tokens. Every production of the grammar is a plain definition over `nested`, the
parser of what stands deeper; the knot is tied at the end, on the number of tokens, because
something nested is only read after a token.
-/

namespace Stencil

/-- What a template may use: the statement that performs an expression, and the known filters and tests. -/
structure Dialect where
  performs : Bool
  filters : List Text
  tests : List Text

namespace Parser

/-- The tokens ahead, and the number of all tokens. `work` counts the rounds of loops and the nested
productions so far; nothing depends on it. -/
structure State where
  rest : List Token
  total : Nat
  work : Nat
deriving Repr

end Parser

abbrev Parser := EStateM Unreadable Parser.State

namespace Parser

/-- A production that may stand inside another. -/
inductive Entry where
  /-- The inside of parentheses: an expression or a tuple, which may be empty. -/
  | parenthesized
  /-- An expression. -/
  | conditional
  /-- What follows the word `not`. -/
  | negation
  /-- What follows a sign. -/
  | signed
deriving DecidableEq, Repr

def State.current (s : State) : Token := s.rest.headD ⟨.eof, 1, 0⟩

def current : Parser Token := return (← get).current

/-- The token after the current one. -/
def following : Parser Token := return ((← get).rest.drop 1).headD (← get).current

/-- Passes over the current token and gives it back; the end stays. -/
def next : Parser Token := do
  let s ← get
  if s.current.kind = .eof then return s.current
  set { s with rest := s.rest.drop 1 }
  return s.current

def tick : Parser Unit := modify fun s => { s with work := s.work + 1 }

def failAt {α : Type} (line : Nat) (cause : SyntaxCause) : Parser α :=
  throw (.malformed ⟨cause, line⟩)

def fail {α : Type} (cause : SyntaxCause) : Parser α := do failAt (← current).line cause

def sees (kind : TokenKind) : Parser Bool := return (← current).kind = kind

def seesWord (word : String) : Parser Bool := sees (.name word)

def seesOp (op : Operator) : Parser Bool := sees (.operator op)

def skipIf (kind : TokenKind) : Parser Bool := do
  if ← sees kind then
    let _ ← next
    return true
  return false

def skipWord (word : String) : Parser Bool := skipIf (.name word)

def expectOp (op : Operator) : Parser Token := do
  if ← seesOp op then next else fail (.expected s!"'{op.symbol}'" (← current).kind)

def expectWord (word : String) : Parser Token := do
  if ← seesWord word then next else fail (.expected s!"'{word}'" (← current).kind)

def expectTagEnd (tag : TagKind) : Parser Unit := do
  if ← sees (.tagEnd tag) then
    let _ ← next
  else
    let wanted := match tag with
      | .output => "variable end"
      | .statement => "block end"
    fail (.expected wanted (← current).kind)

/-- A name token, with its word. -/
def expectName : Parser Name := do
  let token ← current
  match token.kind with
  | .name word =>
    let _ ← next
    return ⟨word, token.line, token.offset⟩
  | found => fail (.expected "name" found)

/-- Repeats a step until it is done. -/
def iterate {α β : Type} (step : α → Parser (α ⊕ β)) : Nat → α → Parser β
  | 0, _ => throw .exhausted
  | fuel + 1, a => do
    tick
    match ← step a with
    | .inl a => iterate step fuel a
    | .inr b => return b

/-- Repeats a step that passes over a token each time, except when it is done. -/
def repeating {α β : Type} (step : α → Parser (α ⊕ β)) (a : α) : Parser β := do
  iterate step ((← get).total + 1) a

/-- Items between an opening bracket that was read and a closing one, separated by commas; a comma
may stand after the last. -/
def bracketed {α : Type} (close : Operator) (item : List α → Parser α) : Parser (List α) := do
  let items ← repeating (fun (items : List α) => do
    if ← seesOp close then return .inr items.reverse
    if !items.isEmpty then
      let _ ← expectOp .comma
      if ← seesOp close then return .inr items.reverse
    return .inl ((← item items) :: items)) []
  let _ ← expectOp close
  return items

/-- Operands joined by operators of one level, grouped to the left. -/
def chain (operand : Parser Expr) (operator? : TokenKind → Option (Nat → Expr → Expr → Expr)) :
    Parser Expr := do
  let line := (← current).line
  let first ← operand
  repeating (fun left => do
    match operator? (← current).kind with
    | none => return .inr left
    | some combine =>
      let _ ← next
      return .inl (combine line left (← operand))) first

/-- The value of a number token; underscores in it say nothing. -/
def numberValue (spelling : Text) : Number :=
  (Number.ofText? (spelling.filter (· != ('_' : CodeUnit)))).getD .nan

/-- The constant that a word names. -/
def constantWord? (word : Text) : Option Constant :=
  if word = "true" || word = "True" then some (.bool true)
  else if word = "false" || word = "False" then some (.bool false)
  else if word = "none" || word = "None" then some .none
  else none

section

variable (dialect : Dialect) (nested : Entry → Parser Expr)

/-- String tokens ahead, joined to one text. -/
def stringRun (first : Text) : Parser Text :=
  repeating (fun (value : Text) => do
    match (← current).kind with
    | .string more =>
      let _ ← next
      return .inl (value ++ more)
    | _ => return .inr value) first

/-- A name, a constant, or something in brackets. -/
def primary : Parser Expr := do
  let token ← current
  let line := token.line
  match token.kind with
  | .name word =>
    let _ ← next
    match constantWord? word with
    | some value => return .const line value
    | none => return .name ⟨word, line, token.offset⟩
  | .string value =>
    let _ ← next
    return .const line (.text (← stringRun value))
  | .integer spelling | .float spelling =>
    let _ ← next
    return .const line (.number (numberValue spelling))
  | .operator .leftParen =>
    let _ ← next
    let inner ← nested .parenthesized
    let _ ← expectOp .rightParen
    return inner
  | .operator .leftBracket =>
    let _ ← next
    return .list line (← bracketed .rightBracket fun _ => nested .conditional)
  | .operator .leftBrace =>
    let _ ← next
    return .dict line (← bracketed .rightBrace fun _ => do
      let key ← nested .conditional
      let _ ← expectOp .colon
      return (key, ← nested .conditional))
  | found => fail (.unexpected found)

/-- One argument of a call: positional, or with the keyword it is given by. -/
def argument (earlier : List (Option Text × Expr)) : Parser (Option Text × Expr) := do
  let token ← current
  match token.kind, (← following).kind with
  | .name word, .operator .assign =>
    let _ ← next
    let _ ← next
    return (some word, ← nested .conditional)
  | _, _ =>
    if earlier.any (·.1.isSome) then fail .positionalAfterKeyword
    return (none, ← nested .conditional)

/-- Arguments in parentheses: the positional ones and those by keyword. -/
def arguments : Parser (List Expr × List (Text × Expr)) := do
  let _ ← expectOp .leftParen
  let all ← bracketed .rightParen (argument nested)
  return (all.filterMap fun (word, e) => if word.isNone then some e else none,
    all.filterMap fun (word, e) => word.map (·, e))

/-- Arguments that may be left out. -/
def optionalArguments : Parser (List Expr × List (Text × Expr)) := do
  if ← seesOp .leftParen then arguments nested else return ([], [])

def callOf (callee : Expr) : Parser Expr := do
  let line := (← current).line
  let (args, named) ← arguments nested
  return .call line callee args named

def sliceBound : Parser (Option Expr) := do
  if (← seesOp .rightBracket) || (← seesOp .colon) then return none
  return some (← nested .conditional)

/-- The inside of square brackets after `target`: a key, or the bounds of a slice. -/
def subscript (line : Nat) (target : Expr) : Parser Expr := do
  let start ← if ← seesOp .colon then pure none else some <$> nested .conditional
  if ← seesOp .colon then
    let _ ← next
    let stop ← sliceBound nested
    let step ← if ← skipIf (.operator .colon) then sliceBound nested else pure none
    return .slice line target start stop step
  match start with
  | some key => return .item line target key
  | none => return target

/-- The first bound of a slice, in front of its colon, or the key of an item. -/
def firstBound : Parser (Option Expr) := do
  if ← seesOp .colon then pure none else some <$> nested .conditional

/-- The last bound of a slice with the colon before it, which are left out together. -/
def lastBound : Parser (Option Expr) := do
  if ← skipIf (.operator .colon) then sliceBound nested else pure none

theorem subscript_eq (line : Nat) (target : Expr) : subscript nested line target = (do
    let start ← firstBound nested
    if ← seesOp .colon then
      let _ ← next
      let stop ← sliceBound nested
      let step ← lastBound nested
      return .slice line target start stop step
    match start with
    | some key => return .item line target key
    | none => return target) := by
  have hstep : ∀ start stop : Option Expr, (do
      let step ← if ← skipIf (.operator .colon) then sliceBound nested else pure none
      return .slice line target start stop step : Parser Expr) =
      lastBound nested >>= fun step => return .slice line target start stop step := by
    intro start stop
    unfold lastBound
    rw [bind_assoc]
    exact bind_congr fun colon => by cases colon <;> rfl
  unfold subscript firstBound
  simp only [bind_assoc]
  refine bind_congr fun colon => ?_
  cases colon
  all_goals
    refine bind_congr fun start => bind_congr fun second => ?_
    cases second
    · rfl
    · exact bind_congr fun _ => bind_congr fun stop => hstep start stop

/-- A member of `target` after a dot; an integer is a key, of the value its spelling has as it stands. -/
def memberOf (line : Nat) (target : Expr) : Parser Expr := do
  let token ← next
  match token.kind with
  | .name word => return .member line target word
  | .integer spelling =>
    return .item line target (.const token.line (.number ((Number.ofText? spelling).getD .nan)))
  | _ => failAt token.line .memberExpected

/-- Members, subscripts and calls after an expression. -/
def postfixed (first : Expr) : Parser Expr :=
  repeating (fun target => do
    let token ← current
    match token.kind with
    | .operator .dot =>
      let _ ← next
      return .inl (← memberOf token.line target)
    | .operator .leftBracket =>
      let _ ← next
      let e ← subscript nested token.line target
      let _ ← expectOp .rightBracket
      return .inl e
    | .operator .leftParen => return .inl (← callOf nested target)
    | _ => return .inr target) first

def filterOf (target : Expr) : Parser Expr := do
  let line := (← expectOp .pipe).line
  let name := (← expectName).text
  if !dialect.filters.contains name then failAt line (.unknownFilter name)
  let (args, named) ← optionalArguments nested
  return .filter line target name args named

/-- Words that end a test rather than start its argument. -/
def stopWords : List Text :=
  ["else", "or", "and", "not", "if", "in", "is"].map Text.ofString

/-- Whether a token starts the argument of a test without parentheses. -/
def startsBareArgument : TokenKind → Bool
  | .string _ | .integer _ | .float _ => true
  | .name word => !stopWords.contains word
  | _ => false

def testOf (target : Expr) : Parser Expr := do
  let line := (← expectWord "is").line
  let negated ← skipWord "not"
  let name := (← expectName).text
  if !dialect.tests.contains name then failAt line (.unknownTest name)
  let (args, named) ←
    if ← seesOp .leftParen then arguments nested
    else if startsBareArgument (← current).kind then do
      let e ← postfixed nested (← primary nested)
      pure ([e], [])
    else pure ([], [])
  return .test line target name args named negated

/-- Filters, tests and calls after an expression. -/
def filtered (first : Expr) : Parser Expr :=
  repeating (fun target => do
    if ← seesOp .pipe then return .inl (← filterOf dialect nested target)
    if ← seesWord "is" then return .inl (← testOf dialect nested target)
    if ← seesOp .leftParen then return .inl (← callOf nested target)
    return .inr target) first

/-- A sign with what it applies to, or a primary expression; then what follows it. -/
def unary (withFilter : Bool) : Parser Expr := do
  let token ← current
  let first ← match token.kind with
    | .operator .minus => do
      let _ ← next
      pure (Expr.signed token.line .minus (← nested .signed))
    | .operator .plus => do
      let _ ← next
      pure (Expr.signed token.line .plus (← nested .signed))
    | _ => primary nested
  let e ← postfixed nested first
  if withFilter then filtered dialect nested e else return e

def power : Parser Expr :=
  chain (unary dialect nested true) fun
    | .operator .power => some (Expr.binary · .pow)
    | _ => none

def product : Parser Expr :=
  chain (power dialect nested) fun
    | .operator .times => some (Expr.binary · .mul)
    | .operator .divide => some (Expr.binary · .div)
    | .operator .floorDiv => some (Expr.binary · .floorDiv)
    | .operator .modulo => some (Expr.binary · .mod)
    | _ => none

def concatenation : Parser Expr :=
  chain (product dialect nested) fun
    | .operator .tilde => some (Expr.binary · .concat)
    | _ => none

def sum : Parser Expr :=
  chain (concatenation dialect nested) fun
    | .operator .plus => some (Expr.binary · .add)
    | .operator .minus => some (Expr.binary · .sub)
    | _ => none

/-- The comparison ahead, which is passed over; `not in` takes two tokens. -/
def comparison? : Parser (Option CompareOp) := do
  let op? ← match (← current).kind, (← following).kind with
    | .operator .equal, _ => pure (some CompareOp.equal)
    | .operator .notEqual, _ => pure (some .notEqual)
    | .operator .less, _ => pure (some .less)
    | .operator .greater, _ => pure (some .greater)
    | .operator .lessEqual, _ => pure (some .lessEqual)
    | .operator .greaterEqual, _ => pure (some .greaterEqual)
    | .name word, .name word' =>
      if word = "in" then pure (some .isIn)
      else if word = "not" && word' = "in" then do
        let _ ← next
        pure (some .isNotIn)
      else pure none
    | .name word, _ => pure (if word = "in" then some .isIn else none)
    | _, _ => pure none
  if op?.isSome then
    let _ ← next
  return op?

def compared : Parser Expr := do
  let line := (← current).line
  let first ← sum dialect nested
  let rest ← repeating (fun (rest : List (CompareOp × Expr)) => do
    match ← comparison? with
    | none => return .inr rest.reverse
    | some op => return .inl ((op, ← sum dialect nested) :: rest)) []
  return if rest.isEmpty then first else .compare line first rest

def negated : Parser Expr := do
  let token ← current
  if ← skipWord "not" then return .not token.line (← nested .negation)
  compared dialect nested

def conjunction : Parser Expr :=
  chain (negated dialect nested) fun
    | .name word => if word = "and" then some (Expr.logical · .and) else none
    | _ => none

def disjunction : Parser Expr :=
  chain (conjunction dialect nested) fun
    | .name word => if word = "or" then some (Expr.logical · .or) else none
    | _ => none

def conditional : Parser Expr := do
  let line := (← current).line
  let first ← disjunction dialect nested
  repeating (fun value => do
    if ← skipWord "if" then
      let test ← disjunction dialect nested
      let otherwise ← if ← skipWord "else" then some <$> nested .conditional else pure none
      return .inl (.cond line value test otherwise)
    return .inr value) first

/-- Whether no further item of a tuple follows. -/
def tupleEnds (endWords : List Text) : TokenKind → Bool
  | .tagEnd _ | .eof | .operator .rightParen => true
  | .name word => endWords.contains word
  | _ => false

/-- One expression, or several with commas between and possibly after them. Only where parentheses
stand around it may it be empty. -/
def tuple (item : Parser Expr) (endWords : List Text) (parenthesized : Bool) : Parser Expr := do
  let line := (← current).line
  let (items, comma) ← repeating (fun (items : List Expr) => do
    if !items.isEmpty then
      let _ ← expectOp .comma
    if tupleEnds endWords (← current).kind then return .inr (items.reverse, !items.isEmpty)
    let e ← item
    if ← seesOp .comma then return .inl (e :: items)
    return .inr ((e :: items).reverse, !items.isEmpty)) []
  match comma, items with
  | false, e :: _ => return e
  | false, [] =>
    if !parenthesized then fail (.expressionExpected (← current).kind)
    return .tuple line []
  | true, items => return .tuple line items

/-- The production of an entry, over the parser of what is nested in it. -/
def production : Entry → Parser Expr
  | .parenthesized => tuple (conditional dialect nested) [] true
  | .conditional => conditional dialect nested
  | .negation => negated dialect nested
  | .signed => unary dialect nested false

end

/-- The production of an entry with at most `depth` levels below it. -/
def entryWithin (dialect : Dialect) : Nat → Entry → Parser Expr
  | 0, _ => throw .exhausted
  | depth + 1, entry => do
    tick
    production dialect (entryWithin dialect depth) entry

/-- The production of an entry. -/
def entry (dialect : Dialect) (e : Entry) : Parser Expr := do
  entryWithin dialect ((← get).total + 1) e

section

variable (dialect : Dialect) (body : List Text → Parser (List Stmt))

def nameOf : Expr → Parser Name
  | .name n => return n
  | e => failAt e.line (.notAssignable e.kindName)

/-- What an expression on the left of an assignment binds: one name, or a tuple of names. -/
def target (endWords : List Text) : Parser Target := do
  match ← tuple (primary (entry dialect)) endWords false with
  | .name n => return .name n
  | .tuple line items => return .tuple line (← items.mapM nameOf)
  | e => failAt e.line (.notAssignable e.kindName)

/-- The rest of a tag, and a body up to a tag that starts with one of `words`. -/
def bodyUntil (words : List String) : Parser (List Stmt) := do
  expectTagEnd .statement
  let stmts ← body (words.map Text.ofString)
  if ← sees .eof then fail (.bodyNotEnded words)
  return stmts

/-- A body that the last of its words ends. -/
def lastBody (word : String) : Parser (List Stmt) := do
  let stmts ← bodyUntil body [word]
  let _ ← next
  return stmts

def branches (line : Nat) : Parser Stmt :=
  repeating (fun (done : List (Expr × List Stmt)) => do
    let test ← tuple (disjunction dialect (entry dialect)) [] false
    let stmts ← bodyUntil body ["elif", "else", "endif"]
    let done := (test, stmts) :: done
    let word := (← next).kind
    if word = .name "elif" then return .inl done
    if word = .name "else" then return .inr (.branches line done.reverse (← lastBody body "endif"))
    return .inr (.branches line done.reverse [])) []

def loop (line : Nat) : Parser Stmt := do
  let target ← target dialect [Text.ofString "in"]
  let _ ← expectWord "in"
  let iter ← tuple (disjunction dialect (entry dialect)) [Text.ofString "if"] false
  let filter ← if ← skipWord "if" then some <$> conditional dialect (entry dialect) else pure none
  let stmts ← bodyUntil body ["endfor", "else"]
  let otherwise ← if (← next).kind = .name "else" then lastBody body "endfor" else pure []
  return .loop line target iter filter stmts otherwise

def assignment (line : Nat) : Parser Stmt := do
  let target ← target dialect []
  if ← skipIf (.operator .assign) then
    return .assign line target (← tuple (conditional dialect (entry dialect)) [] false)
  return .capture line target (← lastBody body "endset")

/-- Parameters in parentheses; after one with a default all must have one. -/
def parameters : Parser (List Name × List Expr) := do
  let _ ← expectOp .leftParen
  let (params, defaults) ← repeating (fun ((params, defaults) : List Name × List Expr) => do
    if ← seesOp .rightParen then return .inr (params.reverse, defaults.reverse)
    if !params.isEmpty then
      let _ ← expectOp .comma
    let param ← expectName
    if ← skipIf (.operator .assign) then
      return .inl (param :: params, (← conditional dialect (entry dialect)) :: defaults)
    if !defaults.isEmpty then fail .defaultBeforePlain
    return .inl (param :: params, defaults)) ([], [])
  let _ ← expectOp .rightParen
  return (params, defaults)

def definition (line : Nat) : Parser Stmt := do
  let name := (← expectName).text
  let (params, defaults) ← parameters dialect
  return .define line name params defaults (← lastBody body "endmacro")

/-- A statement, from its first word to the end of its last tag, that end not included. -/
def statement : Parser Stmt := do
  let token ← current
  match token.kind with
  | .name word =>
    let line := token.line
    if word = "if" then let _ ← next; branches dialect body line
    else if word = "for" then let _ ← next; loop dialect body line
    else if word = "set" then let _ ← next; assignment dialect body line
    else if word = "macro" then let _ ← next; definition dialect body line
    else if word = "do" && dialect.performs then
      let _ ← next
      return .perform line (← tuple (conditional dialect (entry dialect)) [] false)
    else fail (.unknownTag word)
  | _ => fail .tagNameExpected

/-- Text, output and statements up to the end, or up to a tag that starts with an end word. -/
def statements (endWords : List Text) : Parser (List Stmt) :=
  repeating (fun (done : List Stmt) => do
    let token ← current
    match token.kind with
    | .eof => return .inr done.reverse
    | .data text =>
      let _ ← next
      return .inl (.text token.line text :: done)
    | .tagBegin .output =>
      let _ ← next
      let e ← tuple (conditional dialect (entry dialect)) [] false
      expectTagEnd .output
      return .inl (.output token.line e :: done)
    | .tagBegin .statement =>
      let _ ← next
      match (← current).kind with
      | .name word => if endWords.contains word then return .inr done.reverse
      | _ => pure ()
      let stmt ← statement dialect body
      expectTagEnd .statement
      return .inl (stmt :: done)
    | found => fail (.unexpected found)) []

end

/-- A body with at most `depth` levels of bodies below it. -/
def bodyWithin (dialect : Dialect) : Nat → List Text → Parser (List Stmt)
  | 0, _ => throw .exhausted
  | depth + 1, endWords => do
    tick
    statements dialect (bodyWithin dialect depth) endWords

/-- The statements of a whole template. -/
def parse (dialect : Dialect) (tokens : List Token) : Except Unreadable (List Stmt) :=
  match (bodyWithin dialect (tokens.length + 1) []).run ⟨tokens, tokens.length, 0⟩ with
  | .ok stmts _ => .ok stmts
  | .error e _ => .error e

end Parser
end Stencil
