import Stencil.Context
import Stencil.Render.Access

/-!
Replacement fields. A field in braces names a variable, may reach into it, and may ask for the quoted
form; doubled braces stand for themselves.
-/

namespace Stencil

/-- A step from a value into it. -/
inductive Step where
  | member (name : Text)
  | item (key : Text)
deriving DecidableEq, Repr

structure Field where
  /-- The text between the braces. -/
  source : Text
  name : Text
  steps : List Step
  quoted : Bool
deriving DecidableEq, Repr

/-- A part of a text with fields. A problem ends the text. -/
inductive Piece where
  | unit (u : CodeUnit)
  | field (f : Field)
  | problem (p : FieldProblem)
deriving DecidableEq, Repr

def openBrace : CodeUnit := '\x7b'

def closeBrace : CodeUnit := '\x7d'

namespace Field

/-- The identifier at the start of a text. -/
def identifier? : Text → Option Text
  | u :: rest => if u.isNameStart then some (u :: rest.takeWhile CodeUnit.isNamePart) else none
  | [] => none

/-- The step at the start of a text, and the text after it. -/
def step? : Text → Option (Step × Text)
  | u :: rest =>
    if u = '.' then (identifier? rest).map fun name => (.member name, rest.drop name.length)
    else if u = '[' then
      match Text.splitAtUnit? ']' rest with
      | some (key, after) => if key.isEmpty then none else some (.item key, after)
      | none => none
    else none
  | [] => none

/-- The steps that a text consists of; each takes at least one unit. -/
def steps? : Nat → Text → Option (List Step)
  | _, [] => some []
  | 0, _ => none
  | fuel + 1, t => do
    let (step, rest) ← step? t
    return step :: (← steps? fuel rest)

/-- The path of a field, and whether it asks for the quoted form. -/
def splitConversion (source : Text) : Except FieldProblem (Text × Bool) :=
  let formatted := match Text.splitAtUnit? ':' source with
    | some (before, _) => !before.contains ('!' : CodeUnit)
    | none => false
  if formatted then .error (.formatGiven source)
  else match Text.splitAtUnit? '!' source with
    | none => .ok (source, false)
    | some (path, flag) =>
      if flag = "s" then .ok (path, false)
      else if flag = "r" then .ok (path, true)
      else .error (.unknownConversion flag source)

/-- Reads the text between the braces of a field. -/
def parse (source : Text) : Except FieldProblem Field := do
  if source.contains openBrace then throw (.braceInside source)
  let (path, quoted) ← splitConversion source
  match path with
  | [] => throw (.positional source)
  | u :: _ =>
    if u.isDigit then throw (.positional source)
    match identifier? path with
    | none => throw (.invalidName path)
    | some name =>
      let rest := path.drop name.length
      match steps? rest.length rest with
      | some steps => return ⟨source, name, steps, quoted⟩
      | none => throw (.invalidName source)

/-- The value that a step leads to. Digits pick by number. -/
def take (v : Value) : Step → Eval Value
  | .member name => Eval.member v name
  | .item key =>
    if key.all CodeUnit.isDigit then Eval.item v (.number ((Number.ofText? key).getD .nan))
    else Eval.item v (.text key)

/-- The text that a field stands for in a context. -/
def substitute (context : Context) (f : Field) : Action Text := do
  match context.lookup f.name with
  | none => throw (.field (.missing f.name) none)
  | some v =>
    let v ← f.steps.foldlM (fun v step => do
      match ← Action.evaluate (take v step) with
      | .undefined _ => throw (.field (.unresolved f.source) none)
      | v => return v) v
    Action.evaluate (if f.quoted then Eval.repr v else Eval.display v)

end Field

namespace Piece

/-- The pieces of a text, from its unit at `offset` on. `skip` units belong to a piece that was
found. -/
def scan (offset : Nat) : Nat → Text → List Piece
  | _, [] => []
  | skip + 1, _ :: rest => scan (offset + 1) skip rest
  | 0, u :: rest =>
    let doubled := rest.head? = some u
    if u = openBrace then
      if doubled then .unit u :: scan (offset + 1) 1 rest
      else match Text.splitAtUnit? closeBrace rest with
        | none => [.problem (.stray u offset)]
        | some (source, _) => match Field.parse source with
          | .ok f => .field f :: scan (offset + 1) (source.length + 1) rest
          | .error p => [.problem p]
    else if u = closeBrace then
      if doubled then .unit u :: scan (offset + 1) 1 rest else [.problem (.stray u offset)]
    else .unit u :: scan (offset + 1) 0 rest

/-- The pieces of a text. -/
def ofText (t : Text) : List Piece := scan 0 0 t

/-- The text that a piece stands for in a context. -/
def expand (context : Context) (filename : Option Text) : Piece → Action Text
  | .unit u => return [u]
  | .field f => f.substitute context
  | .problem p => throw (.field p filename)

end Piece
end Stencil
