import Stencil.Yaml.Lexer
import Stencil.Yaml.Meaning
import Stencil.Yaml.Outline

/-!
YAML documents. A source holds one document at most, with directives in front of it.
-/

namespace Stencil.Yaml

/-- The handles after a directive. Directives that are not known change nothing. -/
def declareDirective (hs : Handles) (line : Text) : Except Problem Handles :=
  let isVersion (t : Text) : Bool :=
    match Text.splitAtUnit? '.' t with
    | some (major, minor) =>
      !major.isEmpty && !minor.isEmpty && major.all CodeUnit.isDigit && minor.all CodeUnit.isDigit
    | none => false
  let spaced := line.trim.map fun (u : CodeUnit) => if u = '\t' then CodeUnit.ofChar ' ' else u
  let words := (Text.splitOn " " spaced).filter (!·.isEmpty)
  match words with
  | [] => .ok hs
  | name :: arguments =>
    if name = "%TAG" then
      match arguments with
      | [handle, start] => .ok (hs.declare handle start)
      | _ => .error (.directive line)
    else if name = "%YAML" then
      match arguments with
      | [version] => if isVersion version then .ok hs else .error (.directive line)
      | _ => .error (.directive line)
    else .ok hs

/-- The node of a document, and whether a document mark is in front of it. -/
def documentNode (hs : Handles) (start : Array Token) (value : Option Tree) (tail : Array Token) :
    Except Problem (Node × Bool) := do
  let l ← Lead.ofTokens ⟨.documentStart, .ofKey value (some tail), false, 0, true⟩ start
  if l.mark.isSome && value.any Tree.isBlockCollection && !l.hasBreak then throw .missingLineBreak
  let n ← match value with
    | some t => t.node hs true l
    | none => l.emptyNode hs
  let _ ← tailComment [] [] true tail.toList
  return (n, l.mark.isSome)

/-- The parts of a source so far: the handles, whether a directive came last, and the document. -/
structure Reading where
  handles : Handles
  afterDirective : Bool
  document : Option (Handles × Node)

def Reading.add (r : Reading) : Part → Except Problem Reading
  | .directive line => return { r with handles := ← declareDirective r.handles line, afterDirective := true }
  | .document start value tail => do
    if r.document.isSome then throw .severalDocuments
    let (n, marked) ← documentNode r.handles start value tail
    if r.afterDirective && !marked then throw .missingDocumentStart
    return { r with afterDirective := false, document := some (r.handles, n) }
  | .documentEnd tail => do
    if r.document.isNone then throw .documentEnd
    let _ ← tailComment [] [] false tail.toList
    return r

/-- The value that a YAML document describes. -/
def parse (source : Text) : Except Problem Datum := do
  let r ← (← parts (← lexemes source)).foldlM Reading.add ⟨.standard, false, none⟩
  match r.document with
  | some (hs, n) => return (← (n.datum hs).run #[]).1.1
  | none => if r.afterDirective then throw .missingDocumentStart else return .none

end Stencil.Yaml
