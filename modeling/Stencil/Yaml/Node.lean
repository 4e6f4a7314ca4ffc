import Stencil.Yaml.BlockScalar
import Stencil.Yaml.Tag

/-!
Nodes of YAML documents, and the nodes that trees of tokens describe.
-/

namespace Stencil.Yaml

/-- What belongs to a node beside its content: its anchor, the name of its tag, and the comments in front
of it and behind it. -/
structure Decoration where
  anchor : Option Text := none
  tag : Option Text := none
  before : Text := []
  comment : Text := []
  /-- Whether an empty line stands before the node. -/
  gapBefore : Bool := false
deriving DecidableEq, Repr

/-- A node. A pair without a value mark has no value. -/
inductive Node where
  | scalar (d : Decoration) (s : Scalar)
  | reference (d : Decoration) (name : Text)
  | mapping (d : Decoration) (pairs : List (Node × Option Node))
  | sequence (d : Decoration) (items : List Node)

abbrev Pair := Node × Option Node

/-- Two comments, of which one may be empty. -/
def joinComments (a b : Text) : Text :=
  if a.isEmpty then b else if b.isEmpty then a else a ++ ('\n' : CodeUnit) :: b

namespace Node

def decoration : Node → Decoration
  | scalar d _ | reference d _ | mapping d _ | sequence d _ => d

def mapDecoration (f : Decoration → Decoration) : Node → Node
  | scalar d s => scalar (f d) s
  | reference d name => reference (f d) name
  | mapping d pairs => mapping (f d) pairs
  | sequence d items => sequence (f d) items

def isCollection : Node → Bool
  | mapping _ _ | sequence _ _ => true
  | _ => false

def isScalar : Node → Bool
  | scalar _ _ => true
  | _ => false

def addComment (comment : Text) (n : Node) : Node :=
  n.mapDecoration fun d => { d with comment := joinComments d.comment comment }

/-- Whether two keys are scalars of one value. Zeros are equal, and a number that is none equals nothing. -/
def sameKey : Node → Node → Bool
  | scalar _ a, scalar _ b =>
    match a.value, b.value with
    | .none, .none => true
    | .bool x, .bool y => x == y
    | .number x, .number y => x.eq y
    | .text s, .text t => s == t
    | _, _ => false
  | _, _ => false

end Node

namespace Lead

def anchorName? (l : Lead) : Except Problem (Option Text) :=
  match l.anchor.map (·.text.drop 1) with
  | some [] => .error .emptyName
  | name => .ok name

def tagName? (l : Lead) (hs : Handles) : Except Problem (Option Text) :=
  match l.tag with
  | some t => some <$> hs.nameOf t.text
  | none => .ok none

/-- The decoration of a node. A tag without a name of its own names the kind of a collection. -/
def decoration (l : Lead) (hs : Handles) (kind : Option Text) : Except Problem Decoration := do
  let tag ← l.tagName? hs
  return {
    anchor := ← l.anchorName?
    tag := if tag = some (Text.ofString "!") && kind.isSome then kind else tag
    before := l.comment
    gapBefore := l.gapBefore }

/-- The node of what is not written; a comment stands behind it. -/
def emptyNode (l : Lead) (hs : Handles) : Except Problem Node := do
  let d ← l.decoration hs none
  return .scalar { d with before := [], comment := d.before } (.of d.tag .plain [])

/-- The node of a reference or of a scalar that is no block. -/
def leafNode (l : Lead) (hs : Handles) (t : Token) (tail : Array Token) : Except Problem Node := do
  let comment ← tailComment [] [] false tail.toList
  let d ← l.decoration hs none
  if t.kind = .reference then
    if l.hasProperty then throw .referenceProperties
    if t.text.length = 1 then throw .emptyName
    return .reference { d with comment := comment } (t.text.drop 1)
  let style : Style := match t.kind with
    | .singleQuoted => .singleQuoted
    | .doubleQuoted => .doubleQuoted
    | _ => .plain
  let text ← contentOf style t.text
  let d := if t.text.isEmpty && !d.before.isEmpty then { d with before := [], comment := d.before }
    else { d with comment := comment }
  return .scalar d (.of d.tag style text)

def blockNode (l : Lead) (hs : Handles) (isRoot : Bool) (header : Array Token) (indent : Nat) (text : Text) :
    Except Problem Node := do
  let (h, comment) ← BlockHeader.ofTokens header.toList
  let d ← l.decoration hs none
  return .scalar { d with comment := comment } (.of d.tag .block (← blockValue h indent isRoot text))

end Lead

/-- The value mark of an implicit key is at most 1024 units behind the start of the key. -/
def checkKeyLength (l : Lead) (key : Option Tree) (mark : Token) : Except Problem Unit :=
  match l.propertyOffset? <|> key.bind Tree.offset? with
  | some start => if start + 1024 < mark.offset then .error .longKey else .ok ()
  | none => .ok ()

/-- Checks the key of a pair in a block mapping whose items are indented by `indent`. -/
def checkBlockKey (indent : Nat) (l : Lead) (key : Option Tree) : Except Problem Unit :=
  match l.mark with
  | some mark => if mark.indent = indent then .ok () else .error .indentation
  | none =>
    if key.any fun k => k.indent != indent then .error .indentation
    else if l.breakAfter.isSome || key.any Tree.isMultiline then .error .multilineKey
    else .ok ()

/-- Checks the value mark of a pair in a block mapping. -/
def checkBlockValue (l valueLead : Lead) (key value : Option Tree) : Except Problem Unit := do
  if l.mark.isNone then
    match valueLead.mark with
    | none => throw .missingValue
    | some mark =>
      let nested := match value with
        | some (.mapping _ _) => true
        | _ => false
      if nested && !valueLead.hasBreak then throw .nestedBlock
      checkKeyLength l key mark

/-- The comment behind a comma, which belongs to the item before it. -/
def previousComment (start : Array Token) : Text :=
  match start.toList.dropWhile fun t => t.kind = .comma || t.kind = .space with
  | t :: _ => if t.kind = .comment then t.text.drop 1 else []
  | [] => []

/-- Adds a comment to the latest item. -/
def commentLast (comment : Text) : List Node → List Node
  | n :: done => n.addComment comment :: done
  | [] => []

/-- Adds a comment to the value of the latest pair, or to its key. -/
def commentLastPair (comment : Text) : List Pair → List Pair
  | (key, some value) :: done => (key, some (value.addComment comment)) :: done
  | (key, none) :: done => (key.addComment comment, none) :: done
  | [] => []

/-- Items of a flow collection are separated by commas, one in front of each but the first. A comment
behind the comma is taken from what stands in front of the item. -/
def splitComma (l : Lead) (first : Bool) (start : Array Token) : Except Problem (Text × Lead) :=
  if first then if l.comma then .error .missingComma else .ok ([], l)
  else if !l.comma then .error .missingComma
  else
    let comment := previousComment start
    if comment.isEmpty then .ok ([], l) else .ok (comment, { l with comment := l.comment.drop (comment.length + 1) })

/-- Whether an item is white space and comments. Only the last of a flow collection may be. -/
def isEmptyItem (l : Lead) (separator : Option (Array Token)) (value : Option Tree) : Bool :=
  l.mark.isNone && !l.hasProperty && separator.isNone && value.isNone

/-- Checks an implicit pair in a flow sequence: its key is on one line with the value mark, and short. -/
def checkSequencePair (l valueLead : Lead) (key : Option Tree) (separator : Option (Array Token)) :
    Except Problem Unit := do
  if l.mark.isNone then
    if key.any Tree.isMultiline then throw .multilineKey
    if let some mark := valueLead.mark then
      if (separator.getD #[]).any fun t => t.kind = .newline && t.offset < mark.offset then throw .multilineKey
      checkKeyLength l key mark

mutual

/-- The node of a tree. `isRoot` holds for the node of a document. -/
def Tree.node (hs : Handles) (isRoot : Bool) (l : Lead) : Tree → Except Problem Node
  | .leaf t tail => l.leafNode hs t tail
  | .block header indent text => l.blockNode hs isRoot header indent text
  | .mapping indent items => do
    let d ← l.decoration hs (some Tag.mapping)
    let (pairs, comment) ← blockPairs hs indent [] [] none items
    return .mapping { d with comment := comment } pairs
  | .sequence indent items => do
    if l.propertyEndsLine then throw .missingLineBreak
    let d ← l.decoration hs (some Tag.sequence)
    let (nodes, comment) ← blockItems hs indent [] [] items
    return .sequence { d with comment := comment } nodes
  | .flow opening items tail => do
    let comment ← tailComment [] [] false (tail.toList.drop 1)
    if opening.kind = .mappingOpen then
      let d ← l.decoration hs (some Tag.mapping)
      let (pairs, inner) ← flowPairs hs true [] [] items
      return .mapping { d with comment := joinComments inner comment } pairs
    else
      let d ← l.decoration hs (some Tag.sequence)
      let (nodes, inner) ← flowItems hs true [] [] items
      return .sequence { d with comment := joinComments inner comment } nodes

/-- The node of a tree that may be missing. -/
def Tree.nodeOr (hs : Handles) (l : Lead) : Option Tree → Except Problem Node
  | some t => t.node hs false l
  | none => l.emptyNode hs

/-- The pairs of a block mapping behind `done`, which is backwards, and its comment. An item without a key
must not be followed by pairs only; `gap` says whether one came, and whether a pair came behind it. -/
def blockPairs (hs : Handles) (indent : Nat) (done : List Pair) (comment : Text) (gap : Option Bool) :
    List (Item Tree) → Except Problem (List Pair × Text)
  | [] => if gap = some true then .error .misplacedComment else .ok (done.reverse, comment)
  | ⟨start, _, key, separator, value⟩ :: rest => do
    let l ← Lead.ofTokens ⟨.keyMark, .ofKey key separator, false, indent, true⟩ start
    if l.mark.isNone && !l.hasProperty && separator.isNone then
      return ← blockPairs hs indent done (joinComments comment l.comment) (some false) rest
    let gap := gap.map fun _ => true
    checkBlockKey indent l key
    let keyNode ← Tree.nodeOr hs l key
    if done.any fun (k, _) => k.sameKey keyNode then throw .duplicateKey
    let startsLine := match key with
      | none | some (.block _ _ _) => true
      | _ => false
    let valueLead ← Lead.ofTokens ⟨.valueMark, .ofOption value, false, indent, startsLine⟩ (separator.getD #[])
    checkBlockValue l valueLead key value
    if valueLead.mark.isSome then
      let valueNode ← Tree.nodeOr hs valueLead value
      blockPairs hs indent ((keyNode, some valueNode) :: done) comment gap rest
    else blockPairs hs indent ((keyNode.addComment valueLead.comment, none) :: done) comment gap rest

/-- The items of a block sequence behind `done`, which is backwards, and its comment. -/
def blockItems (hs : Handles) (indent : Nat) (done : List Node) (comment : Text) :
    List (Item Tree) → Except Problem (List Node × Text)
  | [] => .ok (done.reverse, comment)
  | ⟨start, _, _, _, value⟩ :: rest => do
    let l ← Lead.ofTokens ⟨.itemMark, .ofOption value, false, indent, true⟩ start
    if l.mark.isNone && !l.hasProperty && value.isNone then
      blockItems hs indent done (if l.comment.isEmpty then comment else l.comment) rest
    else if l.mark.isNone then throw .missingMark
    else
      let node ← Tree.nodeOr hs l value
      blockItems hs indent (node :: done) comment rest

/-- The key and the value of an item in a flow collection. -/
def flowPair (hs : Handles) (l : Lead) (inSequence : Bool) : Item Tree → Except Problem Pair
  | ⟨_, _, key, separator, value⟩ => do
    let keyNode ← Tree.nodeOr hs l key
    let valueLead ← Lead.ofTokens ⟨.valueMark, .ofOption value, true, 0, false⟩ (separator.getD #[])
    if inSequence then checkSequencePair l valueLead key separator
    if valueLead.mark.isSome then return (keyNode, some (← Tree.nodeOr hs valueLead value))
    if value.isSome then throw .missingComma
    return (keyNode.addComment valueLead.comment, none)

/-- The pairs of a flow mapping behind `done`, which is backwards, and its comment. -/
def flowPairs (hs : Handles) (first : Bool) (done : List Pair) (comment : Text) :
    List (Item Tree) → Except Problem (List Pair × Text)
  | [] => .ok (done.reverse, comment)
  | it :: rest => do
    let l ← Lead.ofTokens ⟨.keyMark, .ofKey it.key it.separator, true, 0, false⟩ it.start
    if isEmptyItem l it.separator it.value then
      if (first && l.comma) || !rest.isEmpty then throw .missingComma
      return ← flowPairs hs false done (joinComments comment l.comment) rest
    let (previous, l) ← splitComma l first it.start
    let pair ← flowPair hs l false it
    if done.any fun (k, _) => k.sameKey pair.1 then throw .duplicateKey
    flowPairs hs false (pair :: commentLastPair previous done) comment rest

/-- The items of a flow sequence behind `done`, which is backwards, and its comment. A pair in it is a
mapping. -/
def flowItems (hs : Handles) (first : Bool) (done : List Node) (comment : Text) :
    List (Item Tree) → Except Problem (List Node × Text)
  | [] => .ok (done.reverse, comment)
  | it :: rest => do
    let l ← Lead.ofTokens ⟨.keyMark, .ofKey it.key it.separator, true, 0, false⟩ it.start
    if isEmptyItem l it.separator it.value then
      if (first && l.comma) || !rest.isEmpty then throw .missingComma
      return ← flowItems hs false done (joinComments comment l.comment) rest
    let (previous, l) ← splitComma l first it.start
    let done := commentLast previous done
    if it.separator.isNone && l.mark.isNone then
      let node ← flowValue hs l it
      flowItems hs false (node :: done) comment rest
    else
      let pair ← flowPair hs l true it
      flowItems hs false (.mapping {} [pair] :: done) comment rest

/-- The value of an item in a flow sequence that is no pair. -/
def flowValue (hs : Handles) (l : Lead) : Item Tree → Except Problem Node
  | ⟨_, _, _, _, value⟩ => Tree.nodeOr hs l value

end

end Stencil.Yaml
