import Stencil.Yaml.Source
import Stencil.Yaml.Tree

/-!
What stands around a node: in front of it a mark, a tag, an anchor and comments, and behind it comments.
-/

namespace Stencil.Yaml

/-- What stands in front of a node. -/
structure Lead where
  mark : Option Token := none
  comma : Bool := false
  anchor : Option Token := none
  tag : Option Token := none
  comment : Text := []
  /-- Whether an empty line stands before the comment. -/
  gapBefore : Bool := false
  hasBreak : Bool := false
  /-- Where the last line break behind the tag or the anchor is. -/
  breakAfter : Option Nat := none

/-- What follows some tokens. -/
inductive Next where
  | nothing
  | tree (t : Tree)
  | token (t : Token)

namespace Next

def ofOption : Option Tree → Next
  | some t => tree t
  | none => nothing

/-- What follows the start of an item. -/
def ofKey (key : Option Tree) (separator : Option (Array Token)) : Next :=
  match key with
  | some t => tree t
  | none => match separator.bind (·[0]?) with
    | some t => token t
    | none => nothing

/-- Whether a tag or an anchor in front would have to be separated. -/
def needsSpace : Next → Bool
  | nothing => false
  | tree (.leaf t _) => t.kind != .content || !t.text.isEmpty
  | tree _ => true
  | token t => !(t.kind = .space || t.kind = .newline || t.kind = .comma)

def isFlow : Next → Bool
  | tree t => t.isFlow
  | _ => false

def isBlockCollection : Next → Bool
  | tree t => t.isBlockCollection
  | _ => false

end Next

/-- Where some tokens stand: the mark that belongs to them, and what follows. -/
structure LeadPlace where
  mark : Kind
  next : Next
  inFlow : Bool
  parentIndent : Nat
  lineStarts : Bool

/-- The text of a comment. -/
def commentText (t : Token) : Text := if t.text.length = 1 then [' '] else t.text.drop 1

namespace Lead

/-- The tokens so far. `breaks` are the line breaks behind the last comment, and `tab` is the last token
if it holds a tab. -/
structure State extends Lead where
  lineStarts : Bool
  hasSpace : Bool
  needsSpace : Bool
  tab : Option Token
  breaks : Text

def hasProperty (l : Lead) : Bool := l.anchor.isSome || l.tag.isSome

/-- Where the tag or the anchor is, whichever is first. -/
def propertyOffset? (l : Lead) : Option Nat :=
  match l.anchor, l.tag with
  | some a, some t => some (min a.offset t.offset)
  | some t, none | none, some t => some t.offset
  | none, none => none

/-- Whether no line break follows the last property. -/
def propertyEndsLine (l : Lead) : Bool :=
  let last := max ((l.anchor.map (·.offset)).getD 0) ((l.tag.map (·.offset)).getD 0)
  l.hasProperty && !l.breakAfter.any (last < ·)

def step (p : LeadPlace) (s : State) (t : Token) : Except Problem State := do
  if s.needsSpace && !(t.kind = .space || t.kind = .newline || t.kind = .comma) then throw .missingSpace
  if s.tab.isSome && s.lineStarts && t.kind != .comment && t.kind != .newline then throw .tabIndentation
  let s := { s with needsSpace := false, tab := none }
  match t.kind with
  | .space =>
    let checksTabs := !p.inFlow && (p.mark != .documentStart || !p.next.isFlow)
    return { s with hasSpace := true, tab := if checksTabs && t.text.contains '\t' then some t else none }
  | .comment =>
    if !s.hasSpace then throw .misplacedComment
    let comment := if s.comment.isEmpty then commentText t else s.comment ++ s.breaks ++ commentText t
    return { s with comment := comment, breaks := [], lineStarts := false }
  | .newline =>
    let empty := s.lineStarts && s.comment.isEmpty
    return { s with
      comment := if s.lineStarts && !empty then s.comment ++ t.text else s.comment
      gapBefore := s.gapBefore || (empty && (s.mark.isNone || p.mark != .itemMark))
      breaks := if s.lineStarts then s.breaks else s.breaks ++ t.text
      breakAfter := if s.hasProperty then some t.offset else s.breakAfter
      hasBreak := true, lineStarts := true, hasSpace := true }
  | .anchor =>
    if s.anchor.isSome then throw .repeatedProperty
    return { s with anchor := some t, lineStarts := false, hasSpace := false, needsSpace := true }
  | .tag =>
    if s.tag.isSome then throw .repeatedProperty
    return { s with tag := some t, lineStarts := false, hasSpace := false, needsSpace := true }
  | kind =>
    if kind = p.mark then
      if s.hasProperty then throw .misplacedProperty
      if s.mark.isSome then throw (.stray t.text)
      return { s with mark := some t, lineStarts := kind = .itemMark || kind = .keyMark, hasSpace := false }
    else if kind = .comma && p.inFlow && !s.comma then
      return { s with comma := true, lineStarts := false, hasSpace := false }
    else throw (.stray t.text)

/-- What some tokens say of the node behind them. -/
def ofTokens (p : LeadPlace) (tokens : Array Token) : Except Problem Lead := do
  let s ← tokens.foldlM (step p)
    { lineStarts := p.lineStarts, hasSpace := p.lineStarts, needsSpace := false, tab := none, breaks := [] }
  if s.needsSpace && p.next.needsSpace then throw .missingSpace
  if s.tab.any fun t => (s.lineStarts && t.indent ≤ p.parentIndent) || p.next.isBlockCollection then
    throw .tabIndentation
  return s.toLead

end Lead

/-- The comment among the tokens behind a node, which are white space and comments only. `breaks` are
the line breaks behind the comment so far. -/
def tailComment (comment breaks : Text) (hasSpace : Bool) : List Token → Except Problem Text
  | [] => .ok comment
  | t :: rest =>
    match t.kind with
    | .space => tailComment comment breaks true rest
    | .newline => tailComment comment (if comment.isEmpty then breaks else breaks ++ t.text) true rest
    | .comment =>
      if !hasSpace then .error .misplacedComment
      else if comment.isEmpty then tailComment (commentText t) [] hasSpace rest
      else tailComment (comment ++ breaks ++ commentText t) [] hasSpace rest
    | _ => .error (.stray t.text)

end Stencil.Yaml
