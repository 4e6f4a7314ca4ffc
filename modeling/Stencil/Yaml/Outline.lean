import Stencil.Yaml.Tree

/-!
Arranging tokens into trees by their indentation. What is not finished stands in a stack of frames, the
innermost first. A frame takes a token in, or is closed in front of it.
-/

namespace Stencil.Yaml

/-- A block collection that may get more items: its last item, and those before it, the latest first. -/
structure Growing where
  indent : Nat
  last : Item Tree
  before : List (Item Tree)

namespace Growing

def push (g : Growing) (it : Item Tree) : Growing := { g with last := it, before := g.last :: g.before }

def items (g : Growing) : List (Item Tree) := (g.last :: g.before).reverse

def mapLast (g : Growing) (f : Item Tree → Item Tree) : Growing := { g with last := f g.last }

/-- Whether a comment is indented deeper than the items, behind white space only. -/
def isIndentedComment (g : Growing) (t : Token) : Bool :=
  t.kind = .comment && g.indent < t.indent && g.last.start.all fun s => s.kind = .newline || s.kind = .space

/-- Takes in white space or a comment. Behind a value it starts the next item, but a line break behind a
comment belongs to the value, and so does an indented comment. -/
def addGap (g : Growing) (t : Token) : Growing :=
  match g.last.value with
  | some v =>
    if t.kind = .newline && v.endsInComment then g.mapLast ({ · with value := some (v.addTail #[t]) })
    else g.push (.ofToken t)
  | none =>
    match if g.last.separator.isNone && g.isIndentedComment t then g.before else [] with
    | previous :: before =>
      match previous.value.filter (·.tail?.isSome) with
      | some v => ⟨g.indent, { previous with value := some (v.addTail (g.last.start.push t)) }, before⟩
      | none => g.mapLast (·.push t)
    | [] => g.mapLast (·.push t)

/-- The collection without an item at its end that is white space, and the tokens of that item. Comments
that are indented like the items stay. -/
def splitGap (g : Growing) : List (Item Tree) × Array Token :=
  let it := g.last
  let moves := it.separator.isNone && it.value.isNone && !it.start.isEmpty && areGaps it.start &&
    (g.indent = 0 || it.start.all fun t => t.kind != .comment || t.indent < g.indent)
  if moves then (g.before.reverse, it.start) else (g.items, #[])

end Growing

/-- Something that was begun. -/
inductive Frame where
  | document (start : Array Token) (value : Option Tree) (tail : Array Token)
  | leaf (token : Token) (tail : Array Token)
  | block (header : Array Token)
  | mapping (g : Growing)
  | sequence (g : Growing)
  | flow (opening : Token) (items : List (Item Tree)) (tail : Array Token)
  | documentEnd (tail : Array Token)

/-- A finished part of a source. -/
inductive Part where
  | directive (text : Text)
  | document (start : Array Token) (value : Option Tree) (tail : Array Token)
  | documentEnd (tail : Array Token)

/-- The frames and the parts so far, the latest first. `lineStarts` holds before the first token of a line
that is no space, and `onKeyLine` in the line of an implicit key. -/
structure Outline where
  stack : List Frame
  parts : List Part
  indent : Nat
  lineStarts : Bool
  onKeyLine : Bool

/-- The tokens at the end that belong to a key, a value or an item which starts there: those after the
last mark or line break, without the spaces in front. -/
def splitProperties (tokens : Array Token) : Array Token × Array Token :=
  let isEdge (t : Token) : Bool :=
    t.kind = .documentStart || t.kind = .keyMark || t.kind = .valueMark || t.kind = .itemMark || t.kind = .newline
  let tail := (tokens.toList.reverse.takeWhile (!isEdge ·)).reverse.dropWhile (·.kind = .space)
  (tokens.extract 0 (tokens.size - tail.length), tail.toArray)

namespace Frame

/-- Takes the properties out of the end of a frame. -/
def splitProperties : Frame → Frame × Array Token
  | document start value tail =>
    let (kept, taken) := Yaml.splitProperties start
    (document kept value tail, taken)
  | mapping g =>
    match g.last.separator with
    | some separator =>
      let (kept, taken) := Yaml.splitProperties separator
      (mapping (g.mapLast ({ · with separator := some kept })), taken)
    | none =>
      let (kept, taken) := Yaml.splitProperties g.last.start
      (mapping (g.mapLast ({ · with start := kept })), taken)
  | sequence g =>
    let (kept, taken) := Yaml.splitProperties g.last.start
    (sequence (g.mapLast ({ · with start := kept })), taken)
  | f => (f, #[])

/-- The indentation from which a block scalar in a frame counts its own. -/
def indent : Frame → Nat
  | mapping g | sequence g => g.indent
  | _ => 0

def isFlow : Frame → Bool
  | flow _ _ _ => true
  | _ => false

end Frame

namespace Outline

abbrev Step := Except Problem Outline

/-- Puts a finished tree into the innermost frame. `gap` is white space that follows it. -/
def attach (o : Outline) (tree : Tree) (gap : Array Token) : Step :=
  match o.stack with
  | .document start _ tail :: outer => return { o with stack := .document start (some tree) (tail ++ gap) :: outer }
  | .mapping g :: outer =>
    let it := g.last
    if it.value.isSome then
      return { o with stack := .mapping (g.push (.ofKey #[] tree)) :: outer, onKeyLine := true }
    else if it.separator.isSome then
      let g := g.mapLast ({ · with value := some tree })
      return { o with stack := .mapping (if gap.isEmpty then g else g.push { start := gap }) :: outer }
    else
      let g := g.mapLast ({ · with key := some tree, separator := some #[] })
      return { o with stack := .mapping g :: outer, onKeyLine := !it.explicit }
  | .sequence g :: outer =>
    let g := if g.last.value.isSome then g.push { value := some tree } else g.mapLast ({ · with value := some tree })
    return { o with stack := .sequence (if gap.isEmpty then g else g.push { start := gap }) :: outer }
  | .flow opening items tail :: outer =>
    let items := match items with
      | it :: rest =>
        if it.value.isSome then .ofKey #[] tree :: items
        else if it.separator.isSome then { it with value := some tree } :: rest
        else { it with key := some tree, separator := some #[] } :: rest
      | [] => [.ofKey #[] tree]
    return { o with stack := .flow opening items tail :: outer }
  | _ => throw .exhausted

/-- Closes a block collection. White space at its end goes to the frame around it, unless the collection
is a key. -/
def closeGrowing (o : Outline) (build : List (Item Tree) → Tree) (g : Growing) : Step :=
  let isKey := match o.stack with
    | .mapping outer :: _ => outer.last.value.isSome || outer.last.separator.isNone
    | _ => false
  if isKey then o.attach (build g.items) #[]
  else
    let (items, gap) := g.splitGap
    o.attach (build items) gap

/-- Closes the innermost frame. -/
def close (o : Outline) : Step :=
  match o.stack with
  | [] => throw .exhausted
  | frame :: outer =>
    let o := { o with stack := outer }
    match frame with
    | .document start value tail => return { o with parts := .document start value tail :: o.parts }
    | .documentEnd tail => return { o with parts := .documentEnd tail :: o.parts }
    | .leaf token tail => o.attach (.leaf token tail) #[]
    | .block header => o.attach (.block header ((outer.head?.map Frame.indent).getD 0) []) #[]
    | .mapping g => o.closeGrowing (.mapping g.indent) g
    | .sequence g => o.closeGrowing (.sequence g.indent) g
    | .flow opening items tail =>
      if tail.isEmpty then throw .unclosedCollection else o.attach (.ofFlow opening items tail) #[]

/-- Opens a frame. -/
def push (o : Outline) (frame : Frame) : Outline := { o with stack := frame :: o.stack }

/-- Changes the innermost frame. -/
def replace (o : Outline) (frame : Frame) : Outline := { o with stack := frame :: o.stack.drop 1 }

/-- Opens a mapping that starts with an item. -/
def pushMapping (o : Outline) (indent : Nat) (it : Item Tree) : Outline := o.push (.mapping ⟨indent, it, []⟩)

/-- Opens what starts with a token, if something can; its properties are at the end of the innermost
frame. -/
def start? (o : Outline) (t : Token) : Option Outline :=
  match t.kind with
  | .blockHeader => some (o.push (.block #[t]))
  | .mappingOpen | .sequenceOpen => some (o.push (.flow t [] #[]))
  | .itemMark => some (o.push (.sequence ⟨t.indent, .ofToken t, []⟩))
  | .keyMark | .valueMark =>
    match o.stack with
    | [] => none
    | frame :: outer =>
      let (frame, start) := frame.splitProperties
      let it : Item Tree :=
        if t.kind = .keyMark then { start := start.push t, explicit := true } else .ofValueMark start t
      some ({ o with stack := frame :: outer, onKeyLine := true }.pushMapping t.indent it)
  | kind => if kind.isLeaf then some (o.push (.leaf t #[])) else none

/-- Adds a token behind a finished node, unless it closes the node. `tailed` is the outline with the
token. A line break closes the node behind it. -/
def endLine (t : Token) (tailed : Outline) : Except Problem (Option Outline) := do
  match t.kind with
  | .comma | .documentStart | .documentEnd | .sequenceClose | .mappingClose | .valueMark => return none
  | .newline => return some (← { tailed with onKeyLine := false }.close)
  | _ => return some tailed

/-- Between documents. -/
def betweenDocuments (o : Outline) (t : Token) : Step :=
  match t.kind with
  | .directive => return { o with parts := .directive t.text :: o.parts }
  | .byteOrderMark | .space | .comment | .newline => return o
  | .documentMode => return o.push (.document #[] none #[])
  | .documentStart => return o.push (.document #[t] none #[])
  | _ => throw (.stray t.text)

def inDocument (o : Outline) (start : Array Token) (value : Option Tree) (tail : Array Token) (t : Token) :
    Except Problem (Option Outline) := do
  if value.isSome then return ← endLine t (o.replace (.document start value (tail.push t)))
  let takes := match t.kind with
    | .documentStart => areGaps start
    | .anchor | .tag | .space | .comment | .newline => true
    | _ => false
  if takes then return some (o.replace (.document (start.push t) value tail))
  if t.kind = .documentStart then return none
  match o.start? t with
  | some o => return some o
  | none => throw (.stray t.text)

/-- A value mark behind a node makes it the key of a new mapping, which takes the properties in front of
the node. -/
def becomeKey (o : Outline) (key : Tree) (indent : Nat) (separator : Array Token) : Step :=
  match o.stack with
  | _ :: parent :: outer =>
    if parent.isFlow then throw .blockInFlow
    else
      let (parent, start) := parent.splitProperties
      let o := { o with stack := parent :: outer, onKeyLine := true }
      return o.pushMapping indent { start := start, key := some key, separator := some separator }
  | _ => throw .exhausted

def inLeaf (o : Outline) (token : Token) (tail : Array Token) (t : Token) : Except Problem (Option Outline) := do
  if t.kind = .valueMark then return some (← o.becomeKey (.leaf token #[]) token.indent (tail.push t))
  endLine t (o.replace (.leaf token (tail.push t)))

/-- The text of a block scalar ends it, at the start of a line. -/
def inBlock (o : Outline) (header : Array Token) (t : Token) : Except Problem (Option Outline) := do
  if t.kind.isGap then return some (o.replace (.block (header.push t)))
  if t.kind != .content then return none
  let outer := o.stack.drop 1
  let tree := .block header ((outer.head?.map Frame.indent).getD 0) t.text
  return some (← { o with stack := outer, lineStarts := true, indent := 0 }.attach tree #[])

/-- Where the second of the line breaks at the end of a separator is, among white space and comments that
are not indented deeper than `indent`. -/
def secondBreak? (indent : Nat) (separator : Array Token) : Option Nat :=
  let step (breaks : Array Nat) (t : Token) (i : Nat) : Array Nat :=
    match t.kind with
    | .newline => breaks.push i
    | .space => breaks
    | .comment => if indent < t.indent then #[] else breaks
    | _ => #[]
  (separator.toList.zipIdx.foldl (fun breaks (t, i) => step breaks t i) #[])[1]?

/-- Takes in a value mark. `start` is what stands in front of it at the start of a line. -/
def valueMark (o : Outline) (g : Growing) (start : Array Token) (nextItem : Bool) (t : Token) : Outline :=
  let it := g.last
  let put (g : Growing) : Outline := o.replace (.mapping g)
  let nest (inner : Item Tree) : Outline := (put g).pushMapping t.indent inner
  match it.separator with
  | none =>
    if it.explicit && !includesKind .newline it.start then
      let (kept, taken) := splitProperties it.start
      (put (g.mapLast ({ · with start := kept }))).pushMapping t.indent (.ofValueMark taken t)
    else put (g.mapLast ({ · with separator := some #[t] }))
  | some separator =>
    if it.value.isSome then put (g.push (.ofValueMark (if it.explicit then #[] else start) t))
    else if !it.explicit && nextItem then put (g.push (.ofValueMark start t))
    else if includesKind .valueMark separator then nest (.ofValueMark (if it.explicit then start else #[]) t)
    else
      match if it.explicit && !includesKind .newline separator then it.key.filter (·.offset?.isSome) else none with
      | some key =>
        let (kept, taken) := splitProperties it.start
        let inner := { start := taken, key := some key, separator := some (separator.push t) }
        (put (g.mapLast fun it => { start := kept, explicit := it.explicit })).pushMapping t.indent inner
      | none => put (g.mapLast ({ · with separator := some ((separator ++ start).push t) }))

def inMapping (o : Outline) (g : Growing) (t : Token) : Except Problem (Option Outline) := do
  if t.kind.isGap then
    let o := o.replace (.mapping (g.addGap t))
    return some (if t.kind = .newline then { o with onKeyLine := false } else o)
  if t.indent < g.indent then return none
  let it := g.last
  let atIndent := !o.onKeyLine && t.indent = g.indent
  let nextItem := atIndent && (it.separator.isSome || it.explicit) && t.kind != .itemMark
  let (g, start) := match if nextItem && it.value.isNone then it.separator else none with
    | some separator => match secondBreak? g.indent separator with
      | some i =>
        (g.mapLast ({ · with separator := some (separator.extract 0 i) }), separator.extract i separator.size)
      | none => (g, #[])
    | none => (g, #[])
  let put (g : Growing) : Outline := o.replace (.mapping g)
  let onKey (o : Outline) : Option Outline := some { o with onKeyLine := true }
  let pushes := nextItem || it.value.isSome
  match t.kind with
  | .anchor | .tag =>
    return if pushes then onKey (put (g.push { start := start.push t })) else some (put (g.mapLast (·.push t)))
  | .keyMark =>
    return onKey (if it.separator.isNone && !it.explicit then
        put (g.mapLast fun it => { it with start := it.start.push t, explicit := true })
      else if pushes then put (g.push { start := start.push t, explicit := true })
      else (put g).pushMapping t.indent { start := #[t], explicit := true })
  | .valueMark => return onKey (o.valueMark g start nextItem t)
  | .itemMark =>
    if !it.explicit && it.separator.any (!includesKind .newline ·) then throw .nestedBlock
    return (put g).start? t
  | .blockHeader | .mappingOpen | .sequenceOpen =>
    return (put (if atIndent then g.push { start := start } else g)).start? t
  | kind =>
    if !kind.isLeaf then return none
    if pushes then return onKey (put (g.push (.ofKey start (.leaf t #[]))))
    if it.separator.isSome then return (put g).start? t
    return onKey (put (g.mapLast ({ · with key := some (.leaf t #[]), separator := some #[] })))

def inSequence (o : Outline) (g : Growing) (t : Token) : Except Problem (Option Outline) := do
  if t.kind.isGap then return some (o.replace (.sequence (g.addGap t)))
  let it := g.last
  let property := t.kind = .anchor || t.kind = .tag
  if property && it.value.isNone && g.indent < t.indent then
    return some (o.replace (.sequence (g.mapLast (·.push t))))
  if t.kind = .itemMark && t.indent = g.indent then
    return some (o.replace (.sequence (if it.value.isSome || includesKind .itemMark it.start then
      g.push (.ofToken t) else g.mapLast (·.push t))))
  return if g.indent < t.indent then o.start? t else none

/-- In a flow collection that is not closed. -/
def inFlow (o : Outline) (opening : Token) (items : List (Item Tree)) (t : Token) : Step :=
  let put (items : List (Item Tree)) : Outline := o.replace (.flow opening items #[])
  let add (it : Item Tree) : Outline := put (it :: items)
  match t.kind with
  | .mappingClose | .sequenceClose =>
    if (opening.kind = .sequenceOpen) = (t.kind = .sequenceClose) then return o.replace (.flow opening items #[t])
    else throw .unclosedCollection
  | .mappingOpen | .sequenceOpen => return o.push (.flow t [] #[])
  | .itemMark => throw .blockInFlow
  | kind =>
    match items with
    | [] =>
      if kind = .valueMark then return add (.ofValueMark #[] t)
      else if kind.isLeaf then return add (.ofKey #[] (.leaf t #[]))
      else return add (.ofToken t)
    | it :: rest =>
      if kind = .comma || kind = .keyMark then
        return if it.separator.isSome then add (.ofToken t) else put (it.push t :: rest)
      else if kind = .valueMark then
        return if it.value.isSome then add (.ofValueMark #[] t)
          else put ({ it with separator := some ((it.separator.getD #[]).push t) } :: rest)
      else if kind.isLeaf then
        return if it.value.isSome then add (.ofKey #[] (.leaf t #[]))
          else if it.separator.isSome then o.push (.leaf t #[])
          else put ({ it with key := some (.leaf t #[]), separator := some #[] } :: rest)
      else if kind.isGap || kind = .anchor || kind = .tag then
        return if it.value.isSome then add (.ofToken t) else put (it.push t :: rest)
      else throw (.stray t.text)

/-- Behind the closing bracket of a flow collection. -/
def afterFlow (o : Outline) (opening : Token) (items : List (Item Tree)) (tail : Array Token) (t : Token) :
    Except Problem (Option Outline) := do
  let keyOfParent : Bool := match o.stack.drop 1 with
    | .mapping g :: _ =>
      (t.kind = .valueMark && g.indent = opening.indent) || (t.kind = .newline && g.last.separator.isNone)
    | _ => false
  if keyOfParent then return none
  if t.kind = .valueMark && !((o.stack.drop 1).head?.any Frame.isFlow) then
    let key := Tree.ofFlow opening items (tail.extract 0 1)
    return some (← o.becomeKey key opening.indent ((tail.extract 1 tail.size).push t))
  endLine t (o.replace (.flow opening items (tail.push t)))

/-- Takes a token in, or none if the innermost frame has to be closed before. -/
def offer (o : Outline) (t : Token) : Except Problem (Option Outline) := do
  match o.stack with
  | [] =>
    if t.kind = .documentEnd then return some (o.push (.documentEnd #[]))
    return some (← o.betweenDocuments t)
  | frame :: _ =>
    match frame with
    | .documentEnd tail =>
      if t.kind = .documentMode then return some o
      let o := o.replace (.documentEnd (tail.push t))
      return some (← if t.kind = .newline then o.close else pure o)
    | frame =>
      if t.kind = .documentEnd then return none
      match frame with
      | .document start value tail => o.inDocument start value tail t
      | .leaf token tail => o.inLeaf token tail t
      | .block header => o.inBlock header t
      | .mapping g => o.inMapping g t
      | .sequence g => o.inSequence g t
      | .flow opening items tail =>
        if tail.isEmpty then return some (← o.inFlow opening items t) else o.afterFlow opening items tail t
      | .documentEnd _ => return none

/-- Takes a token in. At most all frames are closed before. -/
def take : Nat → Outline → Token → Step
  | 0, _, _ => throw .exhausted
  | fuel + 1, o, t => do
    match ← o.offer t with
    | some o => return o
    | none => take fuel (← o.close) t

/-- Indentation after a token. -/
def indented (o : Outline) (l : Lexeme) : Outline :=
  let grow (o : Outline) : Outline := if o.lineStarts then { o with indent := o.indent + l.text.length } else o
  match l.kind with
  | .content | .documentMode => o
  | .newline => { o with lineStarts := true, indent := 0 }
  | .space => if l.text.head? = some (' ' : CodeUnit) then grow o else o
  | .keyMark | .valueMark | .itemMark => grow o
  | _ => { o with lineStarts := false }

def add (o : Outline) (l : Lexeme) : Step := do
  let o := if l.kind = .content then { o with lineStarts := false } else o
  return (← take (o.stack.length + 2) o ⟨l, o.indent⟩).indented l

/-- Closes all frames. -/
def finish : Nat → Outline → Step
  | 0, o => return o
  | fuel + 1, o => if o.stack.isEmpty then return o else do finish fuel (← o.close)

end Outline

/-- The parts of a source. -/
def parts (ls : List Lexeme) : Except Problem (List Part) := do
  let o ← ls.foldlM Outline.add ⟨[], [], 0, true, false⟩
  return (← o.finish (o.stack.length + 1)).parts.reverse

end Stencil.Yaml
