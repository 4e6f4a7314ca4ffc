import Stencil.Yaml.Source

/-!
Wrapping long scalars. A line goes on below at a space between two words, once it is about to pass the
width; in double quotes it may break anywhere, behind a backslash.
-/

namespace Stencil.Yaml

namespace Wrapping

def width : Nat := 80

/-- The least number of units behind the indentation of a line. -/
def leastContent : Nat := 20

/-- Where lines are broken so far, the latest first, and where the current line has to end. `split` is the
last space at which it could be broken, and `forced` are the breaks that are at no space. -/
structure State where
  limit : Int
  split : Option Nat
  previous : Option CodeUnit
  breaks : List Nat
  forced : List Nat
  escapeStart : Int
  escapeEnd : Int

def isWordUnit (u : CodeUnit) : Bool := !(isBlank u || u = lineFeed)

/-- Length of the escape at a backslash, without the backslash. -/
def escapeLength (next : Option CodeUnit) : Nat :=
  if next = some ('x' : CodeUnit) then 3 else if next = some ('u' : CodeUnit) then 5
  else if next = some ('U' : CodeUnit) then 9 else 1

/-- The breaks of a text whose lines have `step` units, behind `indent` spaces. None if a line is too short
for an escape. -/
def search (t : Source) (quoted : Bool) (indent step : Nat) : Nat → Nat → State → Option State
  | 0, _, s => some s
  | fuel + 1, i, s =>
    match t[i]? with
    | none => some s
    | some u =>
      let escape := quoted && u = '\\'
      let next := if escape then i + escapeLength t[i + 1]? else i
      let s := if escape then { s with escapeStart := i, escapeEnd := next } else s
      if u = lineFeed then
        search t quoted indent step fuel (next + 1)
          { s with limit := next + indent + step, split := none, previous := some u }
      else
        let splits := u = ' ' && s.previous.any isWordUnit && t[next + 1]?.any isWordUnit
        let s := if splits then { s with split := some next } else s
        if next < s.limit then search t quoted indent step fuel (next + 1) { s with previous := some u }
        else match s.split with
          | some j =>
            search t quoted indent step fuel (next + 1)
              { s with limit := j + step, split := none, breaks := j :: s.breaks, previous := some u }
          | none =>
            if !quoted then search t quoted indent step fuel (next + 1) { s with previous := some u }
            else
              let word := if !s.previous.any isBlank then next
                else if escape then next + 1
                else t.skip isBlank next + 1
              let j := (if (word : Int) > s.escapeEnd + 1 then (word : Int) - 2 else s.escapeStart - 1).toNat
              if s.forced.contains j then none
              else
                search t quoted indent step fuel (word + 1)
                  { s with
                    limit := j + step, split := none, breaks := j :: s.breaks, forced := j :: s.forced
                    previous := if word = next then some u else t[word]? }

/-- The lines that start at breaks, behind what was written. -/
def assemble (t : Source) (indent : Nat) (forced : List Nat) (done : Text) : List Nat → Text
  | [] => done
  | j :: rest =>
    let stop := rest.head?.getD t.size
    let start := lineFeed :: List.replicate indent (' ' : CodeUnit)
    if j = 0 then assemble t indent forced (start ++ t.slice 0 stop) rest
    else
      let mark := if forced.contains j then t.slice j (j + 1) ++ [CodeUnit.ofChar '\\'] else []
      assemble t indent forced (done ++ mark ++ start ++ t.slice (j + 1) stop) rest

end Wrapping

open Wrapping in
/-- A text in lines behind `indent` spaces, the first of which starts at column `column`. -/
def wrapped (quoted : Bool) (indent : Nat) (column : Option Nat) (text : Text) : Text :=
  let t : Source := text.toArray
  let step := max (1 + leastContent) (1 + width - indent)
  if t.size ≤ step then text
  else
    let below := column.any (width - leastContent < ·)
    let limit : Int := if below then width - indent else width - (column.getD indent)
    match search t quoted indent step (t.size + 1) 0 ⟨limit, none, none, if below then [0] else [], [], -1, -1⟩ with
    | none => text
    | some s => match s.breaks.reverse with
      | [] => text
      | j :: rest => assemble t indent s.forced (t.slice 0 j) (j :: rest)

end Stencil.Yaml
