import Stencil.Text.Basic

/-!
Positions in a source. Lines end with line feeds, and columns and offsets count code units from one.
-/

namespace Stencil

structure Position where
  line : Int
  column : Nat
  /-- Units on the lines before, with their line feeds, and the column. -/
  offset : Nat
deriving DecidableEq, Repr

namespace Position

def lines (source : Text) : List Text := Text.splitOn (Text.ofString "\n") source

/-- The lines before a line. Line 0 is the last line, and numbers below count on from there. -/
def linesBefore (source : Text) (line : Int) : List Text :=
  let all := lines source
  all.take (if 1 ≤ line then line - 1 else all.length + line - 1).toNat

/-- The first place of a text on a line, or the start of the line if the text is not on it. -/
def locate (source : Text) (line : Int) (part : Text) : Position :=
  let here := if 1 ≤ line then (lines source)[(line - 1).toNat]?.getD [] else []
  let column := (Text.find? part here).getD 0 + 1
  ⟨line, column, (linesBefore source line).foldl (fun n before => n + before.length + 1) 0 + column⟩

end Position
end Stencil
