import Stencil.Text.CaseTable
import Stencil.Text.Basic

/-!
Upper and lower case of whole texts, by code point and without a locale. A character may grow (`ß`
becomes `SS`), and a capital sigma that ends a word becomes a final sigma. Half a surrogate pair
has no case.
-/

namespace Stencil.Text

/-- The code point that a table of runs maps `n` to. -/
def mapInRuns (n : Nat) : List (Nat × Nat × Nat × Bool × Nat) → Option Nat
  | [] => none
  | (first, last, step, up, delta) :: rest =>
    if first ≤ n && n ≤ last && (n - first) % step == 0 then some (if up then n + delta else n - delta)
    else mapInRuns n rest

def inRanges (n : Nat) (ranges : List (Nat × Nat)) : Bool :=
  ranges.any fun (first, last) => first ≤ n && n ≤ last

/-- The upper case form of one code point. -/
def upperPoint (n : Nat) : List Nat :=
  if n < 0x80 then [if 0x61 ≤ n && n ≤ 0x7A then n - 0x20 else n]
  else match upperSequences.lookup n with
    | some ns => ns
    | none => [(mapInRuns n upperRuns).getD n]

/-- The lower case form of one code point outside any context. -/
def lowerPoint (n : Nat) : List Nat :=
  if n < 0x80 then [if 0x41 ≤ n && n ≤ 0x5A then n + 0x20 else n]
  else match lowerSequences.lookup n with
    | some ns => ns
    | none => [(mapInRuns n lowerRuns).getD n]

/-- Whether the first code point that is not ignorable is a cased letter. -/
def nextIsCased (ns : List Nat) : Bool :=
  match ns.dropWhile (inRanges · caseIgnorableRanges) with
  | [] => false
  | n :: _ => inRanges n casedRanges

/-- Lower case forms; `seen` holds the code points before, nearest first. -/
def lowerPoints : List Nat → List Nat → List Nat
  | _, [] => []
  | seen, n :: rest =>
    (if n == 0x3A3 then [if nextIsCased seen && !nextIsCased rest then 0x3C2 else 0x3C3] else lowerPoint n)
      ++ lowerPoints (n :: seen) rest

def toUpper (t : Text) : Text :=
  (t.points.map codePoint).flatMap fun n => (upperPoint n).flatMap ofCodePoint

def toLower (t : Text) : Text := (lowerPoints [] (t.points.map codePoint)).flatMap ofCodePoint

/-- The first unit in upper case, the others in lower case. -/
def capitalize : Text → Text
  | [] => []
  | u :: rest => toUpper [u] ++ toLower rest

/-- Every maximal run of ASCII letters and digits starts in upper case and goes on in lower case;
`inWord` tells whether the unit before belongs to a run. -/
def titleFrom : Bool → Text → Text
  | _, [] => []
  | inWord, u :: rest =>
    if u.isLetter || u.isDigit then (if inWord then toLower [u] else toUpper [u]) ++ titleFrom true rest
    else u :: titleFrom false rest

def title (t : Text) : Text := titleFrom false t

end Stencil.Text
