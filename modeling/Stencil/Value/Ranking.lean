import Stencil.Sorting
import Stencil.Text.Case
import Stencil.Value.Display

/-!
Ranking of values: numbers rank by size among themselves, and by their text against everything else.
Numbers and texts that look like numbers may so rank in a circle; sorting keeps the order of items of
equal rank.
-/

namespace Stencil

/-- What an item is sorted by. -/
inductive SortKey where
  | number (x : Number)
  | text (t : Text)
deriving DecidableEq, Repr

namespace SortKey

def spelling : SortKey → Text
  | number x => x.toText
  | text t => t

/-- Ranks before; numbers by the sign of their difference. -/
def before : SortKey → SortKey → Bool
  | number x, number y => (x - y).lt 0
  | a, b => Text.before a.spelling b.spelling

end SortKey

namespace Store

/-- What a value is sorted by; case counts only where it is asked for. -/
def sortKey? (s : Store) (caseSensitive : Bool) : Value → Option SortKey
  | .number x => some (.number x)
  | v => (s.display? v).map fun t => .text (if caseSensitive then t else t.toLower)

/-- The items sorted, absent ones last. -/
def sorted? (s : Store) (caseSensitive : Bool) (items : List Value) : Option (List Value) := do
  let (absent, present) := items.partition (· = .absent)
  let keys ← present.mapM (s.sortKey? caseSensitive)
  let cells := present.toArray
  let order := Sorting.sort (fun a b => a.1.before b.1) keys.zipIdx
  return order.filterMap (cells[·.2]?) ++ absent

end Store
end Stencil
