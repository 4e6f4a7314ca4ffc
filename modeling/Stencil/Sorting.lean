/-!
Stable sorting by merging runs. A run that the items already form is taken as it stands, a short one is
filled up by insertion, and neighbouring runs are merged so that their lengths stay balanced. A merge
in which one run keeps winning leaps ahead in growing steps. With an order that is not consistent the
result is still an arrangement of the items, and always the same one.
-/

namespace Stencil.Sorting

variable {α : Type} (before : α → α → Bool)

/-- Moves items onto a run, which holds the latest first, as long as `p` holds of the latest and the
next. -/
def chain (p : α → α → Bool) : List α → List α → List α × List α
  | last :: run, item :: rest =>
    if p last item then chain p (item :: last :: run) rest else (last :: run, item :: rest)
  | run, rest => (run, rest)

/-- The run a list starts with, in rising order, and the rest. A strictly falling run is turned. -/
def firstRun : List α → List α × List α
  | a :: b :: rest =>
    if before b a then chain (fun x y => before y x) [b, a] rest
    else
      let (run, rest) := chain (fun x y => !before y x) [b, a] rest
      (run.reverse, rest)
  | run => (run, [])

/-- How many of the first items satisfy `p`, found by halving between the positions `low` and `high`.
`half` says which item of some is looked at. -/
def bisect (half : Nat → Nat) (p : α → Bool) (items : Array α) : Nat → Nat → Nat → Nat
  | 0, low, _ => low
  | fuel + 1, low, high =>
    if low < high then
      let mid := low + half (high - low)
      if (items[mid]?.map p).getD false then bisect half p items fuel (mid + 1) high
      else bisect half p items fuel low mid
    else low

/-- How many items of a list satisfy `p`, if these stand first, found by halving. -/
def firstCount (half : Nat → Nat) (p : α → Bool) (items : List α) : Nat :=
  let items := items.toArray
  bisect half p items (items.size + 1) 0 items.size

/-- Puts an item behind all that do not rank after it. -/
def insertItem (run : List α) (item : α) : List α :=
  let place := firstCount (· / 2) (!before item ·) run
  run.take place ++ item :: run.drop place

/-- How many of the first items satisfy `p`. Looks at items in growing steps, and halves between the
last two. The next look skips `skip` items. -/
def leap (half : Nat → Nat) (p : α → Bool) (skip : Nat) (items : List α) : Nat :=
  match _h : items.drop skip with
  | item :: rest =>
    if p item then skip + 1 + leap half p (2 * skip + 1) rest
    else firstCount half p (items.take skip)
  | [] => firstCount half p items
termination_by items.length
decreasing_by
  have := congrArg List.length _h
  simp at this
  omega

/-- How many of the first items satisfy `p`, found by leaping. -/
def leapCount (half : Nat → Nat) (p : α → Bool) : List α → Nat
  | [] => 0
  | item :: rest => if p item then 1 + leap half p 0 rest else 0

/-- A merge at work, in either direction: what was merged, the latest first; what is left of the
shorter run, which was put aside, and of the other run; how often each of them won in a row; and how
often one has to win before the merge leaps. -/
structure Merge (α : Type) where
  done : List α
  aside : List α
  other : List α
  asideWins : Nat
  otherWins : Nat
  patience : Nat

namespace Merge

/-- Whether the rest of the merge needs no more comparisons. -/
def isSettled (m : Merge α) : Bool :=
  match m.aside with
  | _ :: _ :: _ => m.other.isEmpty
  | _ => true

/-- The merged items, the latest first. The last item put aside goes behind the other run. -/
def merged (m : Merge α) : List α := (m.other ++ m.aside).reverse ++ m.done

/-- Wins in a row that keep a merge leaping. -/
def longStreak : Nat := 7

def isStreak (m : Merge α) : Bool := longStreak ≤ m.asideWins || longStreak ≤ m.otherWins

variable (half : Nat → Nat) (otherWins : α → α → Bool)

/-- Leaps over the items put aside that win, then takes one of the other run. -/
def leapAside (m : Merge α) : Merge α :=
  match m.other with
  | [] => m
  | y :: rest =>
    let count := leapCount half (!otherWins · y) m.aside
    let m := { m with
      done := (m.aside.take count).reverseAux m.done, aside := m.aside.drop count, asideWins := count }
    if m.isSettled then m else { m with done := y :: m.done, other := rest }

/-- Leaps over the items of the other run that win, then takes one put aside. -/
def leapOther (m : Merge α) : Merge α :=
  match m.aside with
  | [] => m
  | x :: rest =>
    let count := leapCount half (otherWins x) m.other
    let m := { m with
      done := (m.other.take count).reverseAux m.done, other := m.other.drop count, otherWins := count }
    if m.isSettled then m else { m with done := x :: m.done, aside := rest }

/-- One comparison of the next items. -/
def compare (m : Merge α) : Merge α :=
  match m.aside, m.other with
  | x :: xs, y :: ys =>
    if otherWins x y
    then { m with done := y :: m.done, other := ys, otherWins := m.otherWins + 1, asideWins := 0 }
    else { m with done := x :: m.done, aside := xs, asideWins := m.asideWins + 1, otherWins := 0 }
  | _, _ => m

/-- Merges until it is settled; `leaping` tells whether one run wins often. Forward merges leap over
the items put aside first. Every step takes at least one item, so `fuel` need not exceed their
number. -/
def run (forward : Bool) : Nat → Bool → Merge α → Merge α
  | 0, _, m => m
  | fuel + 1, leaping, m =>
    if m.isSettled then m
    else if leaping then
      let first := if forward then m.leapAside half otherWins else m.leapOther half otherWins
      if first.isSettled then first
      else
        let m := if forward then first.leapOther half otherWins else first.leapAside half otherWins
        if m.isSettled then m
        else if m.isStreak then run forward fuel true { m with patience := max 1 (m.patience - 1) }
        else run forward fuel false { m with asideWins := 0, otherWins := 0, patience := m.patience + 1 }
    else
      let m := m.compare otherWins
      run forward fuel (!m.isSettled && m.patience ≤ max m.asideWins m.otherWins) m

end Merge

/-- Merges two runs that interleave: the right one holds an item that goes to the front, the left one
an item that goes to the end. Gives the patience of the next merge, too. -/
def mergeInner (patience : Nat) (left right : List α) : List α × Nat :=
  let fuel := left.length + right.length
  if left.length ≤ right.length then
    let m := Merge.run (· / 2) (fun x y => before y x) true fuel false
      ⟨right.take 1, left, right.drop 1, 0, 0, patience⟩
    (m.merged.reverse, m.patience)
  else
    let left := left.reverse
    let m := Merge.run (fun n => (n - 1) / 2) before false fuel false
      ⟨left.take 1, right.reverse, left.drop 1, 0, 0, patience⟩
    (m.merged, m.patience)

/-- Merges two neighbouring runs. What already stands in its place takes no part. -/
def mergeRuns (patience : Nat) (left right : List α) : List α × Nat :=
  match right with
  | [] => (left, patience)
  | r :: _ =>
    let low := leapCount (· / 2) (!before r ·) left
    match (left.drop low).getLast? with
    | none => (left ++ right, patience)
    | some l =>
      let high := leapCount (fun n => (n - 1) / 2) (!before · l) right.reverse
      let inner := right.take (right.length - high)
      if inner.isEmpty then (left ++ right, patience)
      else
        let (merged, patience) := mergeInner before patience (left.drop low) inner
        (left.take low ++ (merged ++ right.drop inner.length), patience)

/-- Runs that wait for their merge, the latest first, with the patience of the next merge. -/
structure Pending (α : Type) where
  runs : List (List α)
  patience : Nat

namespace Pending

/-- Merges the two latest runs. -/
def mergeLatest (p : Pending α) : Pending α :=
  match p.runs with
  | c :: b :: rest =>
    let (merged, patience) := mergeRuns before p.patience b c
    ⟨merged :: rest, patience⟩
  | _ => p

/-- Merges the two runs before the latest. -/
def mergeEarlier (p : Pending α) : Pending α :=
  match p.runs with
  | c :: b :: a :: rest =>
    let (merged, patience) := mergeRuns before p.patience a b
    ⟨c :: merged :: rest, patience⟩
  | _ => p

/-- Whether a run is longer than the two after it. The runs are given from the latest on. -/
def outweighs : List (List α) → Bool
  | c :: b :: a :: _ => b.length + c.length < a.length
  | _ => true

/-- Whether the run before the two latest is shorter than the latest. -/
def earlierIsShorter : List (List α) → Bool
  | c :: _ :: a :: _ => a.length < c.length
  | _ => false

/-- Merges until every run outweighs those after it. -/
def balance : Nat → Pending α → Pending α
  | 0, p => p
  | fuel + 1, p =>
    match p.runs with
    | c :: b :: _ =>
      if !outweighs p.runs || !outweighs (p.runs.drop 1) then
        balance fuel (if earlierIsShorter p.runs then p.mergeEarlier before else p.mergeLatest before)
      else if b.length ≤ c.length then balance fuel (p.mergeLatest before)
      else p
    | _ => p

/-- Merges all runs into one. -/
def close : Nat → Pending α → List α
  | 0, p => p.runs.reverse.flatten
  | fuel + 1, p =>
    match p.runs with
    | [] => []
    | [run] => run
    | _ => close fuel (if earlierIsShorter p.runs then p.mergeEarlier before else p.mergeLatest before)

end Pending

/-- The length that runs are filled up to, for so many items. -/
def leastRun (n : Nat) : Nat :=
  let shift := Nat.pow 2 (n.log2 - 5)
  n / shift + (if n % shift = 0 then 0 else 1)

/-- Cuts items into runs and merges the runs as they come. -/
def sortRuns (least : Nat) : Nat → Pending α → List α → Pending α
  | 0, p, _ => p
  | _, p, [] => p
  | fuel + 1, p, items =>
    let (run, rest) := firstRun before items
    let missing := least - run.length
    let run := (rest.take missing).foldl (insertItem before) run
    let p : Pending α := { p with runs := run :: p.runs }
    sortRuns least fuel (p.balance before p.runs.length) (rest.drop missing)

/-- The items sorted. -/
def sort (items : List α) : List α :=
  let p := sortRuns before (leastRun items.length) items.length ⟨[], Merge.longStreak⟩ items
  p.close before p.runs.length

end Stencil.Sorting
