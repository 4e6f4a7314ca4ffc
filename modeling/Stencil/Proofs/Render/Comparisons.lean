import Stencil.Proofs.Order
import Stencil.Proofs.Render.KeyedReads

/-!
The comparisons that order values: numbers among each other, and texts among each other. They all answer from one place
that each value has, but an infinite number is not at most itself, since infinite numbers have no difference.
-/
namespace Stencil.Eval

variable {s : Store} {v w : Value} {x y : Number} {t u : Text}

/-- Values that can be ordered: two numbers other than NaN, or two texts, safe or not. -/
inductive Comparable : Value → Value → Prop where
  | numbers {x y : Number} (hx : x ≠ .nan) (hy : y ≠ .nan) : Comparable (.number x) (.number y)
  | texts {v w : Value} {t u : Text} (hv : v.text? = some t) (hw : w.text? = some u) : Comparable v w

/-- A comparison holds, and leaves the store alone. -/
def Holds (s : Store) (op : CompareOp) (v w : Value) : Prop := compare op v w s = .ok true s

/-- A comparison has an answer, leaves the store alone, and holds exactly where `p` does. -/
def Answers (s : Store) (op : CompareOp) (v w : Value) (p : Prop) : Prop :=
  ∃ c, compare op v w s = .ok c s ∧ (c = true ↔ p)

theorem Answers.holds {op : CompareOp} {p : Prop} (h : Answers s op v w p) : Holds s op v w ↔ p := by
  obtain ⟨c, hc, hiff⟩ := h
  unfold Holds
  rw [hc, ← hiff]
  simp

def IsInfinite (v : Value) : Prop := ∃ negative, v = .number (.infinity negative)

/-- The comparisons of two values answer like those of their places in a linear order, but for an infinite number that
is compared with itself. -/
structure Placed {β : Type} [LinearOrder β] (s : Store) (v w : Value) (a b : β) : Prop where
  less : Answers s .less v w (a < b)
  equal : Answers s .equal v w (a = b)
  greater : Answers s .greater v w (b < a)
  lessEqual : Answers s .lessEqual v w (a < b ∨ a = b ∧ ¬ IsInfinite v)
  greaterEqual : Answers s .greaterEqual v w (b < a ∨ b = a ∧ ¬ IsInfinite w)

theorem isInfinite_of_extent_eq (hx : x ≠ .nan) (hy : y ≠ .nan) (h : x.extent = y.extent) :
    IsInfinite (.number x) ↔ IsInfinite (.number y) := by
  simp only [IsInfinite, Value.number.injEq]
  rw [Number.infinite_iff_extent hx, Number.infinite_iff_extent hy, h]

/-! ## Single comparisons -/

theorem depth_pos (s : Store) : 0 < s.depth := Nat.succ_pos _

/-- Values that have no items and no entries are compared as they stand. -/
theorem equal?_scalar (hv : v.keyed? = none) (hlist : ∀ id, v ≠ .list id) :
    s.equal? v w = some (Store.sameScalar v w) := by
  obtain ⟨n, hn⟩ : ∃ n, s.depth * s.depth = n + 1 := ⟨s.depth * s.depth - 1, by
    have := Nat.mul_pos (depth_pos s) (depth_pos s)
    omega⟩
  unfold Store.equal?
  rw [hn]
  cases v with
  | list id => exact absurd rfl (hlist id)
  | mapping id | table id => cases hv
  | _ => cases w <;> rfl

/-- One number is below another or equal to it where the difference is not above zero, but infinite numbers that are
equal have none. -/
theorem le_zero_sub (hx : x ≠ .nan) (hy : y ≠ .nan) :
    (x - y).le 0 = true ↔ x.extent < y.extent ∨ x.extent = y.extent ∧ ¬ IsInfinite (.number x) := by
  have hfinite : (∀ negative, x ≠ .infinity negative) ↔ ¬ IsInfinite (.number x) := by
    simp [IsInfinite]
  unfold Number.le
  rw [Bool.or_eq_true, Number.sub_lt_zero, Number.lt_iff_extent hx hy, Number.sub_eq_zero, Number.eq_iff_extent hx hy,
    hfinite]

theorem zero_le_sub (hx : x ≠ .nan) (hy : y ≠ .nan) :
    Number.le 0 (x - y) = true ↔ y.extent < x.extent ∨ y.extent = x.extent ∧ ¬ IsInfinite (.number y) := by
  have hfinite : (∀ negative, x ≠ .infinity negative) ↔ ¬ IsInfinite (.number x) := by
    simp [IsInfinite]
  unfold Number.le
  rw [Bool.or_eq_true, Number.zero_lt_sub, Number.lt_iff_extent hy hx, Number.eq_comm, Number.sub_eq_zero,
    Number.eq_iff_extent hx hy, hfinite]
  constructor
  · rintro (hlt | ⟨heq, hnot⟩)
    · exact Or.inl hlt
    · exact Or.inr ⟨heq.symm, mt (isInfinite_of_extent_eq hx hy heq).mpr hnot⟩
  · rintro (hlt | ⟨heq, hnot⟩)
    · exact Or.inl hlt
    · exact Or.inr ⟨heq.symm, mt (isInfinite_of_extent_eq hx hy heq.symm).mp hnot⟩

theorem numbers_placed (hx : x ≠ .nan) (hy : y ≠ .nan) : Placed s (.number x) (.number y) x.extent y.extent where
  less := by
    refine ⟨(x - y).lt 0, rfl, ?_⟩
    rw [Number.sub_lt_zero, Number.lt_iff_extent hx hy]
  equal := by
    have hscalar : s.equal? (.number x) (.number y) = some (x.eq y) := equal?_scalar rfl fun _ h => nomatch h
    exact ⟨x.eq y, readDeep_eq (f := (·.equal? _ _)) hscalar, Number.eq_iff_extent hx hy⟩
  greater := by
    refine ⟨Number.lt 0 (x - y), rfl, ?_⟩
    rw [Number.zero_lt_sub, Number.lt_iff_extent hy hx]
  lessEqual := ⟨_, rfl, le_zero_sub hx hy⟩
  greaterEqual := ⟨_, rfl, zero_le_sub hx hy⟩

/-- A text is neither a container nor infinite, and it is compared as it stands, safe or not. -/
theorem plain_text (hv : v.text? = some t) : plain v s = .ok (.text t) s ∧ ¬ IsInfinite v := by
  cases v with
  | text a | safe a =>
    obtain rfl := Option.some.inj hv
    refine ⟨rfl, ?_⟩
    rintro ⟨_, h⟩
    cases h
  | _ => cases hv

theorem equal?_texts (hv : v.text? = some t) (hw : w.text? = some u) : s.equal? v w = some (decide (t = u)) := by
  have hkeyed : v.keyed? = none := by cases v <;> first | rfl | cases hv
  have hlist : ∀ id, v ≠ .list id := by
    rintro id rfl
    cases hv
  rw [equal?_scalar hkeyed hlist]
  cases v <;> cases hv <;> cases w <;> cases hw <;> rfl

theorem texts_placed (hv : v.text? = some t) (hw : w.text? = some u) :
    Placed s v w (t.map UInt16.toNat) (u.map UInt16.toNat) := by
  obtain ⟨hplain, hfinite⟩ := plain_text (s := s) hv
  obtain ⟨hplain', hfinite'⟩ := plain_text (s := s) hw
  have hordered : ∀ op ∈ [CompareOp.less, .greater, .lessEqual, .greaterEqual],
      compare op v w s = .ok (textsOrdered op t u) s := by
    intro op hop
    simp only [List.mem_cons, List.not_mem_nil, or_false] at hop
    rcases hop with rfl | rfl | rfl | rfl
    all_goals exact (bind_ok hplain).trans (bind_ok hplain')
  have hnot : ∀ a b : Text, (!b.before a) = true ↔
      a.map UInt16.toNat < b.map UInt16.toNat ∨ a.map UInt16.toNat = b.map UInt16.toNat := by
    intro a b
    rw [Bool.not_eq_true', ← Bool.not_eq_true, Text.before_iff, not_lt, le_iff_lt_or_eq]
  constructor
  · exact ⟨_, hordered .less (by simp), Text.before_iff t u⟩
  · refine ⟨_, readDeep_eq (f := (·.equal? _ _)) (equal?_texts hv hw), ?_⟩
    rw [decide_eq_true_iff, Text.units_inj]
  · exact ⟨_, hordered .greater (by simp), Text.before_iff u t⟩
  · refine ⟨_, hordered .lessEqual (by simp), ?_⟩
    rw [and_iff_left hfinite]
    exact hnot t u
  · refine ⟨_, hordered .greaterEqual (by simp), ?_⟩
    rw [and_iff_left hfinite']
    exact hnot u t

/-! ## All comparisons -/

/-- What the comparisons of two values say about each other. -/
structure Consistent (s : Store) (v w : Value) : Prop where
  answers : ∀ op ∈ [CompareOp.less, .equal, .greater, .lessEqual, .greaterEqual], ∃ c, compare op v w s = .ok c s
  one : (Holds s .less v w ∧ ¬ Holds s .equal v w ∧ ¬ Holds s .greater v w) ∨
    (¬ Holds s .less v w ∧ Holds s .equal v w ∧ ¬ Holds s .greater v w) ∨
    (¬ Holds s .less v w ∧ ¬ Holds s .equal v w ∧ Holds s .greater v w)
  greater : Holds s .greater v w ↔ Holds s .less w v
  lessEqual : Holds s .lessEqual v w ↔ Holds s .less v w ∨ Holds s .equal v w ∧ ¬ IsInfinite v
  greaterEqual : Holds s .greaterEqual v w ↔ Holds s .lessEqual w v

theorem Placed.consistent {β : Type} [LinearOrder β] {a b : β} (h : Placed s v w a b) (h' : Placed s w v b a) :
    Consistent s v w where
  answers := by
    intro op hop
    simp only [List.mem_cons, List.not_mem_nil, or_false] at hop
    rcases hop with rfl | rfl | rfl | rfl | rfl
    · exact h.less.imp fun _ hc => hc.1
    · exact h.equal.imp fun _ hc => hc.1
    · exact h.greater.imp fun _ hc => hc.1
    · exact h.lessEqual.imp fun _ hc => hc.1
    · exact h.greaterEqual.imp fun _ hc => hc.1
  one := by
    rw [h.less.holds, h.equal.holds, h.greater.holds]
    rcases lt_trichotomy a b with hlt | heq | hgt
    · exact Or.inl ⟨hlt, hlt.ne, hlt.not_gt⟩
    · exact Or.inr (Or.inl ⟨heq.not_lt, heq, heq.not_gt⟩)
    · exact Or.inr (Or.inr ⟨hgt.not_gt, hgt.ne', hgt⟩)
  greater := by rw [h.greater.holds, h'.less.holds]
  lessEqual := by rw [h.lessEqual.holds, h.less.holds, h.equal.holds]
  greaterEqual := by rw [h.greaterEqual.holds, h'.lessEqual.holds]

/-- The comparisons of numbers other than NaN, and those of texts, are those of one total order, with one exception:
an infinite number is neither at most nor at least itself. -/
theorem comparisons_total (s : Store) (h : Comparable v w) : Consistent s v w ∧
    ∀ u, Comparable w u → Holds s .less v w → Holds s .less w u → Holds s .less v u := by
  cases h with
  | numbers hx hy =>
    refine ⟨(numbers_placed hx hy).consistent (numbers_placed hy hx), fun u hu hvw hwu => ?_⟩
    cases hu with
    | numbers _ hz =>
      rw [(numbers_placed hx hy).less.holds] at hvw
      rw [(numbers_placed hy hz).less.holds] at hwu
      rw [(numbers_placed hx hz).less.holds]
      exact hvw.trans hwu
    | texts hw _ => cases hw
  | texts hv hw =>
    refine ⟨(texts_placed hv hw).consistent (texts_placed hw hv), fun u hu hvw hwu => ?_⟩
    cases hu with
    | numbers _ _ => cases hw
    | texts _ hu =>
      rw [(texts_placed hv hw).less.holds] at hvw
      rw [(texts_placed hw hu).less.holds] at hwu
      rw [(texts_placed hv hu).less.holds]
      exact hvw.trans hwu

/-- Text that is marked safe stands where its letters stand. -/
theorem comparisons_total_of_safe :
    Comparable (.safe "B") (.text "a") ∧ Holds .empty .less (.safe "B") (.text "a") ∧
      ¬ Holds .empty .equal (.safe "B") (.text "a") ∧ Holds .empty .greater (.text "a") (.safe "B") ∧
      Holds .empty .less (.safe "B") (.safe "b") := by
  have hcomparable : Comparable (.safe "B") (.text "a") := .texts rfl rfl
  have hless : Holds .empty .less (.safe "B") (.text "a") := rfl
  obtain ⟨hconsistent, htrans⟩ := comparisons_total .empty hcomparable
  obtain ⟨-, hequal, -⟩ | ⟨hnot, -, -⟩ | ⟨hnot, -, -⟩ := hconsistent.one
  · refine ⟨hcomparable, hless, hequal, ?_, htrans (.safe "b") (.texts rfl rfl) hless rfl⟩
    exact (comparisons_total .empty (.texts rfl rfl)).1.greater.mpr hless
  · exact absurd hless hnot
  · exact absurd hless hnot

/-- An infinite number equals itself, but is neither at most nor at least itself. -/
theorem atMost_of_infinite :
    let x := Expr.const 1 (.number (.infinity false))
    textOf [] (.compare 1 x [(.equal, x)]) = .ok "true" ∧ textOf [] (.compare 1 x [(.lessEqual, x)]) = .ok "false" ∧
      textOf [] (.compare 1 x [(.greaterEqual, x)]) = .ok "false" := by
  decide +kernel

end Stencil.Eval
