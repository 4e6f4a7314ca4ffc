import Mathlib.Data.Set.Basic
import Stencil.Template.Names

/-! The parts of expressions and statements, at one step and at any depth. -/
namespace Stencil

namespace Expr

/-- Being a part at any depth, or the whole. -/
inductive Within (x : Expr) : Expr → Prop where
  | whole : Within x x
  | part {e y : Expr} (hy : y ∈ e.parts) (h : Within x y) : Within x e

variable {e x : Expr} {n : Name}

theorem sizeOf_lt_of_mem_parts {p : Expr} (hp : p ∈ e.parts) : sizeOf p < sizeOf e :=
  Nat.lt_of_le_of_lt (le_sumOf hp) e.sizeOf_parts

theorem within_iff : x.Within e ↔ x = e ∨ ∃ y ∈ e.parts, x.Within y := by
  constructor
  · rintro (_ | ⟨hy, h⟩)
    · exact .inl rfl
    · exact .inr ⟨_, hy, h⟩
  · rintro (rfl | ⟨y, hy, h⟩)
    · exact .whole
    · exact .part hy h

theorem within_name : x.Within (.name n) ↔ x = .name n := by
  rw [within_iff]
  simp [parts]

theorem readsOfList_eq_flatMap (es : List Expr) : reads.readsOfList es = es.flatMap reads := by
  induction es with
  | nil => rfl
  | cons e es ih => simp [reads.readsOfList, ih]

theorem readsOfEntries_eq_flatMap (ps : List (Expr × Expr)) :
    reads.readsOfEntries ps = (ps.flatMap fun p => [p.1, p.2]).flatMap reads := by
  induction ps with
  | nil => rfl
  | cons p ps ih => simp [reads.readsOfEntries, ih]

theorem readsOfNamed_eq_flatMap (ps : List (Text × Expr)) : reads.readsOfNamed ps = (ps.map (·.2)).flatMap reads := by
  induction ps with
  | nil => rfl
  | cons p ps ih => simp [reads.readsOfNamed, ih]

theorem readsOfCompared_eq_flatMap (ps : List (CompareOp × Expr)) :
    reads.readsOfCompared ps = (ps.map (·.2)).flatMap reads := by
  induction ps with
  | nil => rfl
  | cons p ps ih => simp [reads.readsOfCompared, ih]

theorem readsOfOption_eq_flatMap (e? : Option Expr) : reads.readsOfOption e? = e?.toList.flatMap reads := by
  cases e? <;> simp [reads.readsOfOption]

/-- An expression reads its own name, if it is one, and then what its parts read, one after the other. -/
theorem reads_eq (e : Expr) : e.reads = (Node.expr e).read?.toList ++ e.parts.flatMap reads := by
  cases e <;>
    simp [reads, parts, Node.read?, readsOfList_eq_flatMap, readsOfEntries_eq_flatMap, readsOfNamed_eq_flatMap,
      readsOfCompared_eq_flatMap, readsOfOption_eq_flatMap]

theorem mem_reads_of_part (hx : x ∈ e.parts) (hn : n ∈ x.reads) : n ∈ e.reads := by
  rw [reads_eq]
  exact List.mem_append_right _ (List.mem_flatMap.mpr ⟨x, hx, hn⟩)

theorem Within.reads (h : x.Within e) (hn : n ∈ x.reads) : n ∈ e.reads := by
  induction h with
  | whole => exact hn
  | part hy _ ih => exact mem_reads_of_part hy ih

/-- The names that an expression reads are the name nodes in it. -/
theorem mem_reads_iff (e : Expr) : n ∈ e.reads ↔ (name n).Within e := by
  constructor
  · intro h
    rw [reads_eq, List.mem_append] at h
    rcases h with h | h
    · cases e with
      | name m =>
        obtain rfl : n = m := by simpa [Node.read?] using h
        exact .whole
      | _ => simp [Node.read?] at h
    · obtain ⟨p, hp, h⟩ := List.mem_flatMap.mp h
      exact .part hp ((mem_reads_iff p).mp h)
  · exact fun h => h.reads (List.mem_singleton.mpr rfl)
termination_by sizeOf e
decreasing_by exact sizeOf_lt_of_mem_parts hp

end Expr

/-- The lines that a target records. -/
def Target.lines : Target → List Nat
  | name n => [n.line]
  | tuple l items => l :: items.map (·.line)

namespace Stmt

/-- The statements that a statement is put together from. -/
def parts : Stmt → List Stmt
  | text _ _ | output _ _ | perform _ _ | assign _ _ _ => []
  | branches _ bs otherwise => bs.flatMap (·.2) ++ otherwise
  | loop _ _ _ _ body otherwise => body ++ otherwise
  | capture _ _ body | define _ _ _ _ body => body

theorem sizeOf_lt_of_mem_parts {s t : Stmt} (ht : t ∈ s.parts) : sizeOf t < sizeOf s := by
  have hchild : Node.stmt t ∈ s.children := by
    cases s with
    | branches l bs otherwise =>
      rcases List.mem_append.mp ht with ht | ht
      · obtain ⟨b, hb, ht⟩ := List.mem_flatMap.mp ht
        exact List.mem_append_left _ (List.mem_flatMap.mpr ⟨b, hb, List.mem_cons_of_mem _ (List.mem_map_of_mem ht)⟩)
      · exact List.mem_append_right _ (List.mem_map_of_mem ht)
    | loop l target iter filter body otherwise =>
      rcases List.mem_append.mp ht with ht | ht
      · simp [children, ht]
      · simp [children, ht]
    | capture l target body => exact List.mem_cons_of_mem _ (List.mem_map_of_mem ht)
    | define l name params defaults body => exact List.mem_append_right _ (List.mem_map_of_mem ht)
    | _ => cases ht
  have hle : (Node.stmt t).weight ≤ sumOf Node.weight s.children := le_sumOf hchild
  exact Nat.lt_of_le_of_lt hle (Node.weight_stmt_children s)

theorem readsOfList_eq_flatMap (body : List Stmt) : reads.readsOfList body = body.flatMap reads := by
  induction body with
  | nil => rfl
  | cons s body ih => simp [reads.readsOfList, ih]

theorem readsOfBranches_eq_flatMap (bs : List (Expr × List Stmt)) :
    reads.readsOfBranches bs = bs.flatMap fun b => b.1.reads ++ b.2.flatMap reads := by
  induction bs with
  | nil => rfl
  | cons b bs ih => simp [reads.readsOfBranches, readsOfList_eq_flatMap, ih]

/-- The expressions of a statement that are not those of its parts. -/
def roots : Stmt → List Expr
  | text _ _ | capture _ _ _ => []
  | output _ e | perform _ e | assign _ _ e => [e]
  | branches _ bs _ => bs.map (·.1)
  | loop _ _ iter filter _ _ => iter :: filter.toList
  | define _ _ _ defaults _ => defaults

theorem mem_reads_of_root {s : Stmt} {e : Expr} {n : Name} (he : e ∈ s.roots) (hn : n ∈ e.reads) : n ∈ s.reads := by
  cases s with
  | text l t => cases he
  | capture l target body => cases he
  | output l e' | perform l e' | assign l target e' =>
    cases List.mem_singleton.mp he
    exact hn
  | branches l bs otherwise =>
    obtain ⟨b, hb, rfl⟩ := List.mem_map.mp he
    rw [reads, readsOfBranches_eq_flatMap]
    exact List.mem_append_left _ (List.mem_flatMap.mpr ⟨b, hb, List.mem_append_left _ hn⟩)
  | loop l target iter filter body otherwise =>
    rw [reads]
    rcases List.mem_cons.mp he with rfl | he
    · simp [hn]
    · cases Option.mem_toList.mp he
      simp [hn]
  | define l name params defaults body => exact List.mem_append_left _ (List.mem_flatMap.mpr ⟨e, he, hn⟩)

theorem mem_reads_of_part {s t : Stmt} {n : Name} (ht : t ∈ s.parts) (hn : n ∈ t.reads) : n ∈ s.reads := by
  have hbody : ∀ {body : List Stmt}, t ∈ body → n ∈ reads.readsOfList body := by
    intro body ht
    rw [readsOfList_eq_flatMap]
    exact List.mem_flatMap.mpr ⟨t, ht, hn⟩
  cases s with
  | text | output | perform | assign => cases ht
  | capture l target body => exact hbody ht
  | define l name params defaults body => exact List.mem_append_right _ (hbody ht)
  | loop l target iter filter body otherwise =>
    rw [reads]
    rcases List.mem_append.mp ht with ht | ht <;> simp [hbody ht]
  | branches l bs otherwise =>
    rw [reads, readsOfBranches_eq_flatMap]
    rcases List.mem_append.mp ht with ht | ht
    · obtain ⟨b, hb, ht⟩ := List.mem_flatMap.mp ht
      refine List.mem_append_left _ (List.mem_flatMap.mpr ⟨b, hb, List.mem_append_right _ ?_⟩)
      exact List.mem_flatMap.mpr ⟨t, ht, hn⟩
    · exact List.mem_append_right _ (hbody ht)

/-- Standing in a body, at any depth. -/
inductive Inside (x : Stmt) : List Stmt → Prop where
  | here {body : List Stmt} (h : x ∈ body) : Inside x body
  | part {body : List Stmt} {s : Stmt} (hs : s ∈ body) (h : Inside x s.parts) : Inside x body

theorem Inside.mono {x : Stmt} {body body' : List Stmt} (h : x.Inside body) (hsub : ∀ s ∈ body, s ∈ body') :
    x.Inside body' := by
  cases h with
  | here h => exact .here (hsub x h)
  | part hs h => exact .part (hsub _ hs) h

theorem Inside.trans {x s : Stmt} {body : List Stmt} (h : x.Inside [s]) (hs : s.Inside body) : x.Inside body := by
  induction hs with
  | here hmem => exact h.mono fun _ ht => List.mem_singleton.mp ht ▸ hmem
  | part hmem _ ih => exact .part hmem ih

theorem inside_nil {x : Stmt} : ¬ x.Inside [] := by
  rintro (h | ⟨h, _⟩) <;> exact nomatch h

theorem inside_cons {x s : Stmt} {body : List Stmt} :
    x.Inside (s :: body) ↔ x = s ∨ x.Inside s.parts ∨ x.Inside body := by
  constructor
  · rintro (h | ⟨hs, h⟩)
    · exact (List.mem_cons.mp h).imp_right fun h => .inr (.here h)
    · rcases List.mem_cons.mp hs with rfl | hs
      · exact .inr (.inl h)
      · exact .inr (.inr (.part hs h))
  · rintro (rfl | h | h)
    · exact .here List.mem_cons_self
    · exact .part List.mem_cons_self h
    · exact h.mono fun _ => List.mem_cons_of_mem s

/-- The names that a statement gives to the scope it stands in, whatever happens. -/
def declares : Stmt → List Text
  | assign _ target _ | capture _ target _ => target.names.map (·.text)
  | define _ name _ _ _ => [name]
  | _ => []

end Stmt

/-- Standing in a body, in whatever statement and at any depth. -/
def Expr.Inside (x : Expr) (body : List Stmt) : Prop := ∃ s : Stmt, s.Inside body ∧ ∃ e ∈ s.roots, x.Within e

namespace Expr.Inside

variable {x e : Expr} {body body' : List Stmt} {s : Stmt}

theorem mono (h : x.Inside body) (hsub : ∀ s ∈ body, s ∈ body') : x.Inside body' := by
  obtain ⟨s, hs, hx⟩ := h
  exact ⟨s, hs.mono hsub, hx⟩

theorem of_root (he : e ∈ s.roots) (hx : x.Within e) : x.Inside [s] := ⟨s, .here List.mem_cons_self, e, he, hx⟩

theorem of_inside (h : x.Inside [s]) (hs : s.Inside body) : x.Inside body := by
  obtain ⟨t, ht, hx⟩ := h
  exact ⟨t, ht.trans hs, hx⟩

theorem of_parts (h : x.Inside body) (hsub : ∀ t ∈ body, t ∈ s.parts) : x.Inside [s] := by
  obtain ⟨t, ht, hx⟩ := h
  exact ⟨t, .part List.mem_cons_self (ht.mono hsub), hx⟩

end Expr.Inside

theorem Expr.Within.trans {x y z : Expr} (h : x.Within y) (h' : y.Within z) : x.Within z := by
  induction h' with
  | whole => exact h
  | part hy _ ih => exact .part hy ih

theorem Expr.Within.inside {x e : Expr} {body : List Stmt} (h : x.Within e) (he : e.Inside body) : x.Inside body := by
  obtain ⟨s, hs, root, hroot, hwithin⟩ := he
  exact ⟨s, hs, root, hroot, h.trans hwithin⟩

end Stencil
