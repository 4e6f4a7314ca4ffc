import Mathlib.Data.List.Basic
import Stencil.Position

/-! Lines of a source: where each of them starts, and what stands first on it. -/
namespace Stencil

namespace Text
variable {part t : Text} {i j : Nat}

/-- `find?` gives the first place that `part` stands at. -/
theorem find?_eq_some (h : find? part t = some i) :
    part <+: t.drop i ∧ ∀ j < i, ¬ part <+: t.drop j := by
  induction t generalizing i with
  | nil =>
    unfold find? splitAtFirst? at h
    split at h
    · rename_i hp
      cases h
      simp [List.isEmpty_iff.mp hp]
    · cases h
  | cons u t ih =>
    unfold find? splitAtFirst? at h
    split at h
    · rename_i hp
      cases h
      exact ⟨List.isPrefixOf_iff_prefix.mp hp, by simp⟩
    · rename_i hp
      cases hs : splitAtFirst? part t with
      | none => simp [hs] at h
      | some r =>
        simp only [hs, Option.map_some, List.length_cons, Option.some.injEq] at h
        obtain ⟨hat, hfirst⟩ := ih (i := r.1.length) (by simp [find?, hs])
        subst h
        refine ⟨hat, fun j hj => ?_⟩
        cases j with
        | zero => exact fun hat => hp (List.isPrefixOf_iff_prefix.mpr hat)
        | succ j => exact hfirst j (by omega)

theorem find?_isSome (h : part <+: t.drop j) (hne : part ≠ []) : ∃ i, find? part t = some i := by
  induction t generalizing j with
  | nil => simp_all
  | cons u t ih =>
    unfold find? splitAtFirst?
    split
    · exact ⟨0, rfl⟩
    · rename_i hp
      cases j with
      | zero => exact (hp (List.isPrefixOf_iff_prefix.mpr h)).elim
      | succ j =>
        obtain ⟨i, hi⟩ := ih h
        obtain ⟨r, hr, _⟩ := Option.map_eq_some_iff.mp hi
        exact ⟨r.1.length + 1, by simp [hr]⟩

end Text

namespace Position
variable {source : Text} {ls more : List Text} {line : Text}

theorem splitFrom_feed_cons (done : Text) (u : CodeUnit) (t : Text) :
    Text.splitFrom (Text.ofString "\n") 0 done (u :: t) =
      if u = '\n' then done.reverse :: Text.splitFrom (Text.ofString "\n") 0 [] t
      else Text.splitFrom (Text.ofString "\n") 0 (u :: done) t := by
  have hmark : Text.ofString "\n" = [('\n' : CodeUnit)] := by decide
  rw [hmark, Text.splitFrom]
  by_cases hu : u = '\n'
  · simp [hu]
  · have hne : ('\n' : CodeUnit) ≠ u := fun he => hu he.symm
    simp [hu, hne]

theorem splitFrom_feed (done t : Text) : ∃ line more,
    Text.splitFrom (Text.ofString "\n") 0 [] t = line :: more ∧
    Text.splitFrom (Text.ofString "\n") 0 done t = (done.reverse ++ line) :: more := by
  induction t generalizing done with
  | nil => exact ⟨[], [], by simp [Text.splitFrom], by simp [Text.splitFrom]⟩
  | cons u t ih =>
    rw [splitFrom_feed_cons, splitFrom_feed_cons]
    split
    · exact ⟨[], _, rfl, by simp⟩
    · obtain ⟨line, more, h, h'⟩ := ih [u]
      obtain ⟨line', more', h₁, h₁'⟩ := ih (u :: done)
      rw [h] at h₁
      cases h₁
      exact ⟨u :: line, more, by simpa using h', by simpa using h₁'⟩

theorem lines_eq_splitFrom (source : Text) : lines source = Text.splitFrom (Text.ofString "\n") 0 [] source := by
  have hmark : (Text.ofString "\n").isEmpty = false := by decide
  rw [lines, Text.splitOn, hmark]
  rfl

@[simp] theorem lines_nil : lines [] = [[]] := by decide

theorem lines_feed (t : Text) : lines ('\n' :: t) = [] :: lines t := by
  rw [lines_eq_splitFrom, lines_eq_splitFrom, splitFrom_feed_cons, if_pos rfl]
  rfl

theorem lines_cons {u : CodeUnit} (hu : u ≠ '\n') (h : lines source = line :: more) :
    lines (u :: source) = (u :: line) :: more := by
  obtain ⟨line', more', h₁, h₁'⟩ := splitFrom_feed [u] source
  rw [lines_eq_splitFrom] at h ⊢
  rw [h] at h₁
  cases h₁
  rw [splitFrom_feed_cons, if_neg hu]
  exact h₁'

theorem lines_ne_nil (source : Text) : ∃ line more, lines source = line :: more := by
  obtain ⟨line, more, h, _⟩ := splitFrom_feed [] source
  exact ⟨line, more, (lines_eq_splitFrom source).trans h⟩

theorem length_lines (source : Text) : (lines source).length = Text.lineFeeds source + 1 := by
  induction source with
  | nil => rw [lines_nil]; rfl
  | cons u t ih =>
    by_cases hu : u = '\n'
    · subst hu
      rw [lines_feed, List.length_cons, ih, Text.lineFeeds, Text.lineFeeds, List.count_cons_self]
    · obtain ⟨line, more, h⟩ := lines_ne_nil t
      rw [lines_cons hu h]
      simp only [h, List.length_cons, Text.lineFeeds] at ih ⊢
      rw [List.count_cons_of_ne hu]
      omega

/-- Units on lines, with a line feed after each. -/
def width (ls : List Text) : Nat := ls.foldl (fun n line => n + line.length + 1) 0

theorem width_cons (l : Text) (ls : List Text) : width (l :: ls) = l.length + 1 + width ls := by
  have general : ∀ n, ls.foldl (fun n line => n + line.length + 1) n = n + width ls := by
    induction ls with
    | nil => exact fun n => rfl
    | cons l ls ih =>
      intro n
      rw [width, List.foldl_cons, List.foldl_cons, ih, ih]
      omega
  rw [width, List.foldl_cons, general]
  omega

/-- A line stands in the source behind the lines before it. -/
theorem prefix_drop_width (h : lines source = ls ++ line :: more) : line <+: source.drop (width ls) := by
  induction source generalizing ls line more with
  | nil =>
    cases ls <;> simp_all
  | cons u t ih =>
    by_cases hu : u = '\n'
    · subst hu
      rw [lines_feed] at h
      cases ls with
      | nil =>
        obtain ⟨rfl, rfl⟩ := List.cons.inj h
        exact List.nil_prefix
      | cons l ls =>
        obtain ⟨rfl, hrest⟩ := List.cons.inj h
        have := ih hrest
        rwa [width_cons, List.length_nil, Nat.zero_add, Nat.add_comm, List.drop_succ_cons]
    · obtain ⟨first, others, ht⟩ := lines_ne_nil t
      rw [lines_cons hu ht] at h
      cases ls with
      | nil =>
        obtain ⟨rfl, rfl⟩ := List.cons.inj h
        have : first <+: t := ih (by rw [ht, List.nil_append])
        exact List.cons_prefix_cons.mpr ⟨rfl, this⟩
      | cons l ls =>
        obtain ⟨rfl, hrest⟩ := List.cons.inj h
        have : line <+: t.drop (width (first :: ls)) := ih (by rw [ht, hrest]; rfl)
        have hw : width ((u :: first) :: ls) = width (first :: ls) + 1 := by
          simp only [width_cons, List.length_cons]
          omega
        rwa [hw, List.drop_succ_cons]

/-- The line that a place is on: as many lines stand before it as line feeds stand before the place,
and it goes on with the first line of what follows. -/
theorem line_of_split (before after : Text) : ∃ ls start rest more,
    lines (before ++ after) = ls ++ (start ++ rest) :: more ∧ ls.length = Text.lineFeeds before ∧
      lines after = rest :: more := by
  induction before with
  | nil =>
    obtain ⟨rest, more, h⟩ := lines_ne_nil after
    exact ⟨[], [], rest, more, by simpa using h, rfl, h⟩
  | cons u before ih =>
    obtain ⟨ls, start, rest, more, h, hls, hafter⟩ := ih
    by_cases hu : u = '\n'
    · subst hu
      refine ⟨[] :: ls, start, rest, more, ?_, by simp [hls, Text.lineFeeds], hafter⟩
      rw [List.cons_append, lines_feed, h, List.cons_append]
    · have hcount : Text.lineFeeds (u :: before) = Text.lineFeeds before := List.count_cons_of_ne hu
      cases ls with
      | nil => exact ⟨[], u :: start, rest, more, lines_cons hu h, by rw [hcount, ← hls], hafter⟩
      | cons l ls => exact ⟨(u :: l) :: ls, start, rest, more, lines_cons hu h, by rw [hcount, ← hls]; rfl, hafter⟩

/-- What stands at the start of a source without a line feed stands at the start of its first line. -/
theorem prefix_first_line {part : Text} (hp : part <+: source) (hf : ('\n' : CodeUnit) ∉ part)
    (h : lines source = line :: more) : part <+: line := by
  induction part generalizing source line with
  | nil => exact List.nil_prefix
  | cons u part ih =>
    obtain ⟨t, rfl⟩ := hp
    have hu : u ≠ '\n' := fun hu => hf (by simp [hu])
    obtain ⟨first, others, ht⟩ := lines_ne_nil (part ++ t)
    rw [List.cons_append, lines_cons hu ht] at h
    cases h
    have := ih ⟨t, rfl⟩ (fun hm => hf (List.mem_cons_of_mem _ hm)) ht
    exact List.cons_prefix_cons.mpr ⟨rfl, this⟩

end Position
end Stencil
