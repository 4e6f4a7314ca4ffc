import Stencil.Proofs.Marking.Watching
import Stencil.Proofs.Render.KeyedReads

/-! Without escaping, texts may be marked as safe wherever they stand, as long as slices, items and the filter that
reverses do not meet the marks. -/
namespace Stencil.Eval

open Marking

/-- Where a template that checks texts runs to its end, the template without the checks writes the same, whether the
texts are marked or not, unless a slice is cut from a marked text there, or by a watch. -/
theorem marks_transparent {env : Environment} (hoff : env.autoescape = false)
    (hsafe : env.filters.lookup (Text.ofString "safe") = some .safe) {plainWatched markedWatched : Prop}
    {checked plainStopping plain markedStopping marked : List Stmt}
    (hplain : FormOf env.features plainWatched checked plainStopping plain)
    (hmarked : FormOf env.features markedWatched checked markedStopping marked) {context : Value} {s u : Store}
    (hmacros : ∀ m ∈ s.macros, LoosenedMacro ⟨env.features, False, plainWatched⟩ m m ∧
      LoosenedMacro ⟨env.features, False, markedWatched⟩ m m) {t : Text}
    (h : renderTemplate env checked context s = .ok t u) :
    ((∃ v, renderTemplate env plain context s = .ok t v) ∨
      plainWatched ∧ ∃ v, renderTemplate env plainStopping context s = .error (.notSliceable .text) v) ∧
    ((∃ w, renderTemplate env marked context s = .ok t w) ∨
      markedWatched ∧ ∃ w, renderTemplate env markedStopping context s = .error (.notSliceable .text) w) :=
  ⟨hplain.renders hoff hsafe (fun m hm => (hmacros m hm).1) h,
    hmarked.renders hoff hsafe (fun m hm => (hmacros m hm).2) h⟩

namespace Marks

def named (t : Text) : Name := ⟨t, 1, 0⟩

/-- A template with a macro, a loop, a join, a slice and an item. Some of its texts go through `mark`, and what the item
is taken from goes through `keep`. -/
def page (mark keep : Expr → Expr) : List Stmt :=
  [.define 1 "tag" [named "text"] [] [.text 1 "<", .output 1 (.name (named "text")), .text 1 ">"],
    .assign 1 (.name (named "title")) (.const 1 (.text "xyz")),
    .loop 1 (.name (named "word")) (.list 1 [mark (.const 1 (.text "a")), .const 1 (.text "b")]) none
      [.output 1 (.call 1 (.name (named "tag")) [mark (.name (named "word"))] [])] [],
    .output 1 (.filter 1 (.list 1 [.const 1 (.text "c"), mark (.const 1 (.text "d"))]) "join"
      [mark (.const 1 (.text ", "))] []),
    .output 1 (.slice 1 (.name (named "title")) none (some (.const 1 (.number 2))) none),
    .output 1 (.item 1 (keep (.name (named "title"))) (.const 1 (.number 0)))]

theorem loosened_page {L : Leeway} {mark mark' keep keep' : Expr → Expr}
    (hmark : ∀ e, Loosened L e e → Loosened L (mark e) (mark' e))
    (hkeep : ∀ n, Loosened L (keep (.name n)) (keep' (.name n)))
    (hclear : ∀ n, Clear L (keep (.name n)) (keep' (.name n))) (hslice : ∀ n, L.watched ∨ Clear L (.name n) (.name n))
    (hjoin : L.features.filters.lookup (Text.ofString "join") = some .join) :
    List.Forall₂ (LoosenedStmt L) (page mark keep) (page mark' keep') := by
  have hname : ∀ n, Loosened L (.name n) (.name n) := fun n => .name rfl
  have hconst : ∀ c, Loosened L (.const 1 c) (.const 1 c) := fun c => .const c
  refine .cons (.define rfl .nil ?_) (.cons (.assign (.name rfl) (hconst _)) ?_)
  · exact .cons (.text _) (.cons (.output (hname _)) (.cons (.text _) .nil))
  refine .cons (.loop (.name rfl) (.list ?_) .none ?_ .nil) ?_
  · exact .cons (hmark _ (hconst _)) (.cons (hconst _) .nil)
  · exact .cons (.output (.call (hname _) (.cons (hmark _ (hname _)) .nil) rfl .nil)) .nil
  refine .cons (.output (.filter (.list ?_) ?_ rfl .nil ?_)) (.cons (.output ?_) (.cons (.output ?_) .nil))
  · exact .cons (hconst _) (.cons (hmark _ (hconst _)) .nil)
  · exact .cons (hmark _ (hconst _)) .nil
  · intro hreverse
    rw [hjoin] at hreverse
    cases hreverse
  · exact .slice (hname _) .none (.some (hconst _)) .none (hslice _)
  · refine .item (hkeep _) (hconst _) (.inl (hclear _)) (.inr (never_const ?_))
    rintro ⟨t, ht, -⟩
    cases ht

/-- An environment that does not escape, and a store with its variables. -/
def setup : Environment × Store := Environment.create false false false .empty

def write (mark keep : Expr → Expr) : Eval Text := renderTemplate setup.1 (page mark keep) .none

def written : Text := "<a><b>c, dxyx"

/-- The page with its texts marked, if at all, by `mark` is a form of the page with checks. -/
theorem page_formOf (mark : Expr → Expr)
    (hmark : ∀ L : Leeway, ¬ L.strict → ∀ e, Loosened L e e → Loosened L (textual 1 1 e) (mark e)) :
    FormOf setup.1.features True (page (textual 1 1) (watch 1)) (page mark (watch 1)) (page mark id) where
  watching := by
    have hstring : setup.1.features.tests.lookup (Text.ofString "string") = some .string := by decide +kernel
    refine loosened_page (fun e => hmark _ id e) (fun n => .watch trivial (.name rfl)) (fun n => ?_)
      (fun n => .inl trivial) (by decide +kernel)
    exact clear_watch hstring (reads_name n) (reads_name n)
  freeing := by
    have hstring : setup.1.features.tests.lookup (Text.ofString "string") = some .string := by decide +kernel
    refine loosened_page (fun e _ => .self trivial (mark e)) (fun n => ?_) (fun n => .inl trivial)
      (fun n => .inr (.inl trivial)) (by decide +kernel)
    exact .unwatch hstring (reads_name n) (.name rfl)

end Marks

/-- A page with marks on its texts is written as it is without them. -/
theorem marks_transparent_of_page : (∃ v, Marks.write id id Marks.setup.2 = .ok Marks.written v) ∧
    ∃ w, Marks.write (markedSafe 1) id Marks.setup.2 = .ok Marks.written w := by
  have hchecked : passes (· == Marks.written) (outcome (Marks.write (textual 1 1) (watch 1)) Marks.setup.2) = true := by
    decide +kernel
  have hplain : passes (· == Marks.written) (outcome (Marks.write id (watch 1)) Marks.setup.2) = true := by
    decide +kernel
  have hmarked : passes (· == Marks.written) (outcome (Marks.write (markedSafe 1) (watch 1)) Marks.setup.2) = true := by
    decide +kernel
  obtain ⟨t, u, h, ht⟩ := exists_of_passes hchecked
  obtain rfl := eq_of_beq ht
  have hplainForm := Marks.page_formOf id fun _ hmarks _ he => .textual hmarks he
  have hmarkedForm := Marks.page_formOf (markedSafe 1) fun _ hmarks _ he => .marked hmarks he
  obtain ⟨hplain', hmarked'⟩ := marks_transparent rfl (by decide +kernel) hplainForm hmarkedForm
    (fun m hm => absurd hm (Array.not_mem_empty m)) h
  constructor
  · apply hplain'.resolve_right
    rintro ⟨-, v, hstops⟩
    obtain ⟨t, w, hw, -⟩ := exists_of_passes hplain
    cases hstops.symm.trans hw
  · apply hmarked'.resolve_right
    rintro ⟨-, v, hstops⟩
    obtain ⟨t, w, hw, -⟩ := exists_of_passes hmarked
    cases hstops.symm.trans hw

/-- A text has slices and items, but a marked one has none, and it is reversed into a list. -/
theorem slice_of_marked :
    let text := Expr.const 1 (.text "abc")
    let zero := Expr.const 1 (.number 0)
    textOf [] (.slice 1 text (some zero) (some (.const 1 (.number 2))) none) = .ok "ab" ∧
      textOf [] (.slice 1 (markedSafe 1 text) (some zero) (some (.const 1 (.number 2))) none) =
        .error (.notSliceable .text) ∧
      textOf [] (.item 1 text zero) = .ok "a" ∧ textOf [] (.item 1 (markedSafe 1 text) zero) = .ok [] ∧
      textOf [] (.filter 1 text "reverse" [] []) = .ok "cba" ∧
      textOf [] (.filter 1 (markedSafe 1 text) "reverse" [] []) = .ok "['c', 'b', 'a']" := by
  decide +kernel

end Stencil.Eval
