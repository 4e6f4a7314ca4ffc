import Stencil.Proofs.Template.LexingTags
import Stencil.Templater.Field

/-!
Texts with fields, part by part. A text is put together from literal texts, where every brace is doubled, and from
fields in single braces. It is split into the same parts again, whatever parts stand next to each other.
-/

namespace Stencil

/-- How a field asks for the form of its value. -/
inductive FieldConversion where
  | unmarked
  | shown
  | quoted
deriving DecidableEq, Repr

/-- A field as it is written: a name, the steps into its value, and a conversion. -/
structure WrittenField where
  name : Text
  steps : List Step
  conversion : FieldConversion
deriving DecidableEq, Repr

/-- A part of a text with fields. -/
inductive Segment where
  | literal (t : Text)
  | field (f : WrittenField)
deriving DecidableEq, Repr

/-! ## Spelling -/

def FieldConversion.spelling : FieldConversion → Text
  | unmarked => []
  | shown => [CodeUnit.ofChar '!', CodeUnit.ofChar 's']
  | quoted => [CodeUnit.ofChar '!', CodeUnit.ofChar 'r']

def Step.spelling : Step → Text
  | member name => CodeUnit.ofChar '.' :: name
  | item key => CodeUnit.ofChar '[' :: (key ++ [CodeUnit.ofChar ']'])

namespace WrittenField

/-- The name and the steps of a field. -/
def path (f : WrittenField) : Text := f.name ++ f.steps.flatMap Step.spelling

def source (f : WrittenField) : Text := f.path ++ f.conversion.spelling

/-- The field that is read from the spelling. -/
def read (f : WrittenField) : Field := ⟨f.source, f.name, f.steps, f.conversion = .quoted⟩

end WrittenField

namespace Segment

/-- A unit of literal text; braces are doubled. -/
def spellUnit (u : CodeUnit) : Text := if u = openBrace ∨ u = closeBrace then [u, u] else [u]

def spelling : Segment → Text
  | literal t => t.flatMap spellUnit
  | field f => openBrace :: f.source ++ [closeBrace]

def pieces : Segment → List Piece
  | literal t => t.map .unit
  | field f => [.field f.read]

end Segment

/-! ## Well-formed fields -/

/-- An identifier. -/
def Text.IsName : Text → Prop
  | [] => False
  | u :: rest => u.isNameStart ∧ ∀ v ∈ rest, v.isNamePart

/-- The units that a field has for its ends, its conversion and its format. -/
def fieldMarks : Text := [openBrace, closeBrace, CodeUnit.ofChar '!', CodeUnit.ofChar ':']

/-- The key of an item holds no mark of fields and no closing bracket. -/
def Step.WellFormed : Step → Prop
  | member name => name.IsName
  | item key => key ≠ [] ∧ ∀ u ∈ key, u ∉ fieldMarks ∧ u ≠ CodeUnit.ofChar ']'

structure WrittenField.WellFormed (f : WrittenField) : Prop where
  name : f.name.IsName
  steps : ∀ step ∈ f.steps, step.WellFormed

instance : DecidablePred Text.IsName
  | [] => inferInstanceAs (Decidable False)
  | u :: rest =>
    decidable_of_iff (u.isNameStart ∧ rest.all CodeUnit.isNamePart) (and_congr_right fun _ => List.all_eq_true)

instance : DecidablePred Step.WellFormed
  | .member name => inferInstanceAs (Decidable name.IsName)
  | .item key =>
    decidable_of_iff (key ≠ [] ∧ key.all fun u => u ∉ fieldMarks ∧ u ≠ CodeUnit.ofChar ']')
      (and_congr_right fun _ => by simp only [List.all_eq_true, decide_eq_true_eq])

instance (f : WrittenField) : Decidable f.WellFormed :=
  decidable_of_iff (f.name.IsName ∧ ∀ step ∈ f.steps, step.WellFormed)
    ⟨fun h => ⟨h.1, h.2⟩, fun h => ⟨h.name, h.steps⟩⟩

def Segment.WellFormed : Segment → Prop
  | literal _ => True
  | field f => f.WellFormed

namespace Text

variable {u : CodeUnit} {t : Text}

theorem splitAtUnit?_eq_none (h : u ∉ t) : splitAtUnit? u t = none := by
  induction t with
  | nil => rfl
  | cons v t ih =>
    obtain ⟨hv, ht⟩ := List.ne_and_not_mem_of_not_mem_cons h
    rw [splitAtUnit?, if_neg (Ne.symm hv), ih ht, Option.map_none]

theorem splitAtUnit?_append (h : u ∉ t) (rest : Text) : splitAtUnit? u (t ++ u :: rest) = some (t, rest) := by
  induction t with
  | nil => rw [List.nil_append, splitAtUnit?, if_pos rfl]
  | cons v t ih =>
    obtain ⟨hv, ht⟩ := List.ne_and_not_mem_of_not_mem_cons h
    rw [List.cons_append, splitAtUnit?, if_neg (Ne.symm hv), ih ht, Option.map_some]

/-- No unit of an identifier is anything else. -/
theorem IsName.ne_of_mem {v : CodeUnit} (h : t.IsName) (hu : u ∈ t) (hv : v.isNamePart = false) : u ≠ v := by
  rintro rfl
  cases t with
  | nil => exact h
  | cons w rest =>
    rcases List.mem_cons.mp hu with rfl | hu
    · simp [CodeUnit.isNamePart, h.1] at hv
    · simp [h.2 u hu] at hv

end Text

/-! ## Reading a field -/

section field

variable {f : WrittenField} {u : CodeUnit}

theorem not_isNamePart_of_mark (hu : u ∈ fieldMarks) : u.isNamePart = false := by
  simp only [fieldMarks, List.mem_cons, List.not_mem_nil, or_false] at hu
  rcases hu with rfl | rfl | rfl | rfl <;> rfl

theorem Text.IsName.not_mark {name : Text} (h : name.IsName) (hu : u ∈ name) : u ∉ fieldMarks :=
  fun hmark => h.ne_of_mem hu (not_isNamePart_of_mark hmark) rfl

theorem Step.WellFormed.not_mark {step : Step} (h : step.WellFormed) (hu : u ∈ step.spelling) : u ∉ fieldMarks := by
  cases step with
  | member name =>
    rcases List.mem_cons.mp hu with rfl | hu
    · decide
    · exact Text.IsName.not_mark h hu
  | item key =>
    rcases List.mem_cons.mp hu with rfl | hu
    · decide
    · rcases List.mem_append.mp hu with hu | hu
      · exact (h.2 u hu).1
      · rw [List.mem_singleton.mp hu]
        decide

theorem WrittenField.WellFormed.not_mark (h : f.WellFormed) (hu : u ∈ f.path) : u ∉ fieldMarks := by
  rcases List.mem_append.mp hu with hu | hu
  · exact h.name.not_mark hu
  · obtain ⟨step, hstep, hu⟩ := List.mem_flatMap.mp hu
    exact (h.steps step hstep).not_mark hu

/-- The opening brace of a field is no escape, since a name stands after it. -/
theorem Text.IsName.head_source (h : f.name.IsName) : f.source.head? ≠ some openBrace := by
  obtain ⟨u, hu⟩ : ∃ u, f.name.head? = some u := by
    cases hname : f.name with
    | nil => exact (hname ▸ h : Text.IsName []).elim
    | cons u name => exact ⟨u, rfl⟩
  rw [WrittenField.source, WrittenField.path, List.append_assoc, List.head?_append, hu, Option.some_or]
  rintro ⟨⟩
  exact h.not_mark (List.mem_of_head? hu) (by decide)

/-- The braces around a field are not in it. -/
theorem WrittenField.WellFormed.brace_not_mem (h : f.WellFormed) (hu : u = openBrace ∨ u = closeBrace) :
    u ∉ f.source := by
  have hmark : u ∈ fieldMarks := by rcases hu with rfl | rfl <;> decide
  intro hmem
  rcases List.mem_append.mp hmem with hmem | hmem
  · exact h.not_mark hmem hmark
  · revert hmem
    cases f.conversion <;> rcases hu with rfl | rfl <;> decide

namespace Field

/-- An identifier is read up to the first unit that is no part of one. -/
theorem identifier?_append {name rest : Text} (hname : name.IsName) (hrest : ∀ v ∈ rest.head?, v.isNamePart = false) :
    identifier? (name ++ rest) = some name := by
  cases name with
  | nil => exact hname.elim
  | cons u name =>
    have htake : (name ++ rest).takeWhile CodeUnit.isNamePart = name := by
      rw [List.takeWhile_append_of_pos hname.2]
      cases rest with
      | nil => rw [List.takeWhile_nil, List.append_nil]
      | cons v rest =>
        have hv : v.isNamePart = false := hrest v rfl
        rw [List.takeWhile_cons_of_neg (by rw [hv]; exact Bool.false_ne_true), List.append_nil]
    rw [List.cons_append, identifier?, if_pos hname.1, htake]

theorem isNameStart_of_identifier? {u : CodeUnit} {rest name : Text} (h : identifier? (u :: rest) = some name) :
    u.isNameStart = true := by
  by_cases hu : u.isNameStart = true
  · exact hu
  · rw [identifier?, if_neg hu] at h
    cases h

/-- What follows a name or a step is not part of a name. -/
theorem not_isNamePart_of_head (steps : List Step) (v : CodeUnit) (hv : v ∈ (steps.flatMap Step.spelling).head?) :
    v.isNamePart = false := by
  cases steps with
  | nil => cases hv
  | cons step steps =>
    cases step with
    | member name =>
      obtain rfl : CodeUnit.ofChar '.' = v := Option.some.inj hv
      decide
    | item key =>
      obtain rfl : CodeUnit.ofChar '[' = v := Option.some.inj hv
      decide

theorem step?_spelling {step : Step} (h : step.WellFormed) {rest : Text}
    (hrest : ∀ v ∈ rest.head?, v.isNamePart = false) :
    step? (step.spelling ++ rest) = some (step, rest) := by
  cases step with
  | member name =>
    rw [Step.spelling, List.cons_append, step?, if_pos rfl, identifier?_append h hrest, Option.map_some,
      List.drop_left]
  | item key =>
    have hsplit : Text.splitAtUnit? (CodeUnit.ofChar ']') (key ++ CodeUnit.ofChar ']' :: rest) = some (key, rest) :=
      Text.splitAtUnit?_append (fun hmem => (h.2 _ hmem).2 rfl) rest
    have hempty : ¬ key.isEmpty = true := fun hempty => h.1 (List.isEmpty_iff.mp hempty)
    rw [Step.spelling, List.cons_append, List.append_assoc, List.singleton_append, step?, if_neg (by decide), if_pos rfl,
      hsplit]
    exact if_neg hempty

/-- The steps of a path are read one after another, with a unit of fuel for each. -/
theorem steps?_spelling : ∀ {steps : List Step} {fuel : Nat}, (∀ step ∈ steps, step.WellFormed) →
    (steps.flatMap Step.spelling).length ≤ fuel → steps? fuel (steps.flatMap Step.spelling) = some steps
  | [], fuel, _, _ => by
    rw [List.flatMap_nil]
    cases fuel <;> rfl
  | step :: steps, fuel, h, hfuel => by
    obtain ⟨hstep, hsteps⟩ := List.forall_mem_cons.mp h
    rw [List.flatMap_cons] at hfuel ⊢
    have hread := step?_spelling hstep (not_isNamePart_of_head steps)
    have hlength : 0 < step.spelling.length := by cases step <;> exact Nat.succ_pos _
    rw [List.length_append] at hfuel
    obtain ⟨fuel, rfl⟩ : ∃ n, fuel = n + 1 := ⟨fuel - 1, by omega⟩
    have hrest : steps? fuel (steps.flatMap Step.spelling) = some steps := steps?_spelling hsteps (by omega)
    cases ht : step.spelling ++ steps.flatMap Step.spelling with
    | nil => simp [List.append_eq_nil_iff.mp ht] at hlength
    | cons u t =>
      rw [ht] at hread
      change (step? (u :: t)).bind _ = _
      rw [hread]
      change (steps? fuel (steps.flatMap Step.spelling)).bind _ = _
      rw [hrest]
      rfl

theorem splitConversion_source (h : f.WellFormed) :
    splitConversion f.source = .ok (f.path, f.conversion = .quoted) := by
  have hcolon : CodeUnit.ofChar ':' ∉ f.source := by
    intro hmem
    rcases List.mem_append.mp hmem with hmem | hmem
    · exact h.not_mark hmem (by decide)
    · revert hmem
      cases f.conversion <;> decide
  have hbang : CodeUnit.ofChar '!' ∉ f.path := fun hmem => h.not_mark hmem (by decide)
  have hflag : ∀ flag,
      Text.splitAtUnit? (CodeUnit.ofChar '!') (f.path ++ CodeUnit.ofChar '!' :: flag) = some (f.path, flag) :=
    Text.splitAtUnit?_append hbang
  unfold splitConversion
  rw [Text.splitAtUnit?_eq_none hcolon]
  unfold WrittenField.source
  cases f.conversion with
  | unmarked =>
    rw [FieldConversion.spelling, List.append_nil, Text.splitAtUnit?_eq_none hbang]
    rfl
  | shown =>
    rw [FieldConversion.spelling, hflag]
    rfl
  | quoted =>
    rw [FieldConversion.spelling, hflag]
    rfl

/-- A field is read as it was written. -/
theorem parse_source (h : f.WellFormed) : parse f.source = .ok f.read := by
  have hopen : f.source.contains openBrace = false := by
    rw [List.contains_eq_mem]
    exact decide_eq_false (h.brace_not_mem (.inl rfl))
  have hname : identifier? f.path = some f.name := identifier?_append h.name (not_isNamePart_of_head f.steps)
  have hdrop : f.path.drop f.name.length = f.steps.flatMap Step.spelling := List.drop_left
  have hsteps := steps?_spelling h.steps (Nat.le_refl _)
  unfold parse
  rw [if_neg (by rw [hopen]; exact Bool.false_ne_true), splitConversion_source h]
  cases hpath : f.path with
  | nil =>
    rw [hpath] at hname
    cases hname
  | cons u rest =>
    have hdigit : ¬ u.isDigit = true := by
      have hstart := isNameStart_of_identifier? (hpath ▸ hname)
      exact Lexer.isDigit_of_isNameStart hstart
    rw [hpath] at hname hdrop
    simp only [bind, Except.bind, if_neg hdigit, hname, hdrop, hsteps]
    rfl

end Field
end field

/-! ## Splitting a text -/

namespace Piece

/-- The units of a piece that was found are passed over. -/
theorem scan_skip (offset : Nat) (found rest : Text) :
    scan offset found.length (found ++ rest) = scan (offset + found.length) 0 rest := by
  induction found generalizing offset with
  | nil => rfl
  | cons u found ih =>
    rw [List.cons_append, List.length_cons, scan, ih, Nat.add_assoc, Nat.add_comm 1]

/-- A unit of literal text is read back, whatever follows it. -/
theorem scan_spellUnit (offset : Nat) (u : CodeUnit) (rest : Text) : scan offset 0 (Segment.spellUnit u ++ rest) =
    .unit u :: scan (offset + (Segment.spellUnit u).length) 0 rest := by
  by_cases hbrace : u = openBrace ∨ u = closeBrace
  · have hdoubled : scan (offset + 1) 1 (u :: rest) = scan (offset + 2) 0 rest := scan_skip (offset + 1) [u] rest
    rw [Segment.spellUnit, if_pos hbrace, List.cons_append, List.singleton_append, scan]
    simp only [List.head?_cons, if_true, hdoubled]
    rcases hbrace with rfl | rfl
    · rw [if_pos rfl]
      rfl
    · rw [if_neg (by decide), if_pos rfl]
      rfl
  · obtain ⟨hopen, hclose⟩ := not_or.mp hbrace
    rw [Segment.spellUnit, if_neg hbrace, List.singleton_append, scan]
    simp only [if_neg hopen, if_neg hclose, List.length_singleton]

theorem scan_literal (offset : Nat) (t rest : Text) : scan offset 0 (t.flatMap Segment.spellUnit ++ rest) =
    t.map .unit ++ scan (offset + (t.flatMap Segment.spellUnit).length) 0 rest := by
  induction t generalizing offset with
  | nil => rfl
  | cons u t ih =>
    rw [List.flatMap_cons, List.append_assoc, scan_spellUnit, ih, List.length_append, Nat.add_assoc]
    rfl

/-- A field ends at the first closing brace, and a field that is not read ends the text. -/
theorem scan_source (offset : Nat) {source : Text} (hclose : closeBrace ∉ source) (hopen : source.head? ≠ some openBrace)
    (rest : Text) : scan offset 0 (openBrace :: (source ++ closeBrace :: rest)) =
      match Field.parse source with
      | .ok f => .field f :: scan (offset + (source.length + 2)) 0 rest
      | .error p => [.problem p] := by
  have hhead : (source ++ closeBrace :: rest).head? ≠ some openBrace := by
    cases source with
    | nil => exact fun heq => absurd (Option.some.inj heq) (by decide)
    | cons u source => exact hopen
  have hsplit : Text.splitAtUnit? closeBrace (source ++ closeBrace :: rest) = some (source, rest) :=
    Text.splitAtUnit?_append hclose rest
  have hskip := scan_skip (offset + 1) (source ++ [closeBrace]) rest
  rw [List.length_append, List.length_singleton, List.append_assoc, List.singleton_append] at hskip
  rw [scan]
  simp only [if_true, if_neg hhead, hsplit, hskip]
  cases Field.parse source with
  | ok f => rw [Nat.add_assoc, Nat.add_comm 1]
  | error p => rfl

theorem scan_field (offset : Nat) {f : WrittenField} (h : f.WellFormed) (rest : Text) :
    scan offset 0 (openBrace :: (f.source ++ closeBrace :: rest)) =
      .field f.read :: scan (offset + (f.source.length + 2)) 0 rest := by
  rw [scan_source offset (h.brace_not_mem (.inr rfl)) h.name.head_source, Field.parse_source h]

theorem scan_segment (offset : Nat) {p : Segment} (h : p.WellFormed) (rest : Text) :
    scan offset 0 (p.spelling ++ rest) = p.pieces ++ scan (offset + p.spelling.length) 0 rest := by
  cases p with
  | literal t => exact scan_literal offset t rest
  | field f =>
    rw [Segment.spelling, List.cons_append, List.cons_append, List.append_assoc, List.singleton_append,
      scan_field offset h, List.length_cons, List.length_append]
    rfl

theorem scan_segments (offset : Nat) {ps : List Segment} (h : ∀ p ∈ ps, p.WellFormed) (rest : Text) :
    scan offset 0 (ps.flatMap Segment.spelling ++ rest) =
      ps.flatMap Segment.pieces ++ scan (offset + (ps.flatMap Segment.spelling).length) 0 rest := by
  induction ps generalizing offset with
  | nil => rfl
  | cons p ps ih =>
    obtain ⟨hp, hps⟩ := List.forall_mem_cons.mp h
    rw [List.flatMap_cons, List.flatMap_cons, List.append_assoc, scan_segment offset hp, ih _ hps, List.append_assoc,
      List.length_append, Nat.add_assoc]

/-- A text is split into the parts that it was put together from. -/
theorem ofText_spelling {ps : List Segment} (h : ∀ p ∈ ps, p.WellFormed) :
    ofText (ps.flatMap Segment.spelling) = ps.flatMap Segment.pieces := by
  have hscan := scan_segments 0 h []
  rwa [List.append_nil, scan, List.append_nil] at hscan

end Piece
end Stencil
