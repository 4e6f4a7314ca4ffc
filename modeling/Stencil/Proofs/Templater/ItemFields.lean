import Stencil.Proofs.Render.KeyedReads
import Stencil.Proofs.Templater.FieldValues

/-!
Fields that reach into a mapping by a key. The key stands between brackets, but a field is searched for its format and
its conversion before the brackets are read, and a key of digits stands for a number. So a field reaches the entry
under its key unless a colon or an exclamation mark is in the key, or the key is a number that is written in another way.
-/
namespace Stencil

variable {key : Text}

/-- A key that can stand between brackets and braces, and that is not hidden. -/
structure IsItemKey (key : Text) : Prop where
  nonempty : key ≠ []
  shown : Eval.isHidden key = false
  opening : openBrace ∉ key
  closing : closeBrace ∉ key
  bracket : CodeUnit.ofChar ']' ∉ key

/-- The key that is looked up for the text between brackets: digits stand for a number, and so for its text. -/
def lookedUp (key : Text) : Text :=
  if key.all CodeUnit.isDigit then ((Number.ofText? key).getD .nan).toText else key

theorem lookedUp_eq (h : key.all CodeUnit.isDigit = true → lookedUp key = key) : lookedUp key = key := by
  by_cases hdigits : key.all CodeUnit.isDigit = true
  · exact h hdigits
  · exact if_neg hdigits

/-- Safe integers are looked up as they are written. -/
theorem lookedUp_ofNat {n : Nat} (h : n < 2 ^ 53) : lookedUp (Text.ofNat n) = Text.ofNat n := by
  have hdigits : (Text.ofNat n).all CodeUnit.isDigit = true := List.all_eq_true.mpr (Text.isDigit_of_mem_ofNat n)
  unfold lookedUp
  rw [hdigits, if_pos rfl, Number.ofText?_digits h, Option.getD_some, toText_ofNat h]

/-- A unit that is found behind another one has it in front. -/
theorem Text.mem_of_splitAtUnit? {u v : CodeUnit} {front rest : Text} {halves : Text × Text} (hfront : u ∉ front)
    (hne : v ≠ u) (h : splitAtUnit? u (front ++ v :: rest) = some halves) : v ∈ halves.1 := by
  induction front generalizing halves with
  | nil =>
    rw [List.nil_append, splitAtUnit?, if_neg hne, Option.map_eq_some_iff] at h
    obtain ⟨found, -, rfl⟩ := h
    exact List.mem_cons_self
  | cons w front ih =>
    obtain ⟨hw, hfront⟩ := List.ne_and_not_mem_of_not_mem_cons hfront
    rw [List.cons_append, splitAtUnit?, if_neg (Ne.symm hw), Option.map_eq_some_iff] at h
    obtain ⟨found, hfound, rfl⟩ := h
    exact List.mem_cons_of_mem w (ih hfront hfound)

/-! ## The text of a number is not hidden -/

namespace Number

theorem Decimal.underscore_not_mem (d : Decimal) : ('_' : CodeUnit) ∉ d.toText := by
  have hdigits : ∀ {n : Nat}, ('_' : CodeUnit) ∉ Text.ofNat n := fun hmem =>
    absurd (Text.isDigit_of_mem_ofNat _ _ hmem) (by decide)
  have htake : ∀ {n k : Nat}, ('_' : CodeUnit) ∉ (Text.ofNat n).take k := fun hmem => hdigits (List.mem_of_mem_take hmem)
  have hdrop : ∀ {n k : Nat}, ('_' : CodeUnit) ∉ (Text.ofNat n).drop k := fun hmem => hdigits (List.mem_of_mem_drop hmem)
  have hzeros : ∀ {k : Nat}, ('_' : CodeUnit) ∉ List.replicate k ('0' : CodeUnit) := fun hmem =>
    absurd (List.eq_of_mem_replicate hmem) (by decide)
  have hpoint : ('_' : CodeUnit) ≠ '.' := by decide
  unfold Decimal.toText
  dsimp only
  split
  · simp only [List.mem_append, not_or]
    exact ⟨hdigits, hzeros⟩
  · split
    · simp only [List.mem_append, List.mem_cons, not_or]
      exact ⟨htake, hpoint, hdrop⟩
    · split
      · simp only [List.mem_append, not_or]
        exact ⟨⟨by decide, hzeros⟩, hdigits⟩
      · simp only [List.mem_append, not_or]
        refine ⟨⟨⟨htake, ?_⟩, ?_⟩, hdigits⟩
        · split
          · exact List.not_mem_nil
          · simp only [List.mem_cons, not_or]
            exact ⟨hpoint, hdrop⟩
        · split <;> decide

theorem underscore_not_mem_toText (x : Number) : ('_' : CodeUnit) ∉ x.toText := by
  cases x with
  | nan => decide
  | infinity negative => cases negative <;> decide
  | finite negative grains =>
    have hsign : ('_' : CodeUnit) ∉ if negative && grains != 0 then Text.ofString "-" else [] := by
      split <;> decide
    have hdigits : ('_' : CodeUnit) ∉ Text.ofNat (grains / unit) := fun hmem =>
      absurd (Text.isDigit_of_mem_ofNat _ _ hmem) (by decide)
    unfold toText
    dsimp only
    split
    · exact fun hmem => (List.mem_append.mp hmem).elim hsign hdigits
    · exact fun hmem => (List.mem_append.mp hmem).elim hsign (Decimal.underscore_not_mem _)

theorem isHidden_toText (x : Number) : Eval.isHidden x.toText = false :=
  decide_eq_false fun hhead => underscore_not_mem_toText x (List.mem_of_head? hhead)

end Number

/-! ## Keys in a mapping -/

section take

variable {s : Store} {m u : Value} {target : Keyed}

/-- A key leads to the entry under the key that is looked up for it. -/
theorem take_item (hkeyed : m.keyed? = some target) (hshown : Eval.isHidden key = false)
    (hentry : s.ownValue? target (lookedUp key) = some u) : Field.take m (.item key) s = .ok u s := by
  unfold Field.take lookedUp at *
  dsimp only
  by_cases hdigits : key.all CodeUnit.isDigit = true
  · rw [if_pos hdigits] at hentry ⊢
    apply Eval.item_of_some hkeyed
    rw [Eval.dataAt_keyed hkeyed rfl, Number.isHidden_toText, if_neg Bool.false_ne_true, hentry]
  · rw [if_neg hdigits] at hentry ⊢
    apply Eval.item_of_some hkeyed
    have hdisplay : s.display? (.text key) = some key := rfl
    rw [Eval.dataAt_keyed hkeyed hdisplay, hshown, if_neg Bool.false_ne_true, hentry]

/-- A number that is no key leads nowhere. -/
theorem take_number (hkeyed : m.keyed? = some target) (hdigits : key.all CodeUnit.isDigit = true)
    (hnone : s.ownValue? target (lookedUp key) = none) :
    ∃ reason, Field.take m (.item key) s = .ok (.undefined reason) s := by
  unfold Field.take lookedUp at *
  dsimp only
  rw [if_pos hdigits] at hnone ⊢
  generalize (Number.ofText? key).getD .nan = x at hnone
  have hdata : Eval.dataAt m (.number x) s = .ok none s := by
    rw [Eval.dataAt_keyed hkeyed rfl, Number.isHidden_toText, if_neg Bool.false_ne_true, hnone]
  have hrepr : Eval.repr (.number x) s = .ok x.toText s := readDeep_eq rfl
  refine ⟨.element m.kind x.toText, ?_⟩
  cases m with
  | mapping id | table id =>
    unfold Eval.item
    dsimp only
    rw [bind_ok (Eval.picked?_keyed hkeyed _)]
    dsimp only
    rw [bind_ok hdata]
    exact (bind_ok hrepr).trans rfl
  | _ => cases hkeyed

end take

/-! ## Reading a field with a key -/

section parse

variable {name front back : Text} {conversion : FieldConversion}

/-- A field that takes an item of a variable. -/
def itemField (name key : Text) (conversion : FieldConversion) : WrittenField := ⟨name, [.item key], conversion⟩

theorem source_itemField (name key : Text) (conversion : FieldConversion) : (itemField name key conversion).source =
    name ++ CodeUnit.ofChar '[' :: (key ++ CodeUnit.ofChar ']' :: conversion.spelling) := by
  unfold WrittenField.source WrittenField.path itemField
  simp [Step.spelling]

/-- A key without marks of fields can be written. -/
theorem wellFormed_itemField (hname : name.IsName) (hkey : IsItemKey key) (hcolon : CodeUnit.ofChar ':' ∉ key)
    (hbang : CodeUnit.ofChar '!' ∉ key) : (itemField name key conversion).WellFormed where
  name := hname
  steps := by
    intro step hstep
    obtain rfl := List.mem_singleton.mp hstep
    refine ⟨hkey.nonempty, ?_⟩
    intro u hu
    constructor
    · intro hmark
      simp only [fieldMarks, List.mem_cons, List.not_mem_nil, or_false] at hmark
      rcases hmark with rfl | rfl | rfl | rfl
      · exact hkey.opening hu
      · exact hkey.closing hu
      · exact hbang hu
      · exact hcolon hu
    · rintro rfl
      exact hkey.bracket hu

/-- The braces around a field are not in it, whatever else its key holds. -/
theorem brace_not_mem_itemField (hname : name.IsName) (hkey : IsItemKey key) :
    openBrace ∉ (itemField name key conversion).source ∧ closeBrace ∉ (itemField name key conversion).source := by
  have hopen : openBrace ∉ name := fun hmem => hname.not_mark hmem (by decide)
  have hclose : closeBrace ∉ name := fun hmem => hname.not_mark hmem (by decide)
  have hconversion : openBrace ∉ conversion.spelling ∧ closeBrace ∉ conversion.spelling := by
    cases conversion <;> decide
  rw [source_itemField]
  simp only [List.mem_append, List.mem_cons, not_or]
  exact ⟨⟨hopen, by decide, hkey.opening, by decide, hconversion.1⟩,
    ⟨hclose, by decide, hkey.closing, by decide, hconversion.2⟩⟩

/-- No mark of fields stands in front of the key. -/
theorem mark_not_mem_front {u : CodeUnit} (hname : name.IsName) (hu : u ∈ fieldMarks) (hfront : u ∉ front) :
    u ∉ name ++ CodeUnit.ofChar '[' :: front := by
  have hbracket : CodeUnit.ofChar '[' ∉ fieldMarks := by decide
  simp only [List.mem_append, List.mem_cons, not_or]
  refine ⟨fun hmem => hname.not_mark hmem hu, ?_, hfront⟩
  rintro rfl
  exact hbracket hu

/-- A key is cut at its first mark: what stands behind it is no longer part of the path. -/
theorem source_cut (name front back : Text) (mark : CodeUnit) (conversion : FieldConversion) :
    (itemField name (front ++ mark :: back) conversion).source =
      (name ++ CodeUnit.ofChar '[' :: front) ++ mark :: (back ++ CodeUnit.ofChar ']' :: conversion.spelling) := by
  rw [source_itemField]
  simp

theorem parse_of_splitConversion {source : Text} {problem : FieldProblem} (hopen : openBrace ∉ source)
    (h : Field.splitConversion source = .error problem) : Field.parse source = .error problem := by
  have hcontains : source.contains openBrace = false := by
    rw [List.contains_eq_mem]
    exact decide_eq_false hopen
  unfold Field.parse
  rw [if_neg (by rw [hcontains]; exact Bool.false_ne_true), h]
  rfl

/-- A colon in a key is taken for the start of a format. -/
theorem parse_colon (hname : name.IsName) (hkey : IsItemKey (front ++ CodeUnit.ofChar ':' :: back))
    (hcolon : CodeUnit.ofChar ':' ∉ front) (hbang : CodeUnit.ofChar '!' ∉ front) :
    Field.parse (itemField name (front ++ CodeUnit.ofChar ':' :: back) conversion).source =
      .error (.formatGiven (itemField name (front ++ CodeUnit.ofChar ':' :: back) conversion).source) := by
  apply parse_of_splitConversion (brace_not_mem_itemField hname hkey).1
  have hsplit := Text.splitAtUnit?_append (mark_not_mem_front hname (by decide) hcolon)
    (back ++ CodeUnit.ofChar ']' :: conversion.spelling)
  have hplain : (name ++ CodeUnit.ofChar '[' :: front).contains (CodeUnit.ofChar '!') = false := by
    rw [List.contains_eq_mem]
    exact decide_eq_false (mark_not_mem_front hname (by decide) hbang)
  rw [← source_cut] at hsplit
  unfold Field.splitConversion
  rw [hsplit]
  dsimp only
  rw [hplain]
  rfl

theorem splitConversion_of_bang {source path flag : Text}
    (hbang : Text.splitAtUnit? (CodeUnit.ofChar '!') source = some (path, flag))
    (hcolon : ∀ halves, Text.splitAtUnit? (CodeUnit.ofChar ':') source = some halves → CodeUnit.ofChar '!' ∈ halves.1) :
    Field.splitConversion source =
      if flag = "s" then .ok (path, false) else if flag = "r" then .ok (path, true)
      else .error (.unknownConversion flag source) := by
  unfold Field.splitConversion
  rw [hbang]
  cases hformat : Text.splitAtUnit? (CodeUnit.ofChar ':') source with
  | none => rfl
  | some halves =>
    -- a colon behind the exclamation mark is part of what is read as the conversion
    have hcontains : halves.1.contains (CodeUnit.ofChar '!') = true := by
      rw [List.contains_eq_mem]
      exact decide_eq_true (hcolon halves hformat)
    dsimp only
    rw [hcontains]
    rfl

/-- An exclamation mark in a key is taken for the start of a conversion. -/
theorem parse_bang (hname : name.IsName) (hkey : IsItemKey (front ++ CodeUnit.ofChar '!' :: back))
    (hcolon : CodeUnit.ofChar ':' ∉ front) (hbang : CodeUnit.ofChar '!' ∉ front) :
    Field.parse (itemField name (front ++ CodeUnit.ofChar '!' :: back) conversion).source =
      .error (.unknownConversion (back ++ CodeUnit.ofChar ']' :: conversion.spelling)
        (itemField name (front ++ CodeUnit.ofChar '!' :: back) conversion).source) := by
  apply parse_of_splitConversion (brace_not_mem_itemField hname hkey).1
  have hsplit := Text.splitAtUnit?_append (mark_not_mem_front hname (by decide) hbang)
    (back ++ CodeUnit.ofChar ']' :: conversion.spelling)
  rw [← source_cut] at hsplit
  have hflag : ∀ flag : Text, CodeUnit.ofChar ']' ∉ flag →
      back ++ CodeUnit.ofChar ']' :: conversion.spelling ≠ flag := by
    rintro flag hflag rfl
    exact hflag (List.mem_append_right _ List.mem_cons_self)
  rw [splitConversion_of_bang hsplit, if_neg (hflag _ (by decide)), if_neg (hflag _ (by decide))]
  intro halves hhalves
  rw [source_cut] at hhalves
  exact Text.mem_of_splitAtUnit? (mark_not_mem_front hname (by decide) hcolon) (by decide) hhalves

end parse

/-! ## Texts with such a field -/

namespace Templater

section around

variable {w v : World} {context : Context} {before after : List Segment} {textsBefore textsAfter : List Text}
  {f : WrittenField}

theorem spelling_around (before after : List Segment) (f : WrittenField) :
    (before ++ .field f :: after).flatMap Segment.spelling =
      before.flatMap Segment.spelling ++ openBrace :: (f.source ++ closeBrace :: after.flatMap Segment.spelling) := by
  simp [Segment.spelling]

/-- A field that is not read is reported, whatever follows it. -/
theorem process_unread (t : Templater) (hvariant : t.variant = .placeholder) (filename : Option Text)
    (config : Option Config) (hcontext : t.context filename config w = .ok context v)
    (hbefore : List.Forall₂ (Segment.StandsFor context v.store) before textsBefore) {problem : FieldProblem}
    (hclose : closeBrace ∉ f.source) (hname : f.name.IsName) (hparse : Field.parse f.source = .error problem) :
    outcome (t.process ((before ++ .field f :: after).flatMap Segment.spelling) filename config) w =
      .error (.field problem filename) := by
  obtain ⟨found, w', hfound, -, -⟩ := Piece.expand_segments filename hbefore v (.refl v.store)
  have hpieces : Piece.ofText ((before ++ .field f :: after).flatMap Segment.spelling) =
      before.flatMap Segment.pieces ++ [Piece.problem problem] := by
    rw [spelling_around]
    unfold Piece.ofText
    rw [Piece.scan_segments 0 (wellFormed_of_standsFor hbefore), Piece.scan_source _ hclose hname.head_source, hparse]
  have hrun : (before.flatMap Segment.pieces ++ [Piece.problem problem]).mapM (Piece.expand context filename) v =
      .error (.field problem filename) w' := by
    rw [List.mapM_append, bind_ok hfound]
    rfl
  rw [outcome_process t hvariant filename config hcontext, hpieces, outcome_eq_error hrun]

/-- A field that does not lead to a value is reported. -/
theorem process_unresolved (t : Templater) (hvariant : t.variant = .placeholder) (filename : Option Text)
    (config : Option Config) (hcontext : t.context filename config w = .ok context v)
    (hbefore : List.Forall₂ (Segment.StandsFor context v.store) before textsBefore)
    (hafter : List.Forall₂ (Segment.StandsFor context v.store) after textsAfter) (hformed : f.WellFormed) {m : Value}
    {step : Step} (hsteps : f.steps = [step]) (hm : context.lookup f.name = some m)
    (htake : ∀ s, v.store.Recounted s → ∃ reason, Field.take m step s = .ok (.undefined reason) s) :
    outcome (t.process ((before ++ .field f :: after).flatMap Segment.spelling) filename config) w =
      .error (.field (.unresolved f.source) none) := by
  obtain ⟨found, w', hfound, -, hw'⟩ := Piece.expand_segments filename hbefore v (.refl v.store)
  have hall : ∀ p ∈ before ++ .field f :: after, p.WellFormed := by
    intro p hp
    rcases List.mem_append.mp hp with hp | hp
    · exact wellFormed_of_standsFor hbefore p hp
    · rcases List.mem_cons.mp hp with rfl | hp
      · exact hformed
      · exact wellFormed_of_standsFor hafter p hp
  obtain ⟨reason, hundefined⟩ := htake w'.store hw'
  have hexpand : Piece.expand context filename (.field f.read) w' = .error (.field (.unresolved f.source) none) w' := by
    change f.read.substitute context w' = _
    have hadvance : Field.advance f.source m step w' = .error (.field (.unresolved f.source) none) w' := by
      have htaken : Action.evaluate (Field.take m step) w' = .ok (.undefined reason) w' := by
        rw [Action.evaluate_eq, hundefined]
      unfold Field.advance
      rw [bind_ok htaken]
      rfl
    rw [Field.substitute_eq f.read hm]
    apply bind_error
    change (f.steps.foldlM (Field.advance f.source) m) w' = _
    rw [hsteps, List.foldlM_cons, bind_error hadvance]
  have hrun : ((before ++ .field f :: after).flatMap Segment.pieces).mapM (Piece.expand context filename) v =
      .error (.field (.unresolved f.source) none) w' := by
    rw [List.flatMap_append, List.flatMap_cons, List.mapM_append, bind_ok hfound]
    apply bind_error
    change (Piece.field f.read :: after.flatMap Segment.pieces).mapM (Piece.expand context filename) w' = _
    rw [List.mapM_cons, bind_error hexpand]
  rw [outcome_process t hvariant filename config hcontext, Piece.ofText_spelling hall, outcome_eq_error hrun]

/-- A field that leads to a value is replaced by the text of it. -/
theorem process_resolved (t : Templater) (hvariant : t.variant = .placeholder) (filename : Option Text)
    (config : Option Config) (hcontext : t.context filename config w = .ok context v)
    (hbefore : List.Forall₂ (Segment.StandsFor context v.store) before textsBefore)
    (hafter : List.Forall₂ (Segment.StandsFor context v.store) after textsAfter) (hformed : f.WellFormed) {text : Text}
    (hf : f.StandsFor context v.store text) :
    outcome (t.process ((before ++ .field f :: after).flatMap Segment.spelling) filename config) w =
      .ok ⟨some (textsBefore ++ text :: textsAfter).flatten, []⟩ := by
  have hall : List.Forall₂ (Segment.StandsFor context v.store) (before ++ .field f :: after)
      (textsBefore ++ text :: textsAfter) := List.rel_append hbefore (.cons ⟨hformed, hf⟩ hafter)
  obtain ⟨found, w', hfound, htexts, -⟩ := Piece.expand_segments filename hall v (.refl v.store)
  rw [← Piece.ofText_spelling (wellFormed_of_standsFor hall)] at hfound
  rw [outcome_process t hvariant filename config hcontext, outcome_eq_ok hfound, ← htexts]

/-- The whole text, where a field leads to a value: the text of the value takes its place, or it is reported if the
value is undefined. -/
structure Replaced (s : Store) (textsBefore textsAfter : List Text) (f : WrittenField) (y : Value)
    (result : Except Failure Outcome) : Prop where
  defined : y.IsDefined → ∀ text, s.converted? y f.conversion = some text →
    result = .ok ⟨some (textsBefore ++ text :: textsAfter).flatten, []⟩
  undefined : ¬ y.IsDefined → result = .error (.field (.unresolved f.source) none)

/-- What a key without marks leads to. -/
theorem process_lookedUp (t : Templater) (hvariant : t.variant = .placeholder) (filename : Option Text)
    (config : Option Config) (hcontext : t.context filename config w = .ok context v)
    (hbefore : List.Forall₂ (Segment.StandsFor context v.store) before textsBefore)
    (hafter : List.Forall₂ (Segment.StandsFor context v.store) after textsAfter) {name key : Text}
    {conversion : FieldConversion} (hformed : (itemField name key conversion).WellFormed) {m : Value} {target : Keyed}
    (hm : context.lookup name = some m) (hkeyed : m.keyed? = some target) (hshown : Eval.isHidden key = false) {x : Value}
    (hentry : v.store.ownValue? target (lookedUp key) = some x) :
    Replaced v.store textsBefore textsAfter (itemField name key conversion) x
      (outcome (t.process ((before ++ .field (itemField name key conversion) :: after).flatMap Segment.spelling) filename
        config) w) := by
  constructor
  case defined =>
    intro hdefined text htext
    have hstands : (itemField name key conversion).StandsFor context v.store text :=
      ⟨m, x, hm, .step (take_item hkeyed hshown hentry) hdefined (.here x), htext⟩
    exact process_resolved t hvariant filename config hcontext hbefore hafter hformed hstands
  case undefined =>
    intro hundefined
    apply process_unresolved t hvariant filename config hcontext hbefore hafter hformed rfl hm
    intro s hs
    rw [← hs.ownValue?_eq] at hentry
    have htake := take_item hkeyed hshown hentry
    cases x with
    | undefined reason => exact ⟨reason, htake⟩
    | _ => exact absurd trivial hundefined

/-- A field with a key in brackets is replaced by the text of the entry under that key, in whatever text it stands,
unless a mark of fields is in the key, which makes it an error, or the key is a number that is written in another way,
which leads to the entry under the text of the number. -/
theorem process_item_field (t : Templater) (hvariant : t.variant = .placeholder) (filename : Option Text)
    (config : Option Config) (hcontext : t.context filename config w = .ok context v)
    (hbefore : List.Forall₂ (Segment.StandsFor context v.store) before textsBefore)
    (hafter : List.Forall₂ (Segment.StandsFor context v.store) after textsAfter) {name key : Text} (hname : name.IsName)
    (hkey : IsItemKey key) {m x : Value} {target : Keyed} (hm : context.lookup name = some m)
    (hkeyed : m.keyed? = some target) (hentry : v.store.ownValue? target key = some x) (conversion : FieldConversion) :
    let field := itemField name key conversion
    let result := outcome (t.process ((before ++ .field field :: after).flatMap Segment.spelling) filename config) w
    (CodeUnit.ofChar ':' ∉ key → CodeUnit.ofChar '!' ∉ key → (key.all CodeUnit.isDigit = true → lookedUp key = key) →
      Replaced v.store textsBefore textsAfter field x result) ∧
    (key.all CodeUnit.isDigit = true → lookedUp key ≠ key →
      (∀ y, v.store.ownValue? target (lookedUp key) = some y →
        Replaced v.store textsBefore textsAfter field y result) ∧
      (v.store.ownValue? target (lookedUp key) = none → result = .error (.field (.unresolved field.source) none))) ∧
    (∀ front back, key = front ++ CodeUnit.ofChar ':' :: back → CodeUnit.ofChar ':' ∉ front →
      CodeUnit.ofChar '!' ∉ front → result = .error (.field (.formatGiven field.source) filename)) ∧
    (∀ front back, key = front ++ CodeUnit.ofChar '!' :: back → CodeUnit.ofChar ':' ∉ front →
      CodeUnit.ofChar '!' ∉ front → result = .error (.field
        (.unknownConversion (back ++ CodeUnit.ofChar ']' :: conversion.spelling) field.source) filename)) := by
  intro field result
  have hbrace : closeBrace ∉ field.source := (brace_not_mem_itemField hname hkey).2
  refine ⟨?_, ?_, ?_, ?_⟩
  · intro hcolon hbang hsame
    have hformed : field.WellFormed := wellFormed_itemField hname hkey hcolon hbang
    rw [← lookedUp_eq hsame] at hentry
    exact process_lookedUp t hvariant filename config hcontext hbefore hafter hformed hm hkeyed hkey.shown hentry
  · intro hdigits _
    have hplain : ∀ u, u.isDigit = false → u ∉ key := by
      intro u hu hmem
      rw [List.all_eq_true.mp hdigits u hmem] at hu
      cases hu
    have hformed : field.WellFormed :=
      wellFormed_itemField hname hkey (hplain _ (by decide)) (hplain _ (by decide))
    constructor
    · intro y hy
      exact process_lookedUp t hvariant filename config hcontext hbefore hafter hformed hm hkeyed hkey.shown hy
    · intro hnone
      apply process_unresolved t hvariant filename config hcontext hbefore hafter hformed rfl hm
      intro s hs
      rw [← hs.ownValue?_eq] at hnone
      exact take_number hkeyed hdigits hnone
  · rintro front back rfl hcolon hbang
    exact process_unread t hvariant filename config hcontext hbefore hbrace hname (parse_colon hname hkey hcolon hbang)
  · rintro front back rfl hcolon hbang
    exact process_unread t hvariant filename config hcontext hbefore hbrace hname (parse_bang hname hkey hcolon hbang)

end around
/-- The entries of a mapping with keys of several kinds. -/
def variousKeys : Properties :=
  [("a b", .data (.text "x")), ("a:b", .data (.text "x")), ("a!b", .data (.text "x")), ("07", .data (.text "x"))]

def various : World := ⟨{ Store.empty with mappings := #[variousKeys] }, []⟩

/-- A key with a blank, in parentheses. -/
theorem process_item_field_of_blank :
    outcome (process ⟨.placeholder, [("v", .mapping 0)]⟩ "(\x7bv[a b]!r\x7d)" none none) various =
      .ok ⟨some (Text.ofString "('x')"), []⟩ := by
  have hcontext : context ⟨.placeholder, [("v", .mapping 0)]⟩ none none various =
      .ok [("test_value", .text "__test__"), ("v", .mapping 1)]
        ⟨{ Store.empty with mappings := #[variousKeys, variousKeys] }, _⟩ := rfl
  have hkey : IsItemKey "a b" := ⟨by decide, by decide, by decide, by decide, by decide⟩
  have hname : Text.IsName "v" := by decide
  have hreplaced := (process_item_field _ rfl none none hcontext
    (.cons (Segment.standsFor_literal _ _ [CodeUnit.ofChar '(']) .nil)
    (.cons (Segment.standsFor_literal _ _ [CodeUnit.ofChar ')']) .nil) hname hkey rfl rfl rfl
    .quoted).1 (by decide) (by decide) (fun _ => rfl)
  exact hreplaced.defined trivial "'x'" rfl

/-- Keys that can stand between brackets, but whose entries are not reached. -/
theorem process_misses_entries :
    let t : Templater := ⟨.placeholder, [("v", .mapping 0)]⟩
    (∃ w, t.context none none various = .ok [("test_value", .text "__test__"), ("v", .mapping 1)] w ∧
      ∀ key ∈ [Text.ofString "a:b", Text.ofString "a!b", Text.ofString "07"], IsItemKey key ∧
        w.store.ownValue? (.mapping 1) key = some (.text "x") ∧
        w.store.converted? (.text "x") .unmarked = some (Text.ofString "x")) ∧
      outcome (t.process "\x7bv[a:b]\x7d" none none) various = .error (.field (.formatGiven "v[a:b]") none) ∧
      outcome (t.process "\x7bv[a!b]\x7d" none none) various = .error (.field (.unknownConversion "b]" "v[a!b]") none) ∧
      outcome (t.process "\x7bv[07]\x7d" none none) various = .error (.field (.unresolved "v[07]") none) := by
  refine ⟨⟨⟨{ Store.empty with mappings := #[variousKeys, variousKeys] }, _⟩, rfl, ?_⟩, rfl, rfl, ?_⟩
  · simp only [List.mem_cons, List.not_mem_nil, or_false]
    rintro key (rfl | rfl | rfl)
    · exact ⟨⟨by decide, by decide, by decide, by decide, by decide⟩, rfl, rfl⟩
    · exact ⟨⟨by decide, by decide, by decide, by decide, by decide⟩, rfl, rfl⟩
    · exact ⟨⟨by decide, by decide, by decide, by decide, by decide⟩, rfl, rfl⟩
  · decide +kernel

end Templater

end Stencil
