import Stencil.Proofs.Pointwise
import Stencil.Proofs.Running
import Stencil.Proofs.Templater.WrittenFields
import Stencil.Proofs.Value.Recounting
import Stencil.Templater.Basic

/-!
The values of fields. What a field stands for is settled by the context and by the contents of the store. Fields only
add to the count of functions there, so each field of a text stands for what it stands for alone.
-/

namespace Stencil

theorem Store.Recounted.sequence?_eq {s t : Store} (h : s.Recounted t) : Eval.sequence? t = Eval.sequence? s := by
  obtain ⟨n, rfl⟩ := h
  rfl

/-- One value, except for the number that a function got when it was counted. -/
inductive Value.Recounted : Value → Value → Prop
  | same (v : Value) : Recounted v v
  | native (i j : Nat) (f : Native) : Recounted (.native i f) (.native j f)

/-! ## What a step leads to -/

/-- A computation gives one result on stores with the same contents, and changes no store but for its count. -/
def Recounts {α : Type} (x : Eval α) (R : α → α → Prop) : Prop :=
  ∀ s t a s', s.Recounted t → x s = .ok a s' → ∃ b t', x t = .ok b t' ∧ t.Recounted t' ∧ s.Recounted s' ∧ R a b

namespace Recounts

variable {α β : Type} {x : Eval α} {Q : β → β → Prop}

theorem pure {a : α} {R : α → α → Prop} (h : R a a) : Recounts (pure a) R := by
  intro s t b s' hst hrun
  cases hrun
  exact ⟨a, t, rfl, .refl t, .refl s, h⟩

theorem throw {e : Fault} {R : α → α → Prop} : Recounts (throw e) R := by
  intro s t a s' hst hrun
  cases hrun

theorem bind {f : α → Eval β} (h : Recounts x Eq) (hf : ∀ a, Recounts (f a) Q) : Recounts (x >>= f) Q := by
  intro s t b s'' hst hrun
  obtain ⟨a, s', hx, hrun⟩ := exists_of_bind_ok hrun
  obtain ⟨a', t', hy, ht, hs, rfl⟩ := h s t a s' hst hx
  obtain ⟨b', t'', hrun', ht', hs', hb⟩ := hf a s' t' b s'' (hs.symm.trans (hst.trans ht)) hrun
  exact ⟨b', t'', (bind_ok hy).trans hrun', ht.trans ht', hs.trans hs', hb⟩

/-- A computation that goes by what it reads in the contents of a store. -/
theorem get_bind {f : Store → Eval β} (hf : ∀ s t, s.Recounted t → f t = f s) (h : ∀ s, Recounts (f s) Q) :
    Recounts (get >>= f) Q := by
  intro s t b s' hst hrun
  obtain ⟨c, t', hrun', hmore⟩ := h s s t b s' hst hrun
  refine ⟨c, t', ?_, hmore⟩
  change f t t = _
  rw [hf s t hst, hrun']

theorem readDeep {f : Store → Option α} (hf : ∀ s t, s.Recounted t → f t = f s) : Recounts (Eval.readDeep f) Eq := by
  refine get_bind (fun s t hst => by rw [hf s t hst]) fun s => ?_
  cases f s with
  | none => exact .throw
  | some a => exact .pure rfl

end Recounts

namespace Eval

theorem recounts_display (v : Value) : Recounts (display v) Eq := .readDeep fun _ _ h => by rw [h.display?_eq]

theorem recounts_repr (v : Value) : Recounts (repr v) Eq := .readDeep fun _ _ h => by rw [h.repr?_eq]

theorem recounts_newNative (f : Native) : Recounts (newNative f) Value.Recounted := by
  intro s t a s' hst hrun
  cases hrun
  exact ⟨_, _, rfl, ⟨_, rfl⟩, ⟨_, rfl⟩, .native _ _ f⟩

theorem recounts_bound (kind : Kind) (name : Text) (f? : Option Native) :
    Recounts (bound kind name f?) Value.Recounted := by
  cases f? with
  | none => exact .pure (.same _)
  | some f => exact recounts_newNative f

theorem recounts_member (v : Value) (name : Text) : Recounts (member v name) Value.Recounted := by
  unfold member
  cases isHidden name with
  | true => cases v <;> exact .throw
  | false =>
    cases v with
    | undefined reason => exact .throw
    | text t => exact recounts_bound _ _ _
    | safe t => exact recounts_bound _ _ _
    | list id => exact recounts_bound _ _ _
    | mapping id | table id =>
      cases KeyedMethod.ofName? name with
      | some m => exact recounts_newNative _
      | none =>
        refine .get_bind (fun s t hst => by rw [hst.ownValue?_eq]) fun s => ?_
        split
        · exact .pure (.same _)
        · exact .pure (.same _)
    | _ => exact .pure (.same _)

theorem recounts_keyOf (key : Value) : Recounts (keyOf key) Eq := by
  cases key with
  | text t => exact .pure rfl
  | _ => exact recounts_display _

theorem recounts_dataAt (v key : Value) : Recounts (dataAt v key) Eq := by
  unfold dataAt
  cases v.keyed? with
  | none => exact .pure rfl
  | some target =>
    refine (recounts_keyOf key).bind fun name => ?_
    cases isHidden name with
    | true => exact .throw
    | false => exact .get_bind (fun s t hst => by rw [hst.ownValue?_eq]) fun s => .pure rfl

theorem recounts_picked? (v key : Value) : Recounts (picked? v key) Eq := by
  cases key with
  | number x => exact .get_bind (fun s t hst => by rw [hst.sequence?_eq]) fun s => .pure rfl
  | _ => exact .pure rfl

theorem recounts_item (v key : Value) : Recounts (item v key) Value.Recounted := by
  cases v with
  | undefined reason => exact .throw
  | _ =>
    refine (recounts_picked? _ key).bind fun p => ?_
    cases p with
    | some p => exact .pure (.same _)
    | none =>
      refine (recounts_dataAt _ key).bind fun found => ?_
      cases found with
      | some v => exact .pure (.same v)
      | none =>
        cases key with
        | text name => exact recounts_member _ name
        | _ => exact (recounts_repr _).bind fun key => .pure (.same _)

end Eval

theorem Field.recounts_take (v : Value) (step : Step) : Recounts (Field.take v step) Value.Recounted := by
  cases step with
  | member name => exact Eval.recounts_member v name
  | item key =>
    unfold Field.take
    dsimp only
    split
    · exact Eval.recounts_item v _
    · exact Eval.recounts_item v _

/-! ## What a field stands for -/

def Value.IsDefined : Value → Prop
  | .undefined _ => False
  | _ => True

/-- The steps lead from one value to another in a store, and none of them to an undefined value. -/
inductive Store.Leads (s : Store) : Value → List Step → Value → Prop
  | here (v : Value) : Leads s v [] v
  | step {v u w : Value} {step : Step} {steps : List Step} {s' : Store} (htake : Field.take v step s = .ok u s')
      (hdefined : u.IsDefined) (hrest : Leads s u steps w) : Leads s v (step :: steps) w

/-- The text that a value is converted to. -/
def Store.converted? (s : Store) (v : Value) : FieldConversion → Option Text
  | .unmarked | .shown => s.display? v
  | .quoted => s.repr? v

/-- The field resolves in a context and stands for a text: that of the value which its steps lead to. -/
def WrittenField.StandsFor (f : WrittenField) (context : Context) (s : Store) (text : Text) : Prop :=
  ∃ start v, context.lookup f.name = some start ∧ s.Leads start f.steps v ∧ s.converted? v f.conversion = some text

/-- Literal text stands for itself, and a field for the text of its value. -/
def Segment.StandsFor (context : Context) (s : Store) : Segment → Text → Prop
  | .literal t, text => text = t
  | .field f, text => f.WellFormed ∧ f.StandsFor context s text

theorem Segment.standsFor_literal (context : Context) (s : Store) (t : Text) : StandsFor context s (.literal t) t := rfl

theorem Store.Recounted.converted?_eq {s t : Store} (h : s.Recounted t) {v w : Value} (hvw : v.Recounted w)
    (c : FieldConversion) : t.converted? w c = s.converted? v c := by
  cases hvw with
  | same v => cases c <;> simp only [Store.converted?, h.display?_eq, h.repr?_eq]
  | native i j f => cases c <;> rfl

namespace Field

variable {s t : Store} {context : Context} {f : WrittenField} {text : Text} {w : World}

/-- Nothing is found in a function. -/
theorem take_native (i : Nat) (g : Native) (step : Step) {u : Value} {s' : Store}
    (h : take (.native i g) step s = .ok u s') : ¬ u.IsDefined := by
  have hmember : ∀ name, Eval.member (.native i g) name s = .ok u s' → ¬ u.IsDefined := by
    intro name hrun
    unfold Eval.member at hrun
    cases hname : Eval.isHidden name with
    | true =>
      rw [hname] at hrun
      cases hrun
    | false =>
      rw [hname] at hrun
      cases hrun
      exact id
  cases step with
  | member name => exact hmember name h
  | item key =>
    unfold take at h
    dsimp only at h
    split at h
    · -- A number picks from no items, and it is no key of a function either.
      generalize (Number.ofText? key).getD .nan = x at h
      have hpicked : Eval.picked? (.native i g) (.number x) s = .ok none s := by
        change EStateM.Result.ok (x.toInt?.bind fun n => (Eval.sequence? s (.native i g)).map (x, n, ·)) s = _
        cases x.toInt? <;> rfl
      unfold Eval.item at h
      dsimp only at h
      have hdata : Eval.dataAt (.native i g) (.number x) s = .ok none s := rfl
      rw [bind_ok hpicked] at h
      dsimp only at h
      rw [bind_ok hdata] at h
      obtain ⟨key, s'', -, h⟩ := exists_of_bind_ok h
      cases h
      exact id
    · exact hmember key h

/-- One step of a field into a value. -/
def advance (source : Text) (v : Value) (step : Step) : Action Value := do
  match ← Action.evaluate (take v step) with
  | .undefined _ => throw (.field (.unresolved source) none)
  | v => return v

theorem substitute_eq (f : Field) {start : Value} (h : context.lookup f.name = some start) : f.substitute context =
    f.steps.foldlM (advance f.source) start >>= fun v =>
      Action.evaluate (if f.quoted then Eval.repr v else Eval.display v) := by
  unfold substitute
  rw [h]
  rfl

theorem advance_eq {source : Text} {v u : Value} {step : Step} {w : World} {s' : Store}
    (h : take v step w.store = .ok u s') (hdefined : u.IsDefined) :
    advance source v step w = .ok u { w with store := s' } := by
  have hrun : Action.evaluate (take v step) w = .ok u { w with store := s' } := by rw [Action.evaluate_eq, h]
  unfold advance
  rw [bind_ok hrun]
  cases u with
  | undefined reason => exact hdefined.elim
  | _ => rfl

/-- The steps that lead to a value lead there in every store with the same contents. -/
theorem advances_of_leads {source : Text} {v u : Value} {steps : List Step} (h : s.Leads v steps u) (w : World)
    (hw : s.Recounted w.store) : ∃ u' w', steps.foldlM (advance source) v w = .ok u' w' ∧ s.Recounted w'.store ∧
      u.Recounted u' := by
  induction h generalizing w with
  | here v => exact ⟨v, w, rfl, hw, .same v⟩
  | @step v u x step steps s' htake hdefined hrest ih =>
    obtain ⟨u', t, htake', ht, -, hu⟩ := recounts_take v step s w.store u s' hw htake
    have hdefined' : u'.IsDefined := by
      cases hu with
      | same => exact hdefined
      | native => exact trivial
    rw [List.foldlM_cons, bind_ok (advance_eq htake' hdefined')]
    cases hu with
    | same => exact ih _ (hw.trans ht)
    | native i j g =>
      -- Only the last step of a field can lead to a function.
      cases hrest with
      | here => exact ⟨_, _, rfl, hw.trans ht, .native i j g⟩
      | step htake hdefined => exact (take_native i g _ htake hdefined).elim

/-- A field is replaced by the text that it stands for, in every store with the same contents. -/
theorem substitute_of_standsFor (h : f.StandsFor context s text) (w : World) (hw : s.Recounted w.store) :
    ∃ w', f.read.substitute context w = .ok text w' ∧ s.Recounted w'.store := by
  obtain ⟨start, v, hstart, hleads, htext⟩ := h
  obtain ⟨u, w', hrun, hw', hvu⟩ : ∃ u w', f.read.steps.foldlM (advance f.read.source) start w = .ok u w' ∧
      s.Recounted w'.store ∧ v.Recounted u := advances_of_leads hleads w hw
  rw [← hw'.converted?_eq hvu] at htext
  refine ⟨w', ?_, hw'⟩
  rw [substitute_eq f.read hstart, bind_ok hrun, Action.evaluate_eq]
  have hread : (if f.read.quoted then Eval.repr u else Eval.display u) w'.store = .ok text w'.store := by
    unfold Store.converted? at htext
    unfold WrittenField.read
    cases hconversion : f.conversion with
    | quoted =>
      rw [hconversion] at htext
      exact readDeep_eq htext
    | _ =>
      rw [hconversion] at htext
      exact readDeep_eq htext
  rw [hread]

end Field

namespace Piece

variable {s : Store} {context : Context}

theorem expand_units (filename : Option Text) (t : Text) (w : World) :
    (t.map Piece.unit).mapM (expand context filename) w = .ok (t.map ([·])) w := by
  induction t with
  | nil => rfl
  | cons u t ih =>
    have hunit : expand context filename (.unit u) w = .ok [u] w := rfl
    rw [List.map_cons, List.mapM_cons, bind_ok hunit, bind_ok ih]
    rfl

/-- The pieces of parts that stand for texts are replaced by these texts, and the contents of the store stay. -/
theorem expand_segments (filename : Option Text) {ps : List Segment} {texts : List Text}
    (h : List.Forall₂ (Segment.StandsFor context s) ps texts) (w : World) (hw : s.Recounted w.store) :
    ∃ found w', (ps.flatMap Segment.pieces).mapM (expand context filename) w = .ok found w' ∧
      found.flatten = texts.flatten ∧ s.Recounted w'.store := by
  induction h generalizing w with
  | nil => exact ⟨[], w, rfl, rfl, hw⟩
  | @cons p text ps texts hp _ ih =>
    obtain ⟨found, v, hfound, hv, htext⟩ : ∃ found v, p.pieces.mapM (expand context filename) w = .ok found v ∧
        s.Recounted v.store ∧ found.flatten = text := by
      cases p with
      | literal t =>
        refine ⟨t.map ([·]), w, expand_units filename t w, hw, ?_⟩
        rw [hp]
        exact List.flatMap_singleton' t
      | field f =>
        obtain ⟨v, hrun, hv⟩ := Field.substitute_of_standsFor hp.2 w hw
        refine ⟨[text], v, ?_, hv, List.flatten_singleton⟩
        have hexpand : expand context filename (.field f.read) w = .ok text v := hrun
        rw [Segment.pieces, List.mapM_cons, bind_ok hexpand]
        rfl
    obtain ⟨more, w', hmore, htexts, hw'⟩ := ih v hv
    refine ⟨found ++ more, w', ?_, ?_, hw'⟩
    · rw [List.flatMap_cons, List.mapM_append, bind_ok hfound, bind_ok hmore]
      rfl
    · rw [List.flatten_append, List.flatten_cons, htext, htexts]

theorem expand_pieces (filename : Option Text) {ps : List Segment} {texts : List Text}
    (h : List.Forall₂ (Segment.StandsFor context s) ps texts) (w : World) (hw : s.Recounted w.store) :
    ∃ found w', (ps.flatMap Segment.pieces).mapM (expand context filename) w = .ok found w' ∧
      found.flatten = texts.flatten := by
  obtain ⟨found, w', hfound, htexts, -⟩ := expand_segments filename h w hw
  exact ⟨found, w', hfound, htexts⟩

end Piece

namespace Templater

/-- Parts that stand for texts are well-formed. -/
theorem wellFormed_of_standsFor {context : Context} {s : Store} {ps : List Segment} {texts : List Text}
    (h : List.Forall₂ (Segment.StandsFor context s) ps texts) : ∀ p ∈ ps, p.WellFormed := by
  intro p hp
  have hflip : List.Forall₂ (flip (Segment.StandsFor context s)) texts ps := h.flip
  obtain ⟨text, -, htext⟩ := exists_of_forall₂ hflip hp
  cases p with
  | literal t => exact trivial
  | field f => exact htext.1

/-- A text becomes what its pieces are replaced by, or the problem of the first one that is not replaced. -/
theorem outcome_process (t : Templater) (hvariant : t.variant = .placeholder) (filename : Option Text)
    (config : Option Config) {w v : World} {context : Context} (hcontext : t.context filename config w = .ok context v)
    (text : Text) : outcome (t.process text filename config) w =
      match outcome ((Piece.ofText text).mapM (Piece.expand context filename)) v with
      | .ok found => .ok ⟨some found.flatten, []⟩
      | .error e => .error e := by
  have hprocess : t.process text filename config = t.replaceFields text filename config := by
    unfold process
    rw [hvariant]
  rw [hprocess, replaceFields]
  cases hrun : (Piece.ofText text).mapM (Piece.expand context filename) v with
  | ok found v' =>
    rw [outcome_eq_ok hrun]
    exact outcome_eq_ok ((bind_ok hcontext).trans (bind_ok hrun))
  | error e v' =>
    rw [outcome_eq_error hrun]
    exact outcome_eq_error ((bind_ok hcontext).trans (bind_error hrun))

/-- A text that is put together from literal texts and from fields that resolve becomes these texts and the texts of the
fields, one after the other. -/
theorem process_segments (t : Templater) (hvariant : t.variant = .placeholder) (filename : Option Text)
    (config : Option Config) {w v : World} {context : Context} (hcontext : t.context filename config w = .ok context v)
    {ps : List Segment} {texts : List Text} (hps : List.Forall₂ (Segment.StandsFor context v.store) ps texts) :
    outcome (t.process (ps.flatMap Segment.spelling) filename config) w = .ok ⟨some texts.flatten, []⟩ := by
  obtain ⟨found, w', hfound, htexts⟩ := Piece.expand_pieces filename hps v (.refl v.store)
  rw [← Piece.ofText_spelling (wellFormed_of_standsFor hps)] at hfound
  rw [outcome_process t hvariant filename config hcontext, outcome_eq_ok hfound, ← htexts]

def marked (inner : MappingId) : Properties :=
  [("a", .data (.mapping inner)), ("\x7b", .data (.bool true)), (":", .data (.bool true))]

/-- A mapping in a mapping that has keys with marks of fields. -/
def reachable : World := ⟨{ Store.empty with mappings := #[marked 1, [("b", .data (.bool true))]] }, []⟩

/-- The store once these mappings are copied for a context. -/
def reached : Store :=
  { Store.empty with mappings := #[marked 1, [("b", .data (.bool true))], [("b", .data (.bool true))], marked 2] }

/-- Braces of literal text on both sides of a field, and two fields next to each other. -/
theorem process_segments_of_braces :
    outcome (process ⟨.placeholder, [("x", .text "it"), ("v", .mapping 0)]⟩
      "\x7b\x7b\x7bx!r\x7d\x7bv[a].b\x7d\x7d\x7d" none none) reachable =
      .ok ⟨some (Text.ofString "\x7b'it'true\x7d"), []⟩ := by
  have hcontext : context ⟨.placeholder, [("x", .text "it"), ("v", .mapping 0)]⟩ none none reachable =
      .ok [("test_value", .text "__test__"), ("x", .text "it"), ("v", .mapping 3)] ⟨reached, _⟩ := rfl
  have hleads : reached.Leads (.mapping 3) [.item "a", .member "b"] (.bool true) :=
    .step (u := .mapping 2) rfl trivial (.step rfl trivial (.here _))
  have hx : Segment.StandsFor [("test_value", .text "__test__"), ("x", .text "it"), ("v", .mapping 3)] reached
      (.field ⟨"x", [], .quoted⟩) "'it'" := ⟨by decide, .text "it", .text "it", rfl, .here _, rfl⟩
  have hv : Segment.StandsFor [("test_value", .text "__test__"), ("x", .text "it"), ("v", .mapping 3)] reached
      (.field ⟨"v", [.item "a", .member "b"], .unmarked⟩) "true" := ⟨by decide, .mapping 3, .bool true, rfl, hleads, rfl⟩
  exact process_segments _ rfl none none hcontext
    (.cons (Segment.standsFor_literal _ _ [openBrace]) (.cons hx (.cons hv
      (.cons (Segment.standsFor_literal _ _ [closeBrace]) .nil))))

/-- Keys with marks of fields lead to data, but fields with such keys are not read. -/
theorem process_refuses_marks :
    let t : Templater := ⟨.placeholder, [("v", .mapping 0)]⟩
    let written : Text → WrittenField := fun key => ⟨"v", [.item key], .unmarked⟩
    ∃ context w, t.context none none reachable = .ok context w ∧
      (∀ key ∈ [Text.ofString "\x7b", Text.ofString ":"], (written key).StandsFor context w.store "true") ∧
      outcome (t.process (Segment.field (written "\x7b")).spelling none none) reachable =
        .error (.field (.braceInside "v[\x7b]") none) ∧
      outcome (t.process (Segment.field (written ":")).spelling none none) reachable =
        .error (.field (.formatGiven "v[:]") none) := by
  refine ⟨[("test_value", .text "__test__"), ("v", .mapping 3)], ⟨reached, _⟩, rfl, ?_, rfl, rfl⟩
  intro key hkey
  rcases List.mem_cons.mp hkey with rfl | hkey
  · exact ⟨.mapping 3, .bool true, rfl, .step rfl trivial (.here _), rfl⟩
  · rw [List.mem_singleton.mp hkey]
    exact ⟨.mapping 3, .bool true, rfl, .step rfl trivial (.here _), rfl⟩

end Templater
end Stencil
