import Stencil.Proofs.Lines
import Stencil.Proofs.Template.References
import Stencil.Proofs.Running
import Stencil.Templater.Basic

/-! Reports on undefined variables point at occurrences of their names. -/
namespace Stencil

/-- A place that a name stands at, the first on its line. -/
structure Position.Occurrence (source name : Text) (p : Position) : Prop where
  one_le_line : 1 ≤ p.line
  line_le : p.line ≤ Text.lineFeeds source + 1
  one_le_column : 1 ≤ p.column
  on_line : ∃ line, (lines source)[(p.line - 1).toNat]? = some line ∧
    name <+: line.drop (p.column - 1) ∧ ∀ j < p.column - 1, ¬ name <+: line.drop j
  one_le_offset : 1 ≤ p.offset
  in_source : (source.drop (p.offset - 1)).take name.length = name

theorem Token.Placed.name_on_line {source word : Text} {k : Token} (h : k.Placed source)
    (hk : k.kind = .name word) : ∃ line ls more j, Position.lines source = ls ++ line :: more ∧
      ls.length + 1 = k.line ∧ word <+: line.drop j := by
  obtain ⟨_, hpart, hword⟩ := h.name word hk
  obtain ⟨ls, start, rest, more, hl, hls, hrest⟩ :=
    Position.line_of_split (source.take k.offset) (source.drop k.offset)
  rw [List.take_append_drop] at hl
  refine ⟨start ++ rest, ls, more, start.length, hl, by rw [hls, h.line, Nat.add_comm], ?_⟩
  rw [List.drop_left]
  refine Position.prefix_first_line hword (fun hm => ?_) hrest
  have := List.all_eq_true.mp hpart _ hm
  simp [Lexer.isNamePart_feed] at this

/-- A name token is found on its line. -/
theorem Token.Placed.occurrence {source word : Text} {k : Token} (h : k.Placed source)
    (hk : k.kind = .name word) : (Position.locate source k.line word).Occurrence source word := by
  obtain ⟨line, ls, more, j, hl, hls, hword⟩ := h.name_on_line hk
  obtain ⟨i, hi⟩ := Text.find?_isSome hword (h.name word hk).1
  obtain ⟨hat, hfirst⟩ := Text.find?_eq_some hi
  have hone : (1 : Int) ≤ k.line := by omega
  have hindex : ((k.line : Int) - 1).toNat = ls.length := by omega
  have hget : (Position.lines source)[((k.line : Int) - 1).toNat]? = some line := by
    rw [hindex, hl, List.getElem?_append_right (Nat.le_refl _), Nat.sub_self, List.getElem?_cons_zero]
  have hbefore : Position.linesBefore source k.line = ls := by
    rw [Position.linesBefore, if_pos hone, hindex, hl, List.take_left]
  have hlocate : Position.locate source k.line word = ⟨k.line, i + 1, Position.width ls + (i + 1)⟩ := by
    simp only [Position.locate, if_pos hone, hget, hbefore, Option.getD_some, hi]
    rfl
  rw [hlocate]
  refine ⟨hone, ?_, Nat.le_add_left 1 i, ⟨line, hget, hat, hfirst⟩, Nat.le_add_left 1 _, ?_⟩
  · have hlen := congrArg List.length hl
    rw [Position.length_lines, List.length_append, List.length_cons] at hlen
    dsimp only
    omega
  · have hline : line.drop i <+: source.drop (Position.width ls + i) := by
      obtain ⟨rest, hrest⟩ := Position.prefix_drop_width hl
      rw [← List.drop_drop, ← hrest, List.drop_append]
      exact List.prefix_append ..
    exact (List.prefix_iff_eq_take.mp (hat.trans hline)).symm

namespace Templater

theorem reads_placed {env : Environment} {source : Text} {body : List Stmt} (hkeep : env.keepFinalBreak = true)
    (h : env.parse source = .ok body) {n : Name} (hn : n ∈ body.flatMap Stmt.reads) :
    ∃ k : Token, k.Placed source ∧ k.kind = .name n.text ∧ k.line = n.line := by
  obtain ⟨tokens, ht, hb⟩ := Lexer.bind_eq_ok h
  rw [hkeep] at ht
  obtain ⟨k, hk, hname⟩ := List.mem_filterMap.mp ((Parser.reads_parse hb).subset hn)
  refine ⟨k, Lexer.placed_tokenize ht k hk, ?_⟩
  unfold Token.name? at hname
  split at hname
  · rename_i word hword
    cases hname
    exact ⟨hword, rfl⟩
  · cases hname

theorem undefinedVariables_occur {env : Environment} {source : Text} {body : List Stmt} {known : List Text}
    (hkeep : env.keepFinalBreak = true) (h : env.parse source = .ok body) {name : Text} {p : Position}
    (hv : .undefinedVariable name p ∈ undefinedVariables body source known) : p.Occurrence source name := by
  obtain ⟨n, hn, he⟩ := List.mem_map.mp hv
  cases he
  obtain ⟨k, hk, hkind, hline⟩ := reads_placed hkeep h (List.mem_filter.mp (nameReferences_eq body _ ▸ hn)).1
  rw [← hline]
  exact hk.occurrence hkind

theorem keepFinalBreak_environment (s : Store) : (environment s).1.keepFinalBreak = true := rfl

theorem run_readTemplate {env : Environment} {source : Text} {body : List Stmt} {w w' : World}
    (h : (readTemplate env source).run w = .ok body w') : env.parse source = .ok body := by
  unfold readTemplate at h
  split at h
  · cases h
    assumption
  · cases h

theorem loadMacros_fatal {env : Environment} {sources : List (Text × Text)} {w w' : World} {v : Violation}
    (h : (loadMacros env sources).run w = .ok (.error v) w') : ∃ step e, v = .fatal step e := by
  unfold loadMacros at h
  obtain ⟨⟨early, loaded⟩, w₁, hloop, h⟩ := Action.run_bind h
  have hearly := Action.run_forIn
    (I := fun state => ∀ r, state.1 = some r → ∃ step e, r = Except.error (.fatal step e)) ?_ (by simp) hloop
  · cases early with
    | some r =>
      cases h
      obtain ⟨step, e, he⟩ := hearly _ rfl
      cases he
      exact ⟨step, e, rfl⟩
    | none =>
      dsimp only at h
      split at h
      · obtain ⟨-, w₂, -, h⟩ := Action.run_bind h
        cases h
      · cases h
  · intro (entry, source) state w r w' _ h
    obtain ⟨found, w₁, -, h⟩ := Action.run_bind h
    cases found with
    | ok found =>
      cases h
      simp [ForInStep.value]
    | error e =>
      cases h
      intro r hr
      cases hr
      exact ⟨_, e, rfl⟩

theorem renderDocument_occurs {t : Templater} {text : Text} {filename : Option Text} {config : Option Config}
    {w w' : World} {o : Outcome} (h : (t.renderDocument text filename config).run w = .ok o w')
    {name : Text} {p : Position} (hv : .undefinedVariable name p ∈ o.violations) : p.Occurrence text name := by
  unfold renderDocument at h
  obtain ⟨env, w₁, henv, h⟩ := Action.run_bind h
  obtain ⟨sources, w₂, -, h⟩ := Action.run_bind h
  obtain ⟨loaded, w₃, hload, h⟩ := Action.run_bind h
  have hkeep : env.keepFinalBreak = true := by
    cases henv
    exact keepFinalBreak_environment _
  cases loaded with
  | error e =>
    cases h
    obtain ⟨step, failure, rfl⟩ := loadMacros_fatal hload
    cases List.mem_singleton.mp hv
  | ok macros =>
    obtain ⟨-, w₄, -, h⟩ := Action.run_bind h
    obtain ⟨read, w₅, hread, h⟩ := Action.run_bind h
    cases read with
    | error e =>
      obtain ⟨-, w₆, -, h⟩ := Action.run_bind h
      cases h
      cases List.mem_singleton.mp hv
    | ok body =>
      have hbody := run_readTemplate (Action.run_attempt hread)
      obtain ⟨context, w₆, -, h⟩ := Action.run_bind h
      obtain ⟨known, w₇, -, h⟩ := Action.run_bind h
      obtain ⟨ran, w₈, -, h⟩ := Action.run_bind h
      cases ran with
      | error e =>
        cases h
        rcases List.mem_append.mp hv with hv | hv
        · exact undefinedVariables_occur hkeep hbody hv
        · cases List.mem_singleton.mp hv
      | ok done =>
        obtain ⟨-, w₉, -, h⟩ := Action.run_bind h
        cases h
        exact undefinedVariables_occur hkeep hbody hv

theorem replaceFields_violations {t : Templater} {text : Text} {filename : Option Text} {config : Option Config}
    {w w' : World} {o : Outcome} (h : (t.replaceFields text filename config).run w = .ok o w') :
    o.violations = [] := by
  unfold replaceFields at h
  obtain ⟨context, w₁, -, h⟩ := Action.run_bind h
  obtain ⟨parts, w₂, -, h⟩ := Action.run_bind h
  obtain ⟨-, w₃, -, h⟩ := Action.run_bind h
  cases h
  rfl

/-- Every report on an undefined variable points at an occurrence of its name. -/
theorem undefinedVariable_occurs {t : Templater} {text : Text} {filename : Option Text} {config : Option Config}
    {w w' : World} {o : Outcome} (h : (t.process text filename config).run w = .ok o w')
    {name : Text} {p : Position} (hv : .undefinedVariable name p ∈ o.violations) : p.Occurrence text name := by
  unfold process at h
  split at h
  · cases h
    cases hv
  · rw [replaceFields_violations h] at hv
    cases hv
  · exact renderDocument_occurs h hv

theorem undefinedVariable_occurs_on_second_line : ∃ o w',
    ((⟨.jinja, []⟩ : Templater).process "a\n\x7b\x7b x \x7d\x7d" none none).run World.empty = .ok o w' ∧
    .undefinedVariable "x" ⟨2, 4, 6⟩ ∈ o.violations ∧
    Position.Occurrence "a\n\x7b\x7b x \x7d\x7d" "x" ⟨2, 4, 6⟩ := by
  have hrun : (match ((⟨.jinja, []⟩ : Templater).process "a\n\x7b\x7b x \x7d\x7d" none none).run World.empty with
      | .ok o _ => decide (.undefinedVariable "x" ⟨2, 4, 6⟩ ∈ o.violations)
      | .error _ _ => false) = true := by decide +kernel
  split at hrun
  · rename_i o w' h
    have hv := of_decide_eq_true hrun
    exact ⟨o, w', h, hv, undefinedVariable_occurs h hv⟩
  · cases hrun

end Templater
end Stencil
