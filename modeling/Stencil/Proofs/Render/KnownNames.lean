import Stencil.Proofs.Footprint.Running
import Stencil.Proofs.Render.Targets
import Stencil.Proofs.Template.WellFormed

/-! Parsed templates are well formed: they miss no filter and no test that is still there, and bind whole targets. -/
namespace Stencil

variable {features : Features} {env : Environment} {body : List Stmt} {s t : Store} {e : Expr}

/-- The filter or the test that an expression names is there. -/
def Expr.Known (features : Features) : Expr → Prop
  | filter _ _ f _ _ => (features.filters.lookup f).isSome
  | test _ _ t _ _ _ => (features.tests.lookup t).isSome
  | _ => True

theorem isSome_lookup_iff {α : Type} {xs : List (Text × α)} {name : Text} :
    (xs.lookup name).isSome ↔ name ∈ xs.map (·.1) := by
  rw [List.lookup_isSome_iff, List.mem_map]
  constructor
  · rintro ⟨p, hp, hname⟩
    exact ⟨p, hp, (beq_iff_eq.mp hname).symm⟩
  · rintro ⟨p, hp, hname⟩
    exact ⟨p, hp, beq_iff_eq.mpr hname.symm⟩

/-- What an environment accepts when it reads a template is there when it renders it. -/
theorem Expr.Formed.known (h : e.Formed env.dialect) : e.Known env.features := by
  cases e with
  | filter line target f args named => exact isSome_lookup_iff.mpr h
  | test line target t args named negated => exact isSome_lookup_iff.mpr h
  | _ => trivial

/-- The expressions that name no filter and no test that is missing. -/
def Usage.known (features : Features) : Usage := {e | e.Known features}

theorem Usage.supplied_known : (Usage.known features).Supplied features where
  filters h := h
  tests h := h

/-- No filter and no test is missing where the template and the macros that are there know all that they name. -/
theorem renderTemplate_known {context : Value} {fault : Fault} (hbody : ∀ x : Expr, x.Inside body → x.Known env.features)
    (hs : ∀ m ∈ s.macros, ∀ x : Expr, m.Holds x → x.Known env.features)
    (h : Eval.renderTemplate env body context s = .error fault t) : fault.isUnknownName = false := by
  have hrun : Runs (Usage.known env.features) env.features ∅ (Eval.renderTemplate env body context) :=
    (Runs.of_quiet (.read _)).bind fun vars => (runs_run hbody vars).bind fun _ => .pure _
  exact (hrun.error (fun _ => hs) h).2 Usage.supplied_known

/-- A parsed template is well formed. Rendered where its filters and tests and those of the macros that were there are
known, it never fails for want of one; assigning to a target takes as many items as it has names, and binds them all. -/
theorem parse_wellFormed {source : Text} (h : env.parse source = .ok body) :
    Stmt.WellFormed env.dialect body ∧
    (∀ (later : Environment) (context : Value) (s : Store), (∀ x : Expr, x.Inside body → x.Known later.features) →
      (∀ m ∈ s.macros, ∀ x : Expr, m.Holds x → x.Known later.features) →
      ∀ fault t, Eval.renderTemplate later body context s = .error fault t → fault.isUnknownName = false) ∧
    ∀ (target : Target) (v : Value) (scope : ScopeId) (s : Store), scope < s.scopes.size →
      ((∃ t, Eval.assign target v scope s = .ok ⟨⟩ t) ↔ (target.bindings? s v).isSome) ∧
      ∀ t bindings, Eval.assign target v scope s = .ok ⟨⟩ t → target.bindings? s v = some bindings →
        ∀ n ∈ target.names, ∃ x, bindings.reverse.lookup n.text = some x ∧
          (t.scope scope).vars.lookup n.text = some x := by
  refine ⟨wellFormed_parse h, fun later context s hbody hs fault t => renderTemplate_known hbody hs,
    fun target v scope s hscope => ⟨assign_ok_iff, fun t bindings hassign hbindings n hn => ?_⟩⟩
  exact lookup_assign hscope hassign hbindings hn

namespace Dropped

def setting : Environment × Store := Environment.create false false false .empty

/-- A template that defines a macro with a filter in it. -/
def defining : List Stmt :=
  (setting.1.parse "\x7b% macro m() %\x7d\x7b\x7b 'x'|upper \x7d\x7d\x7b% endmacro %\x7d").toOption.getD []

/-- A template that calls the macro. -/
def calling : List Stmt := [.output 1 (.call 1 (.name ⟨"m", 1, 3⟩) [] [])]

theorem parse_calling (env : Environment) (h : env.keepFinalBreak = false) :
    env.parse "\x7b\x7b m() \x7d\x7d" = .ok calling := by
  have htokens : Lexer.tokenize "\x7b\x7b m() \x7d\x7d" false = .ok [⟨.tagBegin .output, 1, 0⟩, ⟨.name "m", 1, 3⟩,
      ⟨.operator .leftParen, 1, 4⟩, ⟨.operator .rightParen, 1, 5⟩, ⟨.tagEnd .output, 1, 7⟩, ⟨.eof, 1, 9⟩] := by rfl
  unfold Environment.parse
  rw [h, htokens]
  rfl

theorem inside_calling {e : Expr} (h : e.Inside calling) (features : Features) : e.Known features := by
  obtain ⟨s, hs, root, hroot, hx⟩ := h
  simp [calling, Stmt.inside_cons, Stmt.inside_nil, Stmt.parts] at hs
  subst hs
  simp [Stmt.roots] at hroot
  subst hroot
  obtain hx | ⟨y, hy, hx⟩ := Expr.within_iff.mp hx
  · rw [hx]
    exact trivial
  · obtain rfl : y = .name ⟨"m", 1, 3⟩ := by simpa [Expr.parts] using hy
    rw [Expr.within_name.mp hx]
    exact trivial

/-- The environment without the filter. -/
def later : Environment := setting.1.dropFilter "upper"

/-- The store with the macro among the global variables. -/
def installed : Store := after (do Eval.setGlobals setting.1 (← Eval.macros setting.1 defining)) setting.2

end Dropped

/-- The template calls a macro that is not there. -/
theorem parse_wellFormed_of_calling :
    Stmt.WellFormed Dropped.setting.1.dialect Dropped.calling ∧
      (∃ fault t, Eval.renderTemplate Dropped.setting.1 Dropped.calling .absent Dropped.setting.2 = .error fault t ∧
        fault.isUnknownName = false) ∧
      ∃ t, Eval.assign (.tuple 1 [⟨"a", 1, 7⟩, ⟨"b", 1, 10⟩]) (.text "xy") Dropped.setting.1.globals
          Dropped.setting.2 = .ok ⟨⟩ t ∧
        (t.scope Dropped.setting.1.globals).vars.lookup (Text.ofString "b") = some (.text "y") := by
  obtain ⟨hformed, hrender, hassign⟩ := parse_wellFormed (Dropped.parse_calling Dropped.setting.1 rfl)
  refine ⟨hformed, ?_, ?_⟩
  · have hfault := hrender Dropped.setting.1 .absent Dropped.setting.2 (fun _ h => Dropped.inside_calling h _)
      fun m hm => absurd hm (by simp [Dropped.setting, Environment.create, Store.empty, Store.newNative, Store.newScope])
    have hout : passes (fun _ => true)
        (outcome (Eval.renderTemplate Dropped.setting.1 Dropped.calling .absent) Dropped.setting.2) = false := by
      decide +kernel
    unfold outcome at hout
    cases hr : Eval.renderTemplate Dropped.setting.1 Dropped.calling .absent Dropped.setting.2 with
    | ok text t =>
      rw [hr] at hout
      cases hout
    | error fault t => exact ⟨fault, t, rfl, hfault fault t hr⟩
  · obtain ⟨hok, hbinds⟩ := hassign (.tuple 1 [⟨"a", 1, 7⟩, ⟨"b", 1, 10⟩]) (.text "xy") Dropped.setting.1.globals
      Dropped.setting.2 (by decide)
    have hbindings : Target.bindings? Dropped.setting.2 (.text "xy") (.tuple 1 [⟨"a", 1, 7⟩, ⟨"b", 1, 10⟩]) =
        some [(Text.ofString "a", .text "x"), (Text.ofString "b", .text "y")] := by decide +kernel
    obtain ⟨t, ht⟩ := hok.mpr (hbindings ▸ rfl)
    obtain ⟨x, hx, hlookup⟩ := hbinds t _ ht hbindings ⟨"b", 1, 10⟩ (by decide)
    cases hx
    exact ⟨t, ht, hlookup⟩

/-- A macro that was there before the filter went is not known any more, and a template that names no filter fails. -/
theorem renderTemplate_unknown_of_installed :
    Dropped.setting.1.parse "\x7b\x7b m() \x7d\x7d" = .ok Dropped.calling ∧
      (∀ e : Expr, e.Inside Dropped.calling → e.Known Dropped.later.features) ∧
      outcome (Eval.renderTemplate Dropped.setting.1 Dropped.calling .absent) Dropped.installed = .ok "X" ∧
      outcome (Eval.renderTemplate Dropped.later Dropped.calling .absent) Dropped.installed =
        .error (.unknownFilter "upper") :=
  ⟨Dropped.parse_calling _ rfl, fun _ h => Dropped.inside_calling h _, by decide +kernel, by decide +kernel⟩

end Stencil
