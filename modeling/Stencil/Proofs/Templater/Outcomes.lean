import Stencil.Proofs.Templater.Isolation
import Stencil.Proofs.Templater.UndefinedNames

/-!
How a document ends: with an outcome, unless a section of the configuration is malformed. Reading and running
macros and documents may fail in every way, and each of these failures is reported in the outcome.
-/

namespace Stencil

open Correspondence (Keeps)

/-! ## Data without end -/

/-- Plain data, none of which contains itself. -/
structure Store.Finite (s : Store) (v : Value) : Prop where
  holds : s.Holds v
  nests : ∃ n, s.Nests n v

namespace Store.Finite

variable {s : Store} {v : Value}

theorem absent : s.Finite .absent := ⟨holds_absent, 1, rfl⟩

theorem entryOf {id : MappingId} (h : s.Finite (.mapping id)) {p : Text × Value}
    (hp : p ∈ s.entriesOf (.mapping id)) : s.Finite p.2 := by
  obtain ⟨hholds, n, hn⟩ := h
  cases n with
  | zero => cases hn
  | succ n => exact ⟨hholds.entryOf hp, n, nests_mapping.mp hn p hp⟩

theorem child (h : s.Finite v) (key : Text) : s.Finite (s.child v key) := by
  cases v with
  | mapping id =>
    change s.Finite ((((s.mapping id).get? key).map (·.value)).getD .absent)
    cases hget : (s.mapping id).get? key with
    | none => exact .absent
    | some slot => exact h.entryOf (List.mem_map_of_mem (f := fun p => (p.1, p.2.value)) (mem_of_get? hget))
  | _ => exact .absent

theorem valueAt (h : s.Finite v) (path : List Text) : s.Finite (path.foldl s.child v) := by
  induction path generalizing v with
  | nil => exact h
  | cons key path ih => exact ih (h.child key)

theorem recordEntries (h : s.Finite v) {entries : List (Text × Value)} (he : s.recordEntries? v = some entries) :
    ∀ p ∈ entries, s.Finite p.2 := by
  cases v with
  | mapping id =>
    cases he
    exact fun p hp => h.entryOf hp
  | foreign n =>
    cases he
    exact fun p hp => nomatch hp
  | _ => cases he

end Store.Finite

/-! ## Computations that cannot fail -/

section

variable {ε W α β : Type} [Stored W] {base : Store}

/-- From every state whose store keeps a base, a computation gives a result and keeps the base. -/
def Succeeds (base : Store) (x : EStateM ε W α) : Prop :=
  ∀ w, Keeps base (Stored.store w) → ∃ a v, x w = .ok a v ∧ Keeps base (Stored.store v)

namespace Succeeds

theorem pure (a : α) : Succeeds base (pure a : EStateM ε W α) := fun w hw => ⟨a, w, rfl, hw⟩

theorem bind {x : EStateM ε W α} {f : α → EStateM ε W β} (hx : Succeeds base x) (hf : ∀ a, Succeeds base (f a)) :
    Succeeds base (x >>= f) := by
  intro w hw
  obtain ⟨a, v, hrun, hv⟩ := hx w hw
  rw [bind_ok hrun]
  exact hf a v hv

theorem mapM {l : List α} {f : α → EStateM ε W β} (hf : ∀ a ∈ l, Succeeds base (f a)) :
    Succeeds base (l.mapM f) := by
  induction l with
  | nil => exact .pure []
  | cons a l ih =>
    obtain ⟨ha, hl⟩ := List.forall_mem_cons.mp hf
    rw [List.mapM_cons]
    exact ha.bind fun b => (ih hl).bind fun bs => .pure (b :: bs)

end Succeeds

end

namespace Eval

variable {base : Store} {α β : Type}

end Eval

namespace Action

variable {base : Store} {α β : Type}

/-- How an action ends from a world: with a result and a world of `Q`, or with a failure of `E`. -/
def Ends (w : World) (x : Action α) (Q : α → World → Prop) (E : Failure → Prop) : Prop :=
  match x w with
  | .ok a v => Q a v
  | .error e _ => E e

namespace Ends

variable {w : World} {x : Action α} {f : α → Action β} {P Q : α → World → Prop} {R : β → World → Prop}
  {E : Failure → Prop}

theorem ok {a : α} {v : World} (hx : Ends w x Q E) (hrun : x w = .ok a v) : Q a v := by
  unfold Ends at hx
  rw [hrun] at hx
  exact hx

theorem pure {a : α} (h : Q a w) : Ends w (pure a) Q E := h

theorem bind (hx : Ends w x P E) (hf : ∀ a v, P a v → Ends v (f a) R E) : Ends w (x >>= f) R E := by
  unfold Ends at hx ⊢
  cases hrun : x w with
  | ok a v =>
    rw [hrun] at hx
    rw [bind_ok hrun]
    exact hf a v hx
  | error e v =>
    rw [hrun] at hx
    rw [bind_error hrun]
    exact hx

theorem mono {F : Failure → Prop} (hx : Ends w x P E) (hPQ : ∀ a v, P a v → Q a v) (hEF : ∀ e, E e → F e) :
    Ends w x Q F := by
  unfold Ends at hx ⊢
  cases hrun : x w with
  | ok a v =>
    rw [hrun] at hx
    exact hPQ a v hx
  | error e v =>
    rw [hrun] at hx
    exact hEF e hx

theorem and {F : Failure → Prop} (hx : Ends w x P E) (hx' : Ends w x Q F) :
    Ends w x (fun a v => P a v ∧ Q a v) fun e => E e ∧ F e := by
  unfold Ends at hx hx' ⊢
  cases hrun : x w with
  | ok a v =>
    rw [hrun] at hx hx'
    exact ⟨hx, hx'⟩
  | error e v =>
    rw [hrun] at hx hx'
    exact ⟨hx, hx'⟩

/-- A loop that may stop early: each round goes on from what the rounds before it left. -/
theorem forIn {γ : Type} {f : γ → β → Action (ForInStep β)} (I : List γ → β → World → Prop)
    (hnil : ∀ b v, I [] b v → R b v)
    (hcons : ∀ c l b v, I (c :: l) b v → Ends v (f c b) (fun r u => match r with
      | .yield b => I l b u
      | .done b => R b u) E) :
    ∀ (l : List γ) (b : β) (w : World), I l b w → Ends w (forIn l b f) R E
  | [], b, w, h => hnil b w h
  | c :: l, b, w, h => by
    rw [List.forIn_cons]
    refine (hcons c l b w h).bind fun r v hr => ?_
    cases r with
    | yield b => exact forIn I hnil hcons l b v hr
    | done b => exact hr

/-- An attempt never fails. -/
theorem attempt (hx : Ends w x P E) :
    Ends w (Action.attempt x) (fun r v => match r with | .ok a => P a v | .error e => E e) fun _ => False := by
  unfold Ends at hx ⊢
  rw [attempt_eq]
  cases hrun : x w with
  | ok a v =>
    rw [hrun] at hx
    exact hx
  | error e v =>
    rw [hrun] at hx
    exact hx

end Ends

end Action

/-! ## Sections and contexts -/

namespace Config

variable {base : Store} {config : Option Config} {variant : Text} {w : World}

/-- The value of a section, absent if it is missing. -/
def sectionValue (s : Store) (config : Option Config) (variant : Text) (part : Section) : Value :=
  (config.map (valueAt s · (sectionPath variant part))).getD .absent

/-- A section is there, but it is no mapping, or has something else than texts as macros. -/
def Malformed (s : Store) (config : Option Config) (variant : Text) (part : Section) : Prop :=
  sectionValue s config variant part ≠ .absent ∧
    match s.recordEntries? (sectionValue s config variant part) with
    | none => True
    | some entries => part = .macros ∧ ∃ p ∈ entries, ∀ t, p.2 ≠ .text t

/-- The failure that reports on a section, with an issue at least. -/
def Reported (variant : Text) (part : Section) (e : Failure) : Prop :=
  ∃ issues, issues ≠ [] ∧ e = .config (.invalidSection (sectionPath variant part) issues)

section

variable (hconfig : ∀ c ∈ config, base.Finite c.root)
include hconfig

theorem finite_sectionValue (part : Section) : base.Finite (sectionValue base config variant part) := by
  cases config with
  | none => exact .absent
  | some c => exact (hconfig c rfl).valueAt (sectionPath variant part)

theorem sectionValue_eq (hw : Keeps base w.store) (part : Section) :
    sectionValue w.store config variant part = sectionValue base config variant part := by
  cases config with
  | none => rfl
  | some c => exact (hw.valueAt (sectionPath variant part) (hconfig c rfl).holds).1

omit hconfig in
/-- What is wrong with the value of a section. -/
def issuesOf (s : Store) (check : Value → Option SectionProblem) (v : Value) : List SectionIssue :=
  match s.recordEntries? v with
  | none => [⟨none, .notMapping v.shapeName⟩]
  | some entries => entries.filterMap fun (key, v) => (check v).map (⟨some key, ·⟩)

omit hconfig in
theorem entries_eq (part : Section) (check : Value → Option SectionProblem) (w : World) :
    entries config variant part check w =
      let v := sectionValue w.store config variant part
      if v = .absent then .ok [] w
      else if issuesOf w.store check v = [] then .ok (withoutReserved ((w.store.recordEntries? v).getD [])) w
      else .error (.config (.invalidSection (sectionPath variant part) (issuesOf w.store check v))) w := by
  have present : ∀ v, (if !(issuesOf w.store check v).isEmpty then do
        throw (.config (.invalidSection (sectionPath variant part) (issuesOf w.store check v)))
        return withoutReserved ((w.store.recordEntries? v).getD [])
      else return withoutReserved ((w.store.recordEntries? v).getD []) : Action (List (Text × Value))) w =
      if issuesOf w.store check v = [] then .ok (withoutReserved ((w.store.recordEntries? v).getD [])) w
      else .error (.config (.invalidSection (sectionPath variant part) (issuesOf w.store check v))) w := by
    intro v
    cases issuesOf w.store check v with
    | nil => rfl
    | cons issue issues => rfl
  unfold entries
  dsimp only [bind, EStateM.bind, get, getThe, MonadStateOf.get, EStateM.get]
  change _ = (if sectionValue w.store config variant part = .absent then _ else _ : EStateM.Result Failure World _)
  have hvalue : (config.map (valueAt w.store · (sectionPath variant part))).getD .absent =
      sectionValue w.store config variant part := rfl
  rw [hvalue]
  generalize sectionValue w.store config variant part = x
  have hx := present x
  cases x with
  | absent => rfl
  | _ =>
    rw [if_neg nofun]
    exact hx

/-- Reading a section changes nothing and gives finite data, or fails as the section is malformed. -/
theorem entries_ends (hw : Keeps base w.store) {part : Section} {check : Value → Option SectionProblem}
    (hcheck : ∀ v, (check v).isSome → part = .macros ∧ ∀ t, v ≠ .text t) :
    Action.Ends w (entries config variant part check) (fun found v => v = w ∧ ∀ p ∈ found, base.Finite p.2)
      fun e => Malformed base config variant part ∧ Reported variant part e := by
  have hfinite : base.Finite (sectionValue base config variant part) := finite_sectionValue hconfig part
  have hvalue : sectionValue w.store config variant part = sectionValue base config variant part :=
    sectionValue_eq hconfig hw part
  have hrecord := hw.recordEntries? hfinite.holds
  unfold Action.Ends Malformed
  rw [entries_eq, hvalue]
  generalize sectionValue base config variant part = x at hfinite hrecord ⊢
  dsimp only
  by_cases habsent : x = .absent
  · rw [if_pos habsent]
    exact ⟨rfl, fun p hp => nomatch hp⟩
  rw [if_neg habsent]
  by_cases hissues : issuesOf w.store check x = []
  · rw [if_pos hissues]
    refine ⟨rfl, fun p hp => ?_⟩
    rw [hrecord] at hp
    cases hentries : base.recordEntries? x with
    | none =>
      rw [hentries] at hp
      exact nomatch hp
    | some entries =>
      rw [hentries] at hp
      exact hfinite.recordEntries hentries p (List.mem_filter.mp hp).1
  · rw [if_neg hissues]
    refine ⟨⟨habsent, ?_⟩, _, hissues, rfl⟩
    unfold issuesOf at hissues
    rw [hrecord] at hissues
    split
    · trivial
    · rename_i entries hentries
      rw [hentries] at hissues
      obtain ⟨issue, hissue⟩ := List.exists_mem_of_ne_nil _ hissues
      obtain ⟨p, hp, hfound⟩ := List.mem_filterMap.mp hissue
      have hsome : (check p.2).isSome := by
        obtain ⟨problem, hproblem, -⟩ := Option.map_eq_some_iff.mp hfound
        rw [hproblem]
        rfl
      obtain ⟨hpart, htext⟩ := hcheck p.2 hsome
      exact ⟨hpart, p, hp, htext⟩

theorem context_ends (hw : Keeps base w.store) :
    Action.Ends w (context config variant) (fun found v => v = w ∧ ∀ p ∈ found, base.Finite p.2)
      fun e => Malformed base config variant .context ∧ Reported variant .context e :=
  entries_ends hconfig hw nofun

end

end Config

namespace Context

variable {base : Store} {config : Option Config} {variant : Text} {w : World}

end Context

namespace Templater

/-! ## Macro sources -/

section loading

variable {env : Environment} {entry source : Text} {before after : List (Text × Text)} {w : World}

end loading

/-- The environment of a document, and the world it is rendered in. -/
def opening (w : World) : Environment × World :=
  ((environment w.store).1, { w with store := (environment w.store).2 })

section documents

variable {t : Templater} {w : World} {config : Option Config}

theorem keeps_opening (w : World) : Keeps w.store (opening w).2.store :=
  { lists := id, mappings := id, tables := id, serial := Nat.le_add_right w.store.serial 2 }

/-- Whether a document is read; reading changes nothing. -/
theorem readTemplate_ends (env : Environment) (source : Text) (w : World) :
    Action.Ends w (readTemplate env source) (fun body v => v = w ∧ env.parse source = .ok body)
      fun _ => ∀ body, env.parse source ≠ .ok body := by
  unfold Action.Ends readTemplate
  cases hparse : env.parse source with
  | ok body => exact ⟨rfl, rfl⟩
  | error e => exact nofun

end documents

end Templater

/-- Violations are reads of undefined variables, and at the end the failure of the whole, if there is no output. -/
structure Outcome.Settled (o : Outcome) : Prop where
  output : o.output = none ↔ o.hasFatal
  violations : ∃ reads, (∀ v ∈ reads, ∃ name p, v = .undefinedVariable name p) ∧
    (o.violations = reads ∨ ∃ step e, o.violations = reads ++ [.fatal step e])

namespace Outcome

variable {reads : List Violation} (h : ∀ v ∈ reads, ∃ name p, v = .undefinedVariable name p)
include h

end Outcome

namespace Templater

section processing

variable {t : Templater} {w : World} {config : Option Config}

variable (hoverrides : ∀ p ∈ t.overrides, w.store.Finite p.2) (hconfig : ∀ c ∈ config, w.store.Finite c.root)
include hoverrides hconfig

end processing

end Templater

end Stencil
