import Stencil.Proofs.Footprint.Running
import Stencil.Proofs.Realm.Widening

/-! A body has one effect, whether it is run once, taken as a text by a block, or called as a macro. -/
namespace Stencil

open Realm (whole has_whole)

variable {features : Features} {s t : Store} {scope j : ScopeId} {n : Nat} {m name : Text} {body : List Stmt}
  {k : Macro}

/-- A body that is run once in a new scope. -/
def Eval.renderInner (features : Features) (depth : Nat) (scope : ScopeId) (body : List Stmt) : Eval Text := do
  render features depth (← newScope scope) body

namespace Stmt

/-- The text of a body is taken by a block, and written. -/
inductive Captures (body : List Stmt) : List Stmt → Prop where
  | intro {l l' : Nat} {x y : Name} (h : y.text = x.text) :
    Captures body [.capture l (.name x) body, .output l' (.name y)]

/-- A body is made a macro without parameters, and called. -/
inductive Abstracts (m : Text) (body : List Stmt) : List Stmt → Prop where
  | intro {l l' l'' : Nat} {x : Name} (h : x.text = m) :
    Abstracts m body [.define l m [] [] body, .output l' (.call l'' (.name x) [] [])]

end Stmt

/-! ## The two statements -/

theorem render_pair {a b : Stmt} (h : Eval.execute features n scope a s = .ok [] t) :
    Eval.render features (n + 1) scope [a, b] s = Eval.execute features n scope b t := by
  simp only [Eval.render, List.mapM_cons, List.mapM_nil, bind_assoc, pure_bind]
  rw [bind_ok h]
  simp

theorem render_pair_error {a b : Stmt} {e : Fault} (h : Eval.execute features n scope a s = .error e t) :
    Eval.render features (n + 1) scope [a, b] s = .error e t := by
  simp only [Eval.render, List.mapM_cons, bind_assoc]
  rw [bind_error h]

/-- Captured text is written as it stands. -/
theorem written_captured (t : Text) : Eval.written features (Eval.captured features t) = pure t := by
  obtain ⟨autoescape, filters, tests⟩ := features
  cases autoescape <;> rfl

/-- A name is read where it was set. -/
theorem Store.resolve_setVar (hscope : scope < s.scopes.size) (name : Text) (v : Value) :
    (s.setVar scope name v).resolve scope name = v := by
  unfold resolve resolveWithin
  dsimp only
  rw [lookup_setVar hscope, if_pos ⟨rfl, rfl⟩]
  rfl

/-- What a name was bound to is written as captured text. -/
theorem output_captured {l : Nat} {x y : Name} (hxy : y.text = x.text) (hscope : scope < s.scopes.size) (text : Text) :
    Eval.execute features (n + 2) scope (.output l (.name y)) (s.setVar scope x.text (Eval.captured features text)) =
      .ok text (s.setVar scope x.text (Eval.captured features text)) := by
  have hread : Eval.read (·.resolve scope y.text) (s.setVar scope x.text (Eval.captured features text)) =
      .ok (Eval.captured features text) (s.setVar scope x.text (Eval.captured features text)) := by
    rw [hxy]
    exact congrArg (EStateM.Result.ok · _) (Store.resolve_setVar hscope x.text _)
  simp only [Eval.execute, Eval.evaluate]
  rw [bind_ok hread, written_captured]
  rfl

/-! ## The block -/

/-- A block and its text have the result of the body. They leave what it leaves, with the text bound. -/
theorem render_captures (features : Features) (n : Nat) (body : List Stmt) {l l' : Nat} {x y : Name}
    (hxy : y.text = x.text) (hscope : scope < s.scopes.size) :
    (∀ text t, Eval.renderInner features n scope body s = .ok text t →
      Eval.render features (n + 2) scope [.capture l (.name x) body, .output l' (.name y)] s =
        .ok text (t.setVar scope x.text (Eval.captured features text))) ∧
    ∀ e t, Eval.renderInner features n scope body s = .error e t →
      Eval.render features (n + 2) scope [.capture l (.name x) body, .output l' (.name y)] s = .error e t := by
  have hnew : Eval.newScope scope s = .ok s.scopes.size (s.newScope (some scope) []).2 := rfl
  have hinner : Eval.renderInner features n scope body s =
      Eval.render features n s.scopes.size body (s.newScope (some scope) []).2 := rfl
  rw [hinner]
  refine ⟨fun text t h => ?_, fun e t h => ?_⟩
  · have hcapture : Eval.execute features (n + 1) scope (.capture l (.name x) body) s =
        .ok [] (t.setVar scope x.text (Eval.captured features text)) := by
      simp only [Eval.execute]
      rw [bind_ok hnew, bind_ok h]
      rfl
    have hsize : scope < t.scopes.size := by
      have hgrown := size_le_of_render h
      rw [Store.newScope, Array.size_push] at hgrown
      exact hscope.trans hgrown
    rw [render_pair hcapture]
    cases n with
    | zero =>
      unfold Eval.render at h
      cases h
    | succ n => exact output_captured hxy hsize text
  · refine render_pair_error ?_
    simp only [Eval.execute]
    rw [bind_ok hnew, bind_error h]

/-! ## The macro -/

namespace Store

/-- The store in which a macro was defined. -/
def defining (s : Store) (k : Macro) : Store := (s.newMacro k).2.setVar k.scope k.name (.ofMacro s.macros.size)

/-- What is left of the arguments of a call without arguments: a new list, and a new mapping. -/
def leftOver (s : Store) : List (Text × Value) :=
  [(Text.ofString "varargs", .list s.lists.size), (Text.ofString "kwargs", .mapping s.mappings.size)]

/-- The store in which the body of a macro runs that is called without arguments. -/
def calling (s : Store) (k : Macro) : Store :=
  (((s.newList []).2.newMapping []).2.newScope (some k.scope) s.leftOver).2

/-- A call makes its scope first, and then binds one after the other what is left. -/
theorem calling_eq (s : Store) (k : Macro) :
    s.calling k = ((((s.newScope (some k.scope) []).2.newList []).2.setVar s.scopes.size (Text.ofString "varargs")
      (.list s.lists.size)).newMapping []).2.setVar s.scopes.size (Text.ofString "kwargs")
        (.mapping s.mappings.size) := by
  have hvarargs := setVar_newScope (s.newList []).2 (some k.scope) [] (Text.ofString "varargs") (.list s.lists.size)
  have hkwargs := setVar_newScope ((s.newList []).2.newMapping []).2 (some k.scope)
    [(Text.ofString "varargs", .list s.lists.size)] (Text.ofString "kwargs") (.mapping s.mappings.size)
  exact hkwargs.symm.trans (congrArg (fun t : Store => (t.newMapping []).2.setVar s.scopes.size _ _) hvarargs.symm)

theorem size_defining : (s.defining k).scopes.size = s.scopes.size := Array.size_modify ..

/-- The scopes that were there are those in which the macro was defined. -/
theorem scope_calling (hj : j < s.scopes.size) : ((s.defining k).calling k).scope j = (s.defining k).scope j := by
  have hlt : j < ((s.defining k).newList []).2.scopes.size := hj.trans_eq size_defining.symm
  exact scope_newScope hlt

/-- The scope of the call holds only what is left of its arguments. -/
theorem scope_calling_self : ((s.defining k).calling k).scope s.scopes.size = ⟨some k.scope, s.leftOver⟩ := by
  have hself := scope_newScope_self (((s.defining k).newList []).2.newMapping []).2 (some k.scope) s.leftOver
  have hsize : (((s.defining k).newList []).2.newMapping []).2.scopes.size = s.scopes.size := size_defining
  rw [hsize] at hself
  exact hself

/-- A call has all that a new scope has. -/
theorem widens_calling (s : Store) (k : Macro) :
    (s.newScope (some k.scope) []).2.Widens ((s.defining k).calling k) where
  lists := getElem?_push_of_some
  mappings := getElem?_push_of_some
  tables := id
  serial := le_refl _
  macros := getElem?_push_of_some
  scopes := by
    change (s.scopes.push _).size ≤ ((s.defining k).scopes.push _).size
    rw [Array.size_push, Array.size_push, size_defining]
  parents j hj := by
    rcases lt_or_eq_of_newScope hj with hj | rfl
    · rw [scope_calling hj, scope_newScope hj]
      exact parent_setVar
    · rw [scope_calling_self, scope_newScope_self]

/-- A name other than those of the macro and of the rest of its arguments is bound as in a new scope. -/
theorem lookup_calling (hj : j < (s.newScope (some k.scope) []).2.scopes.size) (hname : j = k.scope → name ≠ k.name)
    (hnew : j = s.scopes.size → name ≠ Text.ofString "varargs" ∧ name ≠ Text.ofString "kwargs") :
    (((s.defining k).calling k).scope j).vars.lookup name =
      ((s.newScope (some k.scope) []).2.scope j).vars.lookup name := by
  rcases lt_or_eq_of_newScope hj with hj | rfl
  · rw [scope_calling hj, scope_newScope hj]
    have hlookup : ((s.defining k).scope j).vars.lookup name =
        if k.scope = j ∧ name = k.name then some (.ofMacro s.macros.size) else (s.scope j).vars.lookup name :=
      lookup_setVar (s := (s.newMacro k).2) hj
    rwa [if_neg fun h => hname h.1.symm h.2] at hlookup
  · obtain ⟨hvarargs, hkwargs⟩ := hnew rfl
    rw [scope_calling_self, scope_newScope_self, leftOver, Correspondence.lookup_cons_eq, if_neg hvarargs,
      Correspondence.lookup_cons_eq, if_neg hkwargs]

end Store

theorem call_ofMacro {id : MacroId} (hget : s.macros[id]? = some k) (hparams : k.params = []) :
    Eval.call features (n + 1) (.ofMacro id) ⟨[], []⟩ s =
      (do return Eval.captured features (← Eval.render features n s.scopes.size k.body)) (s.calling k) := by
  obtain ⟨name, params, defaults, body, scope⟩ := k
  cases hparams
  have hstate : (get : Eval Store) s = .ok s s := rfl
  simp only [Eval.call]
  rw [bind_ok hstate, hget, Store.calling_eq]
  rfl

/-- A macro that is called where it is defined runs its body, and its text is written as it stands. -/
theorem render_abstracts {l l' l'' : Nat} {x : Name} (hx : x.text = m) (hscope : scope < s.scopes.size) :
    Eval.render features (n + 4) scope [.define l m [] [] body, .output l' (.call l'' (.name x) [] [])] s =
      Eval.render features n s.scopes.size body
        ((s.defining ⟨m, [], [], body, scope⟩).calling ⟨m, [], [], body, scope⟩) := by
  subst hx
  have hdefine : Eval.execute features (n + 3) scope (.define l x.text [] [] body) s =
      .ok [] (s.defining ⟨x.text, [], [], body, scope⟩) := by
    simp only [Eval.execute]
    rfl
  generalize hk : (⟨x.text, [], [], body, scope⟩ : Macro) = k at hdefine ⊢
  have hname : Eval.read (·.resolve scope x.text) (s.defining k) = .ok (.ofMacro s.macros.size) (s.defining k) := by
    have hresolve : (s.defining k).resolve scope x.text = .ofMacro s.macros.size := by
      subst hk
      exact Store.resolve_setVar (s := (s.newMacro _).2) hscope x.text (.ofMacro s.macros.size)
    exact congrArg (EStateM.Result.ok · _) hresolve
  have harguments : Eval.arguments features (n + 1) scope [] [] (s.defining k) = .ok ⟨[], []⟩ (s.defining k) := by
    simp only [Eval.arguments]
    rfl
  have hget : (s.defining k).macros[s.macros.size]? = some k := Array.getElem?_push_size
  have hcall : Eval.evaluate features (n + 2) scope (.call l'' (.name x) [] []) (s.defining k) =
      (do return Eval.captured features (← Eval.render features n s.scopes.size body)) ((s.defining k).calling k) := by
    simp only [Eval.evaluate]
    rw [bind_ok hname, bind_ok harguments, call_ofMacro hget (by rw [← hk]), Store.size_defining, ← hk]
  rw [render_pair hdefine]
  simp only [Eval.execute]
  cases hr : Eval.render features n s.scopes.size body ((s.defining k).calling k) with
  | ok text t =>
    rw [bind_ok (hcall.trans (bind_ok hr)), written_captured]
    rfl
  | error e t => rw [bind_error (hcall.trans (bind_error hr))]

/-! ## What the names mean -/

/-- A macro that was there sees a new one only from inside of its scope. -/
theorem allowed_calling (hs : whole.Rules s) (hk : k ∈ s.macros)
    (hallowed : s.Encloses k.scope scope → k.Allowed (.free features) {n | n ≠ m}) : ∃ known : Set Text,
      (∀ n ∈ known, (s.newScope (some scope) []).2.SameName
        ((s.defining ⟨m, [], [], body, scope⟩).calling ⟨m, [], [], body, scope⟩) k.scope n) ∧
      k.Allowed (.free features) known := by
  have hold : k.scope < s.scopes.size := by
    obtain ⟨i, hi⟩ := Array.getElem?_of_mem hk
    exact (hs.macros i (Nat.zero_le i) k hi).2
  refine ⟨{name | s.Encloses k.scope scope → name ≠ m}, fun name hname j hj => ?_, ?_⟩
  · have hin := Store.encloses_of_newScope hs hold hj
    have hlt := (Store.le_of_encloses hs hin hold).trans_lt hold
    refine Store.lookup_calling (hlt.trans (by simp [Store.newScope])) ?_ fun hj => absurd hlt (hj ▸ Nat.lt_irrefl _)
    rintro rfl
    exact hname hin
  · by_cases hin : s.Encloses k.scope scope
    · simpa [hin] using hallowed hin
    · simpa [hin] using k.allowed_free features

/-- The macro has the effect of its body in a new scope. -/
theorem sameEffect_abstracts {template : List Stmt} (htemplate : Stmt.Abstracts m body template) (hs : whole.Rules s)
    (hscope : scope < s.scopes.size)
    (hbody : bodyAllowed (.free features) {n | n ≠ m ∧ n ≠ Text.ofString "varargs" ∧ n ≠ Text.ofString "kwargs"} body)
    (hmacros : ∀ k ∈ s.macros, s.Encloses k.scope scope → k.Allowed (.free features) {n | n ≠ m}) :
    s.SameEffect (Eval.renderInner features n scope body) (Eval.render features (n + 4) scope template) := by
  obtain ⟨hx⟩ := htemplate
  have hparent : ∀ k ∈ some scope, whole.Has s (.scope, k) := by
    rintro k ⟨⟩
    exact has_whole hscope
  have hempty : ∀ p ∈ ([] : List (Text × Value)), whole.Owns s p.2 := nofun
  obtain ⟨hrules, hgrows, -, hnew⟩ := hs.newScope hparent hempty
  have hends := Realm.ends_widening (s.widens_calling ⟨m, [], [], body, scope⟩) hrules
    (fun k hk => allowed_calling hs hk (hmacros k hk)) hnew (fun name hname j hj => ?_) hbody n
  · exact Realm.sameEffect_of_ends hgrows rfl (render_abstracts hx hscope) hends
  · exact Store.lookup_calling ((Store.le_of_encloses hrules hj hnew).trans_lt hnew) (fun _ => hname.1) fun _ => hname.2

/-- A body has the same result where it is run once in a new scope, where a block takes its text, and where it is called
as a macro, in every store that uses only what is taken and with one depth left for the body. The block leaves the same
in all containers, and the macro up to the identities of new ones. The macro's name is read neither by the body nor by a
macro that was there inside of the scope, unless they bind it themselves, and the body reads no rest of arguments. -/
theorem render_abstracted (hs : whole.Rules s) (hscope : scope < s.scopes.size)
    (hbody : bodyAllowed (.free features) {n | n ≠ m ∧ n ≠ Text.ofString "varargs" ∧ n ≠ Text.ofString "kwargs"} body)
    (hmacros : ∀ k ∈ s.macros, s.Encloses k.scope scope → k.Allowed (.free features) {n | n ≠ m}) (depth : Nat) :
    let once : Eval Text := Eval.renderInner features depth scope body
    (∀ template, Stmt.Captures body template →
      let block : Eval Text := Eval.render features (depth + 2) scope template
      outcome once s = outcome block s ∧ (after once s).lists = (after block s).lists ∧
        (after once s).mappings = (after block s).mappings ∧ (after once s).tables = (after block s).tables) ∧
    ∀ template, Stmt.Abstracts m body template →
      s.SameEffect once (Eval.render features (depth + 4) scope template) := by
  intro once
  refine ⟨?_, fun template htemplate => sameEffect_abstracts htemplate hs hscope hbody hmacros⟩
  rintro template ⟨hxy⟩
  obtain ⟨hok, herror⟩ := render_captures features depth body hxy hscope
  dsimp only
  unfold outcome after
  cases honce : once s with
  | ok text t =>
    rw [hok text t honce]
    exact ⟨rfl, rfl, rfl, rfl⟩
  | error e t =>
    rw [herror e t honce]
    exact ⟨rfl, rfl, rfl, rfl⟩

namespace Abstracted

def builtin : Features := ⟨true, builtinFilters, builtinTests⟩

/-- A store with one scope and nothing else. -/
def bare : Store := (Store.empty.newScope none []).2

/-- The store after some statements. -/
def prepared (statements : List Stmt) : Store := after (Eval.render builtin 9 0 statements) bare

theorem rules_prepared {statements : List Stmt}
    (h : passes (fun _ => true) (outcome (Eval.render builtin 9 0 statements) bare) = true) :
    whole.Rules (prepared statements) := by
  have hnone : ∀ k ∈ (none : Option ScopeId), whole.Has .empty (.scope, k) := nofun
  have hempty : ∀ p ∈ ([] : List (Text × Value)), whole.Owns .empty p.2 := nofun
  obtain ⟨hstart, -, hhome⟩ := whole.rules_start.newScope hnone hempty
  obtain ⟨text, t, ht, -⟩ := exists_of_passes h
  unfold prepared after
  rw [ht]
  exact ((Realm.yielding whole builtin 9).render hhome hstart text t ht).1

/-- A list, and a macro that makes it longer. -/
def appending : List Stmt :=
  [.assign 1 (.name ⟨"x", 1, 7⟩) (.list 1 [.const 1 (.text "a")]),
    .define 1 "f" [] [] [.perform 1 (.call 1 (.member 1 (.name ⟨"x", 1, 40⟩) "append") [.const 1 (.text "b")] []),
      .text 1 "<"]]

/-- A call of the macro, the length of the list, and a text that is escaped. -/
def growing : List Stmt :=
  [.output 1 (.call 1 (.name ⟨"f", 1, 3⟩) [] []), .output 1 (.filter 1 (.name ⟨"x", 1, 12⟩) "length" [] []),
    .output 1 (.const 1 (.text "<"))]

/-- A macro that asks whether `m` is defined. -/
def reading : List Stmt :=
  [.define 1 "f" [] [] [.output 1 (.test 1 (.name ⟨"m", 1, 17⟩) "defined" [] [] false)]]

/-- A call of that macro. -/
def asking : List Stmt := [.output 1 (.call 1 (.name ⟨"f", 1, 3⟩) [] [])]

def block (body : List Stmt) : List Stmt :=
  [.capture 1 (.name ⟨"y", 1, 7⟩) body, .output 1 (.name ⟨"y", 1, 60⟩)]

def called (body : List Stmt) : List Stmt :=
  [.define 1 "m" [] [] body, .output 1 (.call 1 (.name ⟨"m", 1, 60⟩) [] [])]

end Abstracted

/-- The list grows once each time, and each text is escaped once. -/
theorem render_abstracted_of_append :
    let s := Abstracted.prepared Abstracted.appending
    let once := Eval.renderInner Abstracted.builtin 20 0 Abstracted.growing
    let block := Eval.render Abstracted.builtin 22 0 (Abstracted.block Abstracted.growing)
    let called := Eval.render Abstracted.builtin 24 0 (Abstracted.called Abstracted.growing)
    outcome once s = .ok "<2&lt;" ∧ outcome block s = .ok "<2&lt;" ∧ outcome called s = .ok "<2&lt;" ∧
      (after once s).lists = (after block s).lists ∧ s.SameEffect once called := by
  intro s once block called
  have hbody : bodyAllowed (.free Abstracted.builtin)
      {n | n ≠ Text.ofString "m" ∧ n ≠ Text.ofString "varargs" ∧ n ≠ Text.ofString "kwargs"} Abstracted.growing :=
    bodyAllowed_of_reads (.free _ _) (by decide)
  have hreads : ∀ k ∈ s.macros.toList, (∀ e ∈ k.defaults, ∀ n ∈ e.reads, n.text ≠ Text.ofString "m") ∧
      ∀ s ∈ k.body, ∀ n ∈ s.reads, n.text ≠ Text.ofString "m" := by decide +kernel
  have hmacros : ∀ k ∈ s.macros, s.Encloses k.scope 0 →
      k.Allowed (.free Abstracted.builtin) {n | n ≠ Text.ofString "m"} := by
    intro k hk _
    obtain ⟨hdefaults, hinner⟩ := hreads k (Array.mem_toList_iff.mpr hk)
    exact k.allowed_of_reads _ hdefaults hinner
  have hrules : whole.Rules s := Abstracted.rules_prepared (by decide +kernel)
  obtain ⟨hblock, hcalled⟩ := render_abstracted hrules (by decide +kernel) hbody hmacros 20
  obtain ⟨hout, hlists, -, -⟩ := hblock (Abstracted.block Abstracted.growing) ⟨rfl⟩
  have heffect : s.SameEffect once called := hcalled (Abstracted.called Abstracted.growing) ⟨rfl⟩
  have honce : outcome once s = .ok "<2&lt;" := by decide +kernel
  exact ⟨honce, hout.symm.trans honce, heffect.1.symm.trans honce, hlists, heffect⟩

/-- A macro that was there in the same scope sees the new one, though the body does not name it. -/
theorem render_abstracted_ne_of_reader :
    let s := Abstracted.prepared Abstracted.reading
    (whole.Rules s ∧ 0 < s.scopes.size ∧ ∀ stmt ∈ Abstracted.asking, ∀ n ∈ stmt.reads, n.text = Text.ofString "f") ∧
      Stmt.Abstracts (Text.ofString "m") Abstracted.asking (Abstracted.called Abstracted.asking) ∧
      outcome (Eval.renderInner Abstracted.builtin 20 0 Abstracted.asking) s = .ok "false" ∧
      outcome (Eval.render Abstracted.builtin 24 0 (Abstracted.called Abstracted.asking)) s = .ok "true" :=
  ⟨⟨Abstracted.rules_prepared (by decide +kernel), by decide +kernel, by decide⟩, ⟨rfl⟩, by decide +kernel,
    by decide +kernel⟩

end Stencil
