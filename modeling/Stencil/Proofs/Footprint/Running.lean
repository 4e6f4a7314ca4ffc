import Stencil.Proofs.Footprint.Basic
import Stencil.Render.Environment

/-!
What running a template changes. Expressions write to no scope that was there before them, and statements only to the
scope that they are executed in.
-/
namespace Stencil

variable {U : Usage} {features : Features} {W : Set ScopeId} {s t : Store} {i : ScopeId} (v w : Value)

/-! ## Members, operators and filters -/

theorem runs_bound (kind : Kind) (name : Text) (f? : Option Native) :
    Runs U features W (Eval.bound kind name f?) := by
  cases f? with
  | some f => exact runs_newNative f
  | none => exact .pure _

theorem runs_memberOfKeyed (c : Keyed) (name : Text) :
    Runs U features W
      (match KeyedMethod.ofName? name with
        | some m => Eval.newNative (.keyed m c)
        | none => do match (← get).ownValue? c name with
          | some v => return v
          | none => return .undefined (.member .dict name)) := by
  split
  · exact runs_newNative _
  · refine .get_bind fun s _ => ?_
    split <;> exact .pure _

theorem runs_member (name : Text) : Runs U features W (Eval.member v name) := by
  unfold Eval.member
  cases Eval.isHidden name with
  | true => cases v <;> exact .throw rfl
  | false =>
    cases v with
    | undefined reason => exact .throw rfl
    | text t | safe t | list id => exact runs_bound _ _ _
    | mapping id => exact runs_memberOfKeyed (.mapping id) name
    | table id => exact runs_memberOfKeyed (.table id) name
    | _ => exact .pure _

theorem runs_item : Runs U features W (Eval.item v w) := by
  unfold Eval.item
  split
  · exact .throw rfl
  · refine (Runs.of_quiet (quiet_picked? v w)).bind fun picked => ?_
    cases picked with
    | some found => exact .pure _
    | none =>
      refine (Runs.of_quiet (quiet_dataAt v w)).bind fun found => ?_
      cases found with
      | some x => exact .pure x
      | none =>
        dsimp only
        split
        · exact runs_member v _
        · exact (Runs.of_quiet (quiet_repr w)).bind fun _ => .pure _

theorem runs_slice (start stop step : Value) : Runs U features W (Eval.slice v start stop step) := by
  unfold Eval.slice
  split
  · exact .throw rfl
  · refine .get_bind fun s _ => ?_
    split
    · exact .throw rfl
    · refine (Runs.of_quiet (quiet_sliceBound step)).bind fun step => ?_
      dsimp only
      split
      · exact .throw rfl
      · refine (Runs.of_quiet (quiet_sliceBound start)).bind fun start => ?_
        refine (Runs.of_quiet (quiet_sliceBound stop)).bind fun stop => ?_
        split
        · exact .pure _
        · exact runs_newList _

theorem runs_repeated? (times : Number) : Runs U features W (Eval.repeated? v times) := by
  unfold Eval.repeated?
  split
  · dsimp only
    split
    · exact .throw rfl
    · exact .pure _
  · exact (Runs.of_quiet (.read _)).bind fun items => (runs_newList _).bind fun _ => .pure _
  · exact .pure none

theorem runs_combined? (op : BinaryOp) : Runs U features W (Eval.combined? op v w) := by
  have hjoined : Runs U features W (Eval.joined? v w) := by
    unfold Eval.joined?
    split
    · exact .pure _
    · refine (Runs.of_quiet (.read _)).bind fun left => (Runs.of_quiet (.read _)).bind fun right => ?_
      exact (runs_newList _).bind fun _ => .pure _
    · exact .pure none
  have hmultiplied : Runs U features W (Eval.multiplied? v w) := by
    unfold Eval.multiplied?
    split
    · exact runs_repeated? _ _
    · exact runs_repeated? _ _
    · exact .pure none
  cases op with
  | add => exact hjoined
  | mul => exact hmultiplied
  | _ => exact .pure none

theorem runs_plainBinary (op : BinaryOp) : Runs U features W (Eval.plainBinary op v w) := by
  unfold Eval.plainBinary
  split
  · exact (Runs.of_quiet (quiet_arithmetic op _ _)).bind fun _ => .pure _
  · refine (runs_combined? _ _ op).bind fun result => ?_
    cases result with
    | some x => exact .pure x
    | none => exact .throw rfl

theorem runs_binary (op : BinaryOp) : Runs U features W (Eval.binary op v w) := by
  unfold Eval.binary
  split
  · refine (Runs.of_quiet (quiet_display v)).bind fun _ => ?_
    exact (Runs.of_quiet (quiet_display w)).bind fun _ => .pure _
  · refine (Runs.of_quiet (quiet_plain v)).bind fun left => ?_
    split
    · exact (Runs.of_quiet (quiet_percentFormat w _)).bind fun _ => .pure _
    · exact (Runs.of_quiet (quiet_plain w)).bind fun right => runs_plainBinary _ _ _

theorem runs_signed (sign : Sign) : Runs U features W (Eval.signed sign v) := by
  refine (Runs.of_quiet (quiet_plain v)).bind fun x => ?_
  cases x with
  | number x => exact .pure _
  | _ => exact .throw rfl

theorem runs_newList_items (f : List Value → List Value) :
    Runs U features W (do Eval.newList (f (← Eval.items v))) :=
  (Runs.of_quiet (quiet_items v)).bind fun items => runs_newList (f items)

/-- A filter that makes a list makes a new one. -/
theorem runs_applyFilter (f : Filter) (a : Arguments) : Runs U features W (Eval.applyFilter f v a) := by
  cases f with
  | default =>
    refine (Runs.of_quiet (quiet_truthy _)).bind fun useBoolean => ?_
    split
    · exact .pure _
    · exact (Runs.of_quiet (quiet_truthy _)).bind fun _ => .pure _
  | join =>
    refine (Runs.of_quiet (quiet_items v)).bind fun items => ?_
    refine (Runs.of_quiet (.mapM quiet_display)).bind fun parts => ?_
    exact (Runs.of_quiet (quiet_display _)).bind fun _ => .pure _
  | length =>
    refine .get_bind fun s _ => ?_
    split
    · exact .pure _
    · exact .throw rfl
  | replace =>
    refine (Runs.of_quiet (quiet_display v)).bind fun _ => (Runs.of_quiet (quiet_display _)).bind fun _ => ?_
    exact (Runs.of_quiet (quiet_display _)).bind fun _ => .pure _
  | first | last => exact (Runs.of_quiet (quiet_items v)).bind fun _ => .pure _
  | int | float =>
    refine (Runs.of_quiet (quiet_toNumber? v)).bind fun x? => ?_
    cases x? with
    | some x => exact .pure _
    | none => exact (Runs.of_quiet (quiet_numberArgument a 0 _ 0)).bind fun _ => .pure _
  | list => exact runs_newList_items v id
  | sort =>
    refine (Runs.of_quiet (quiet_truthy _)).bind fun reverse => ?_
    refine (Runs.of_quiet (quiet_truthy _)).bind fun caseSensitive => ?_
    refine (Runs.of_quiet (quiet_items v)).bind fun items => ?_
    exact (Runs.of_quiet (.readDeep _)).bind fun sorted => runs_newList _
  | unique =>
    refine (Runs.of_quiet (quiet_items v)).bind fun items => ?_
    exact (Runs.of_quiet (.readDeep _)).bind fun found => runs_newList found
  | reverse =>
    cases v with
    | text t => exact .pure _
    | _ => exact runs_newList_items _ List.reverse
  | round =>
    refine (Runs.of_quiet (quiet_toNumber? v)).bind fun x? => ?_
    refine (Runs.of_quiet (quiet_numberArgument a 0 _ 0)).bind fun precision => ?_
    have hrest : ∀ method, Runs U features W
        (do return Value.number (← Eval.ofExcept (roundNumber (x?.getD 0) precision method))) :=
      fun method => (Runs.of_quiet (quiet_roundNumber _ precision method)).bind fun _ => .pure _
    dsimp only
    split
    · rw [pure_bind]
      exact hrest _
    · exact (Runs.of_quiet (quiet_display _)).bind hrest
  | abs =>
    cases v with
    | number x => exact .pure _
    | _ => exact .throw rfl
  | _ => exact (Runs.of_quiet (quiet_display v)).bind fun _ => .pure _

/-! ## Functions -/

theorem runs_callRange (a : Arguments) : Runs U features W (Eval.callRange a) := by
  refine (Runs.of_quiet (.mapM fun v => ?_)).bind fun xs => ?_
  · split
    · split
      · exact .pure _
      · exact .throw rfl
    · exact .throw rfl
  · refine (Runs.of_quiet (quiet_rangeBounds xs)).bind fun bounds => ?_
    exact (Runs.of_quiet (quiet_rangeNumbers _ _ _)).bind fun _ => runs_newList _

theorem runs_callText (m : TextMethod) (self : Text) (a : Arguments) :
    Runs U features W (Eval.callText m self a) := by
  have htext : ∀ k, Runs U features W (Eval.textArgument a k) := fun k => .of_quiet (quiet_textArgument a k)
  cases m with
  | startswith | endswith => exact (htext 0).bind fun _ => .pure _
  | replace => exact (htext 0).bind fun _ => (htext 1).bind fun _ => .pure _
  | split =>
    unfold Eval.callText
    dsimp only
    split
    · exact runs_newList _
    · exact runs_newList _
    · exact (htext 0).bind fun _ => runs_newList _
  | join =>
    refine (Runs.of_quiet (quiet_items _)).bind fun items => ?_
    exact (Runs.of_quiet (.mapM quiet_display)).bind fun _ => .pure _
  | _ => exact .pure _

theorem runs_callList (hcalls : U.Calls) (m : ListMethod) (self : ListId) (a : Arguments) :
    Runs U features W (Eval.callList m self a) := by
  have hset : ∀ f : Store → List Value, Runs U features W (modify fun s => s.setList self (f s) : Eval Unit) :=
    fun f => runs_write hcalls (fun _ => rfl) fun _ => rfl
  have hpop : ∀ index, Runs U features W (Eval.popAt self index) :=
    fun index => (Runs.of_quiet (.read _)).bind fun items => (hset _).bind fun _ => .pure _
  cases m with
  | append => exact (hset _).bind fun _ => .pure _
  | extend => exact (Runs.of_quiet (quiet_items _)).bind fun more => (hset _).bind fun _ => .pure _
  | pop =>
    refine (Runs.of_quiet (.read _)).bind fun items => ?_
    dsimp only
    split
    · exact .throw rfl
    · split <;> exact hpop _
  | index =>
    refine (Runs.of_quiet (.read _)).bind fun items => (Runs.of_quiet (.readDeep _)).bind fun places => ?_
    cases places with
    | nil => exact (Runs.of_quiet (quiet_repr _)).bind fun _ => .throw rfl
    | cons k rest => exact .pure _
  | count => exact (Runs.of_quiet (.read _)).bind fun items => (Runs.of_quiet (.readDeep _)).bind fun _ => .pure _

theorem setEntries_scopes (c : Keyed) (entries : List (Text × Value)) (s : Store) :
    (entries.foldl (fun s (key, v) => s.setEntry c key v) s).scopes = s.scopes ∧
      (entries.foldl (fun s (key, v) => s.setEntry c key v) s).macros = s.macros := by
  induction entries generalizing s with
  | nil => exact ⟨rfl, rfl⟩
  | cons p entries ih =>
    have hentry : (s.setEntry c p.1 p.2).scopes = s.scopes ∧ (s.setEntry c p.1 p.2).macros = s.macros := by
      cases c <;> exact ⟨rfl, rfl⟩
    rw [List.foldl_cons, (ih _).1, (ih _).2]
    exact hentry

theorem runs_callKeyed (hcalls : U.Calls) (m : KeyedMethod) (self : Keyed) (a : Arguments) :
    Runs U features W (Eval.callKeyed m self a) := by
  have hread : Runs U features W (Eval.read (·.entriesOf self)) := .of_quiet (.read _)
  cases m with
  | items => exact hread.bind fun entries => (Runs.mapM fun p _ => runs_newList _).bind fun vs => runs_newList vs
  | keys | values => exact hread.bind fun entries => runs_newList _
  | get =>
    refine .get_bind fun s _ => ?_
    split <;> exact .pure _
  | update =>
    refine .get_bind fun s _ => ?_
    refine (runs_write hcalls (fun t => ?_) fun t => ?_).bind fun _ => .pure _
    · exact (setEntries_scopes self _ t).1
    · exact (setEntries_scopes self _ t).2

theorem runs_callNative (hcalls : U.Calls) (f : Native) (a : Arguments) :
    Runs U features W (Eval.callNative f a) := by
  cases f with
  | range => exact runs_callRange a
  | dict => exact runs_mappingOf _
  | cycle index =>
    unfold Eval.callNative
    dsimp only
    split
    · exact .throw rfl
    · exact .pure _
  | text m self => exact runs_callText m self a
  | list m self => exact runs_callList hcalls m self a
  | keyed m self => exact runs_callKeyed hcalls m self a

/-! ## Targets, loops and parameters -/

theorem runs_assign (target : Target) (hi : i ∈ W) : Runs U features W (Eval.assign target v i) := by
  cases target with
  | name n => exact runs_setVar hi n.text v
  | tuple line names =>
    refine (Runs.of_quiet (quiet_items v)).bind fun vs => ?_
    dsimp only
    split
    · exact .throw rfl
    · refine (Runs.forIn (fun p _ => ?_) _).bind fun _ => .pure _
      exact (runs_setVar hi p.1.text p.2).bind fun _ => .pure _

theorem runs_loopContext (cells : Array Value) (index : Nat) :
    Runs U features W (Eval.loopContext cells index) :=
  (runs_newNative _).bind fun _ => runs_mappingOf _

theorem runs_keptItems {keep : Value → Eval Bool} (hkeep : ∀ x, Runs U features W (keep x)) :
    Runs U features W (Eval.keptItems v keep) := by
  cases v with
  | list id =>
    refine (Runs.of_quiet (.read _)).bind fun items => ?_
    refine (Runs.foldlM (fun kept k _ => .get_bind fun s _ => ?_) []).bind fun kept => .pure _
    split
    · exact (hkeep _).bind fun _ => .pure _
    · exact .pure kept
  | _ => exact (Runs.of_quiet (quiet_items _)).bind fun items => .filterM hkeep

theorem runs_bindParams (m : Macro) (a : Arguments) (hi : i ∈ W) {default : Expr → Eval Value}
    (hdefault : ∀ e ∈ m.defaults, Runs U features W (default e)) :
    Runs U features W (Eval.bindParams m a i default) := by
  refine .foldlM (fun named p hp => ?_) a.named
  obtain ⟨⟨param, default?⟩, k⟩ := p
  have hmem : default? ∈ alignDefaults m.params.length m.defaults :=
    (List.of_mem_zip (List.fst_mem_of_mem_zipIdx hp)).2
  change Runs U features W (Eval.bindParam m.name a i default named param default? k)
  unfold Eval.bindParam
  split
  · exact .throw rfl
  · exact (runs_setVar hi _ _).bind fun _ => .pure _
  · exact (runs_setVar hi _ _).bind fun _ => .pure _
  · cases default? with
    | none => exact (runs_setVar hi _ _).bind fun _ => .pure _
    | some e =>
      have he : e ∈ m.defaults := by
        rcases List.mem_append.mp hmem with hnone | hsome
        · cases List.eq_of_mem_replicate hnone
        · obtain ⟨e', he', heq⟩ := List.mem_map.mp hsome
          cases heq
          exact he'
      exact (hdefault e he).bind fun x => (runs_setVar hi _ _).bind fun _ => .pure _

/-! ## Evaluation -/

/-- What running to a depth may change, where a computation comes by expressions of a usage only. -/
structure Framing (U : Usage) (features : Features) (n : Nat) : Prop where
  evaluate {W : Set ScopeId} {i : ScopeId} {e : Expr} (he : ∀ x, x.Within e → x ∈ U) :
    Runs U features W (Eval.evaluate features n i e)
  arguments {W : Set ScopeId} {i : ScopeId} {args : List Expr} {named : List (Text × Expr)}
    (hargs : ∀ e ∈ args ++ named.map (·.2), ∀ x, x.Within e → x ∈ U) :
    Runs U features W (Eval.arguments features n i args named)
  call {W : Set ScopeId} {v : Value} {a : Arguments} (hcalls : U.Calls) :
    Runs U features W (Eval.call features n v a)
  render {W : Set ScopeId} {i : ScopeId} {body : List Stmt} (hi : i ∈ W) (hbody : ∀ x, x.Inside body → x ∈ U) :
    Runs U features W (Eval.render features n i body)
  execute {W : Set ScopeId} {i : ScopeId} {stmt : Stmt} (hi : i ∈ W) (hstmt : ∀ x, x.Inside [stmt] → x ∈ U) :
    Runs U features W (Eval.execute features n i stmt)

theorem Framing.zero : Framing U features 0 where
  evaluate _ := by
    unfold Eval.evaluate
    exact .throw rfl
  arguments _ := by
    unfold Eval.arguments
    exact .throw rfl
  call _ := by
    unfold Eval.call
    exact .throw rfl
  render _ _ := by
    unfold Eval.render
    exact .throw rfl
  execute _ _ := by
    unfold Eval.execute
    exact .throw rfl

section steps

variable {n : Nat} (ih : Framing U features n)
include ih

theorem runs_optional {e? : Option Expr} (h : ∀ e ∈ e?, ∀ x, x.Within e → x ∈ U) :
    Runs U features W
      (match e? with
        | some e => Eval.evaluate features n i e
        | none => return .none) := by
  cases e? with
  | some e => exact ih.evaluate (h e rfl)
  | none => exact .pure _

theorem runs_evaluate {e : Expr} (he : ∀ x, x.Within e → x ∈ U) :
    Runs U features W (Eval.evaluate features (n + 1) i e) := by
  have hpart : ∀ y ∈ e.parts, Runs U features W (Eval.evaluate features n i y) :=
    fun y hy => ih.evaluate fun x hx => he x (.part hy hx)
  have hself : e ∈ U := he e .whole
  cases e with
  | name name =>
    simp only [Eval.evaluate]
    exact .of_quiet (.read _)
  | const line c =>
    simp only [Eval.evaluate]
    exact .pure _
  | list line es | tuple line es =>
    simp only [Eval.evaluate]
    exact (Runs.mapM hpart).bind fun vs => runs_newList vs
  | dict line entries =>
    simp only [Eval.evaluate]
    refine (Runs.mapM fun p hp => ?_).bind fun ps => runs_mappingOf ps
    have hentry : ∀ y ∈ [p.1, p.2], Runs U features W (Eval.evaluate features n i y) :=
      fun y hy => hpart y (List.mem_flatMap.mpr ⟨p, hp, hy⟩)
    refine (hentry p.1 (by simp)).bind fun key => (Runs.of_quiet (quiet_display key)).bind fun _ => ?_
    exact (hentry p.2 (by simp)).bind fun _ => .pure _
  | member line target name =>
    simp only [Eval.evaluate]
    exact (hpart target (by simp [Expr.parts])).bind fun v => runs_member v name
  | item line target key =>
    simp only [Eval.evaluate]
    refine (hpart target (by simp [Expr.parts])).bind fun v => ?_
    exact (hpart key (by simp [Expr.parts])).bind fun k => runs_item v k
  | slice line target start stop step =>
    simp only [Eval.evaluate]
    have hbound : ∀ e? : Option Expr, (∀ y ∈ e?, y ∈ (Expr.slice line target start stop step).parts) →
        ∀ y ∈ e?, ∀ x, x.Within y → x ∈ U := fun e? hparts y hy x hx => he x (.part (hparts y hy) hx)
    refine (hpart target (by simp [Expr.parts])).bind fun v => ?_
    refine (runs_optional ih (hbound start (by simp +contextual [Expr.parts]))).bind fun first => ?_
    refine (runs_optional ih (hbound stop (by simp +contextual [Expr.parts]))).bind fun last => ?_
    exact (runs_optional ih (hbound step (by simp +contextual [Expr.parts]))).bind fun by' => runs_slice v first last by'
  | call line callee args named =>
    simp only [Eval.evaluate]
    refine (hpart callee (by simp [Expr.parts])).bind fun v => ?_
    refine (ih.arguments fun y hy x hx => he x (.part (List.mem_cons_of_mem _ hy) hx)).bind fun a => ?_
    exact ih.call ⟨line, callee, args, named, hself⟩
  | filter line target name args named =>
    simp only [Eval.evaluate]
    split
    · rename_i hnone
      apply Runs.throw_of_not
      intro hsupplied
      have hsome := hsupplied.filters hself
      rw [hnone] at hsome
      cases hsome
    · refine (hpart target (by simp [Expr.parts])).bind fun v => ?_
      refine (ih.arguments fun y hy x hx => he x (.part (List.mem_cons_of_mem _ hy) hx)).bind fun a => ?_
      exact runs_applyFilter v _ a
  | test line target name args named negated =>
    simp only [Eval.evaluate]
    split
    · rename_i hnone
      apply Runs.throw_of_not
      intro hsupplied
      have hsome := hsupplied.tests hself
      rw [hnone] at hsome
      cases hsome
    · refine (hpart target (by simp [Expr.parts])).bind fun v => ?_
      refine (ih.arguments fun y hy x hx => he x (.part (List.mem_cons_of_mem _ hy) hx)).bind fun a => ?_
      exact (Runs.of_quiet (quiet_applyTest v _ a)).bind fun _ => .pure _
  | not line operand =>
    simp only [Eval.evaluate]
    exact (hpart operand (by simp [Expr.parts])).bind fun v => (Runs.of_quiet (quiet_truthy v)).bind fun _ => .pure _
  | signed line sign operand =>
    simp only [Eval.evaluate]
    exact (hpart operand (by simp [Expr.parts])).bind fun v => runs_signed v sign
  | binary line op left right =>
    simp only [Eval.evaluate]
    refine (hpart left (by simp [Expr.parts])).bind fun v => ?_
    exact (hpart right (by simp [Expr.parts])).bind fun w => runs_binary v w op
  | logical line op left right =>
    simp only [Eval.evaluate]
    refine (hpart left (by simp [Expr.parts])).bind fun v => (Runs.of_quiet (quiet_truthy v)).bind fun holds => ?_
    split
    · exact hpart right (by simp [Expr.parts])
    · exact .pure v
  | compare line first rest =>
    simp only [Eval.evaluate]
    refine (hpart first (by simp [Expr.parts])).bind fun v => ?_
    refine (Runs.foldlM (fun state p hp => ?_) (true, v)).bind fun _ => .pure _
    split
    · exact .pure state
    · refine (hpart p.2 (List.mem_cons_of_mem _ (List.mem_map_of_mem hp))).bind fun w => ?_
      exact (Runs.of_quiet (quiet_compare state.2 w p.1)).bind fun _ => .pure _
  | cond line value test otherwise =>
    have htest := hpart test (by simp [Expr.parts])
    have hvalue := hpart value (by simp [Expr.parts])
    cases otherwise with
    | none =>
      simp only [Eval.evaluate]
      refine htest.bind fun v => (Runs.of_quiet (quiet_truthy v)).bind fun holds => ?_
      split
      · exact hvalue
      · exact .pure _
    | some e =>
      simp only [Eval.evaluate]
      refine htest.bind fun v => (Runs.of_quiet (quiet_truthy v)).bind fun holds => ?_
      split
      · exact hvalue
      · exact hpart e (by simp [Expr.parts])

theorem runs_arguments {args : List Expr} {named : List (Text × Expr)}
    (hargs : ∀ e ∈ args ++ named.map (·.2), ∀ x, x.Within e → x ∈ U) :
    Runs U features W (Eval.arguments features (n + 1) i args named) := by
  simp only [Eval.arguments]
  refine (Runs.mapM fun e he => ih.evaluate (hargs e (List.mem_append_left _ he))).bind fun vs => ?_
  refine (Runs.mapM fun p hp => ?_).bind fun ps => .pure _
  exact (ih.evaluate (hargs p.2 (List.mem_append_right _ (List.mem_map_of_mem hp)))).bind fun _ => .pure _

/-- A macro runs in a scope of its own. -/
theorem runs_call {a : Arguments} (hcalls : U.Calls) : Runs U features W (Eval.call features (n + 1) v a) := by
  cases v with
  | native k f =>
    simp only [Eval.call]
    exact runs_callNative hcalls f a
  | ofMacro id =>
    simp only [Eval.call]
    refine .get_bind fun s hs => ?_
    split
    · exact .pure _
    · rename_i m hm
      have hm : ∀ x, m.Holds x → x ∈ U := hs hcalls m (Array.mem_of_getElem? hm)
      refine .enter fun inner => ?_
      have hinner : inner ∈ insert inner W := Set.mem_insert _ _
      have hdefault : ∀ e ∈ m.defaults, Runs U features (insert inner W) (Eval.evaluate features n inner e) :=
        fun e he => ih.evaluate fun x hx => hm x (.inl ⟨e, he, hx⟩)
      refine (runs_bindParams m a hinner hdefault).bind fun named => ?_
      refine (runs_newList _).bind fun rest => (runs_setVar hinner _ rest).bind fun _ => ?_
      refine (runs_mappingOf named).bind fun kwargs => (runs_setVar hinner _ kwargs).bind fun _ => ?_
      exact (ih.render hinner fun x hx => hm x (.inr hx)).bind fun _ => .pure _
  | _ =>
    simp only [Eval.call]
    exact .throw rfl

theorem runs_render {body : List Stmt} (hi : i ∈ W) (hbody : ∀ x, x.Inside body → x ∈ U) :
    Runs U features W (Eval.render features (n + 1) i body) := by
  simp only [Eval.render]
  refine (Runs.mapM fun stmt hstmt => ?_).bind fun _ => .pure _
  exact ih.execute hi fun x hx => hbody x (hx.mono fun _ h => List.mem_singleton.mp h ▸ hstmt)

/-- Each turn of a loop runs in a scope of its own, and so does what stands for them where there are none. -/
theorem runs_laps {body otherwise : List Stmt} (target : Target) (vs : List Value)
    (hbody : ∀ x, x.Inside body → x ∈ U) (hotherwise : ∀ x, x.Inside otherwise → x ∈ U) :
    Runs U features W
      (if vs.isEmpty then do
        Eval.render features n (← Eval.newScope i) otherwise
      else do
        let parts ← vs.zipIdx.mapM fun (item, k) => do
          let inner ← Eval.newScope i
          Eval.setVar inner (Text.ofString "loop") (← Eval.loopContext vs.toArray k)
          Eval.assign target item inner
          Eval.render features n inner body
        return parts.flatten) := by
  split
  · exact .enter fun inner => ih.render (Set.mem_insert _ _) hotherwise
  · refine (Runs.mapM fun p _ => .enter fun inner => ?_).bind fun _ => .pure _
    have hinner : inner ∈ insert inner W := Set.mem_insert _ _
    refine (runs_loopContext _ p.2).bind fun context => (runs_setVar hinner _ context).bind fun _ => ?_
    exact (runs_assign p.1 target hinner).bind fun _ => ih.render hinner hbody

/-- A loop writes to no scope that was there before it. -/
theorem runs_loop {line : Nat} {target : Target} {iter : Expr} {filter : Option Expr} {body otherwise : List Stmt}
    (hstmt : ∀ x, x.Inside [.loop line target iter filter body otherwise] → x ∈ U) :
    Runs U features W (Eval.execute features (n + 1) i (.loop line target iter filter body otherwise)) := by
  have hroot : ∀ e ∈ (Stmt.loop line target iter filter body otherwise).roots, ∀ x, x.Within e → x ∈ U :=
    fun e he x hx => hstmt x (.of_root he hx)
  have hbody : ∀ x, x.Inside body → x ∈ U :=
    fun x hx => hstmt x (hx.of_parts fun _ ht => List.mem_append_left _ ht)
  have hotherwise : ∀ x, x.Inside otherwise → x ∈ U :=
    fun x hx => hstmt x (hx.of_parts fun _ ht => List.mem_append_right _ ht)
  have hiter := hroot iter List.mem_cons_self
  cases filter with
  | none =>
    simp only [Eval.execute]
    refine (ih.evaluate hiter).bind fun source => (Runs.of_quiet (quiet_items source)).bind fun vs => ?_
    exact runs_laps ih target vs hbody hotherwise
  | some e =>
    have hfilter := hroot e (List.mem_cons_of_mem _ List.mem_cons_self)
    simp only [Eval.execute]
    refine (ih.evaluate hiter).bind fun source => (runs_keptItems source fun item => .enter fun inner => ?_).bind
      fun vs => runs_laps ih target vs hbody hotherwise
    refine (runs_assign item target (Set.mem_insert _ _)).bind fun _ => (ih.evaluate hfilter).bind fun v => ?_
    exact .of_quiet (quiet_truthy v)

theorem runs_execute {stmt : Stmt} (hi : i ∈ W) (hstmt : ∀ x, x.Inside [stmt] → x ∈ U) :
    Runs U features W (Eval.execute features (n + 1) i stmt) := by
  have hroot : ∀ e ∈ stmt.roots, Runs U features W (Eval.evaluate features n i e) :=
    fun e he => ih.evaluate fun x hx => hstmt x (.of_root he hx)
  cases stmt with
  | text line value =>
    simp only [Eval.execute]
    exact .pure _
  | output line e =>
    simp only [Eval.execute]
    exact (hroot e List.mem_cons_self).bind fun v => .of_quiet (quiet_written v features)
  | branches line bs otherwise =>
    simp only [Eval.execute]
    -- The body that is taken is one of the parts of the statement.
    have htaken : ∀ taken : Option (List Stmt), (∀ body ∈ taken, ∃ b ∈ bs, b.2 = body) →
        ∀ x, x.Inside (taken.getD otherwise) → x ∈ U := by
      intro taken h x hx
      refine hstmt x (hx.of_parts fun t ht => ?_)
      cases taken with
      | none => exact List.mem_append_right _ ht
      | some body =>
        obtain ⟨b, hb, rfl⟩ := h body rfl
        exact List.mem_append_left _ (List.mem_flatMap.mpr ⟨b, hb, ht⟩)
    refine (Runs.foldlM (fun taken b hb => ?_) none).bind_of
      (fun h => foldlM_ok (P := fun taken => ∀ body ∈ taken, ∃ b ∈ bs, b.2 = body) (fun taken h b hb s r t hr => ?_)
        (by simp) h)
      fun taken h => ih.render hi (htaken taken h)
    · split
      · exact .pure taken
      · refine (hroot b.1 (List.mem_map_of_mem hb)).bind fun v => ?_
        exact (Runs.of_quiet (quiet_truthy v)).bind fun _ => .pure _
    · split at hr
      · cases hr
        exact h
      · obtain ⟨v, u, _, hr⟩ := exists_of_bind_ok hr
        obtain ⟨holds, u', _, hr⟩ := exists_of_bind_ok hr
        cases hr
        intro body hbody
        split at hbody
        · cases hbody
          exact ⟨b, hb, rfl⟩
        · cases hbody
  | loop line target iter filter body otherwise => exact runs_loop ih hstmt
  | assign line target e =>
    simp only [Eval.execute]
    exact (hroot e List.mem_cons_self).bind fun v => (runs_assign v target hi).bind fun _ => .pure _
  | capture line target body =>
    simp only [Eval.execute]
    have hbody : ∀ x, x.Inside body → x ∈ U := fun x hx => hstmt x (hx.of_parts fun _ => id)
    refine .enter fun inner => (ih.render (Set.mem_insert _ _) hbody).bind fun t => ?_
    exact (runs_assign _ target (Set.mem_insert_of_mem _ hi)).bind fun _ => .pure _
  | define line name params defaults body =>
    simp only [Eval.execute]
    have hm : ∀ x, Macro.Holds ⟨name, params.map (·.text), defaults, body, i⟩ x → x ∈ U := by
      rintro x (⟨e, he, hx⟩ | hx)
      · exact hstmt x (.of_root he hx)
      · exact hstmt x (hx.of_parts fun _ => id)
    exact (Runs.alloc fun s => .newMacro hm).bind fun m => (runs_setVar hi name m).bind fun _ => .pure _
  | perform line e =>
    simp only [Eval.execute]
    exact (hroot e List.mem_cons_self).bind fun _ => .pure _

theorem Framing.succ : Framing U features (n + 1) where
  evaluate he := runs_evaluate ih he
  arguments hargs := runs_arguments ih hargs
  call hcalls := runs_call _ ih hcalls
  render hi hbody := runs_render ih hi hbody
  execute hi hstmt := runs_execute ih hi hstmt

end steps

theorem framing (U : Usage) (features : Features) : ∀ n, Framing U features n
  | 0 => .zero
  | n + 1 => (framing U features n).succ

/-- No scope goes while a body runs. -/
theorem size_le_of_render {depth : Nat} {body : List Stmt} {s t : Store} {text : Text}
    (h : Eval.render features depth i body s = .ok text t) : s.scopes.size ≤ t.scopes.size := by
  have hrun : Runs Set.univ features {i} (Eval.render features depth i body) :=
    (framing _ features depth).render rfl fun _ _ => trivial
  exact (hrun.ok (Usage.covers_univ s) h).size

/-- A template runs in scopes of its own. -/
theorem runs_run {env : Environment} {body : List Stmt} (hbody : ∀ x, x.Inside body → x ∈ U)
    (vars : List (Text × Value)) : Runs U env.features W (Eval.run env body vars) := by
  refine .bind (.alloc fun s => .newScope _ _) fun outer => .enter fun scope => ?_
  exact ((framing U env.features depthLimit).render (Set.mem_insert _ _) hbody).bind fun _ => .pure _

end Stencil
