import Stencil.Proofs.Render.Methods
import Stencil.Proofs.Render.Reprinting
import Stencil.Proofs.Value.Fuel

/-!
The ways in which a template reads an entry of a keyed container: by `in`, by an index, as a member and with `get`. Which
entry a value stands for is settled by its text.
-/
namespace Stencil.Eval

variable {features : Features} {depth : Nat} {scope : ScopeId} {line : Nat} {s s₁ s₂ : Store} {id : MappingId}
  {target : Keyed} {v k u : Value} {name : Text} {e key value : Expr}

/-! ## The text of a key -/

theorem display_eq (h : s.display? k = some name) : display k s = .ok name s := readDeep_eq h

theorem keyOf_eq (h : s.display? k = some name) : keyOf k s = .ok name s := by
  have hdisplay := display_eq h
  cases k with
  | text t =>
    obtain rfl : t = name := Option.some.inj h
    rfl
  | _ => exact hdisplay

/-- A value that has a text has one inside containers. -/
theorem exists_repr? (h : s.display? k = some name) : ∃ t, s.repr? k = some t := by
  cases k with
  | list id | mapping id | table id => exact ⟨name, h⟩
  | _ => exact ⟨_, rfl⟩

/-- The values whose text is the same wherever a key is made of them. -/
def IsAtom : Value → Prop
  | .text _ | .safe _ | .number _ | .bool _ => True
  | _ => False

theorem keyText_of_isAtom (hk : IsAtom k) (h : s.display? k = some name) (t : Store) : t.keyText k = name := by
  cases k with
  | text _ | safe _ | number _ | bool _ => exact Option.some.inj h
  | _ => exact hk.elim

/-! ## Entries -/

theorem ownValue?_of_get? (h : (s.mapping id).get? name = some (.data v)) : s.ownValue? (.mapping id) name = some v := by
  unfold Store.ownValue?
  dsimp only
  rw [h]

theorem ownValue?_of_get?_none (h : (s.mapping id).get? name = none) : s.ownValue? (.mapping id) name = none := by
  unfold Store.ownValue?
  dsimp only
  rw [h]

theorem any_entries (ps : Properties) (name : Text) :
    (ps.map fun p => (p.1, p.2.value)).any (fun p => decide (p.1 = name)) = (ps.get? name).isSome := by
  induction ps with
  | nil => rfl
  | cons p ps ih =>
    unfold Properties.get? at ih ⊢
    rw [List.map_cons, List.any_cons, List.lookup_cons, ih]
    by_cases hp : name = p.1
    · simp [hp]
    · rw [beq_eq_false_iff_ne.mpr hp, decide_eq_false (Ne.symm hp), Bool.false_or]

/-! ## Reading -/

theorem isIn_mapping (h : s.display? k = some name) :
    compare .isIn k (.mapping id) s = .ok ((s.mapping id).get? name).isSome s := by
  change (keyOf k >>= fun key => pure ((s.entriesOf (.mapping id)).any fun p => decide (p.1 = key)) : Eval Bool) s = _
  rw [bind_ok (keyOf_eq h), ← any_entries]
  rfl

theorem dataAt_keyed (hkeyed : v.keyed? = some target) (h : s.display? k = some name) : dataAt v k s =
    if isHidden name then .error (.unsafeKey .dict name) s else .ok (s.ownValue? target name) s := by
  unfold dataAt
  rw [hkeyed]
  dsimp only
  rw [bind_ok (keyOf_eq h)]
  cases isHidden name <;> rfl

theorem picked?_keyed (hkeyed : v.keyed? = some target) (k : Value) : picked? v k s = .ok none s := by
  cases v with
  | mapping id | table id =>
    cases k with
    | number x =>
      have hnone : (x.toInt?.bind fun i => (none : Option (List Value)).map (x, i, ·)) = none := by
        cases x.toInt? <;> rfl
      exact congrArg (EStateM.Result.ok · s) hnone
    | _ => rfl
  | _ => cases hkeyed

theorem item_of_some (hkeyed : v.keyed? = some target) (h : dataAt v k s = .ok (some u) s) :
    item v k s = .ok u s := by
  cases v with
  | mapping id | table id =>
    unfold item
    dsimp only
    rw [bind_ok (picked?_keyed hkeyed k)]
    dsimp only
    rw [bind_ok h]
    rfl
  | _ => cases hkeyed

theorem item_of_error {fault : Fault} (hkeyed : v.keyed? = some target) (h : dataAt v k s = .error fault s) :
    item v k s = .error fault s := by
  cases v with
  | mapping id | table id =>
    unfold item
    dsimp only
    rw [bind_ok (picked?_keyed hkeyed k)]
    dsimp only
    rw [bind_error h]
  | _ => cases hkeyed

theorem member_mapping_eq (hhidden : isHidden name = false) (hmethod : KeyedMethod.ofName? name = none) :
    member (.mapping id) name s = .ok ((s.ownValue? (.mapping id) name).getD (.undefined (.member .dict name))) s := by
  unfold member
  simp only [hhidden, hmethod, Value.keyed?, Bool.false_eq_true, if_false]
  refine (bind_ok (show (get : Eval Store) s = .ok s s from rfl)).trans ?_
  cases s.ownValue? (.mapping id) name <;> rfl

/-- Under a key without an entry there is a method, if the key is its name, or nothing. -/
theorem item_of_none (hhidden : isHidden name = false) (h : s.display? k = some name)
    (hnone : (s.mapping id).get? name = none) :
    (∃ reason, item (.mapping id) k s = .ok (.undefined reason) s) ∨
      ∃ m, item (.mapping id) k s = .ok (.native s.serial (.keyed m (.mapping id))) { s with serial := s.serial + 1 } := by
  have hdata : dataAt (.mapping id) k s = .ok none s := by
    rw [dataAt_keyed rfl h, hhidden, ownValue?_of_get?_none hnone]
    rfl
  unfold item
  dsimp only
  rw [bind_ok (picked?_keyed rfl k)]
  dsimp only
  rw [bind_ok hdata]
  cases k with
  | text t =>
    obtain rfl : t = name := Option.some.inj h
    change (∃ reason, member (.mapping id) t s = .ok (.undefined reason) s) ∨
      ∃ m, member (.mapping id) t s = .ok (.native s.serial (.keyed m (.mapping id))) { s with serial := s.serial + 1 }
    cases hm : KeyedMethod.ofName? t with
    | some m =>
      refine .inr ⟨m, ?_⟩
      unfold member
      simp only [hhidden, Value.keyed?, Bool.false_eq_true, if_false]
      rw [hm]
      rfl
    | none =>
      refine .inl ⟨.member .dict t, ?_⟩
      rw [member_mapping_eq hhidden hm, ownValue?_of_get?_none hnone]
      rfl
  | _ =>
    obtain ⟨t, ht⟩ := exists_repr? h
    refine .inl ⟨.element .dict t, ?_⟩
    exact (bind_ok (readDeep_eq ht)).trans rfl

theorem callKeyed_get (a : Arguments) : callKeyed .get target a s =
    .ok ((s.ownValue? target (s.keyText (a.nth 0))).getD (if a.nth 1 = .absent then .none else a.nth 1)) s := by
  refine (bind_ok (show (get : Eval Store) s = .ok s s from rfl)).trans ?_
  cases s.ownValue? target (s.keyText (a.nth 0)) <;> rfl

theorem callMember_get (hk : IsAtom k) (h : s.display? k = some name) (rest : List Value) :
    callMember features (depth + 1) (.mapping id) "get" ⟨k :: rest, []⟩ s =
      .ok ((s.ownValue? (.mapping id) name).getD
        (if Arguments.nth ⟨rest, []⟩ 0 = .absent then .none else Arguments.nth ⟨rest, []⟩ 0))
        { s with serial := s.serial + 1 } := by
  have hmember : member (.mapping id) "get" s =
      .ok (.native s.serial (.keyed .get (.mapping id))) { s with serial := s.serial + 1 } := rfl
  refine (callMember_native _ hmember).trans ((callKeyed_get _).trans ?_)
  rw [show Arguments.nth ⟨k :: rest, []⟩ 0 = k from rfl, keyText_of_isAtom hk h]
  rfl

/-! ## Agreement -/

/-- Each way of reading finds the value under the key. -/
structure Finds (features : Features) (depth : Nat) (id : MappingId) (k v : Value) (s : Store) : Prop where
  isIn : compare .isIn k (.mapping id) s = .ok true s
  item : item (.mapping id) k s = .ok v s
  get (hk : IsAtom k) (rest : List Value) :
    callMember features (depth + 1) (.mapping id) "get" ⟨k :: rest, []⟩ s = .ok v { s with serial := s.serial + 1 }

/-- No way of reading finds anything under the key: an index gives nothing or a method, and `get` its second
argument. -/
structure Misses (features : Features) (depth : Nat) (id : MappingId) (k : Value) (s : Store) : Prop where
  isIn : compare .isIn k (.mapping id) s = .ok false s
  item : (∃ reason, item (.mapping id) k s = .ok (.undefined reason) s) ∨
    ∃ m, item (.mapping id) k s = .ok (.native s.serial (.keyed m (.mapping id))) { s with serial := s.serial + 1 }
  get (hk : IsAtom k) {d : Value} (hd : d ≠ .absent) :
    callMember features (depth + 1) (.mapping id) "get" ⟨[k, d], []⟩ s = .ok d { s with serial := s.serial + 1 }

theorem finds_of_get? (h : s.display? k = some name) (hhidden : isHidden name = false)
    (hentry : (s.mapping id).get? name = some (.data v)) : Finds features depth id k v s where
  isIn := by
    rw [isIn_mapping h, hentry]
    rfl
  item := by
    refine item_of_some rfl ?_
    rw [dataAt_keyed rfl h, hhidden, ownValue?_of_get? hentry]
    rfl
  get hk rest := by
    rw [callMember_get hk h, ownValue?_of_get? hentry]
    rfl

theorem misses_of_get? (h : s.display? k = some name) (hhidden : isHidden name = false)
    (hnone : (s.mapping id).get? name = none) : Misses features depth id k s where
  isIn := by
    rw [isIn_mapping h, hnone]
    rfl
  item := item_of_none hhidden h hnone
  get hk d hd := by
    rw [callMember_get hk h, ownValue?_of_get?_none hnone]
    exact congrArg (EStateM.Result.ok · _) (if_neg hd)

theorem ofList_singleton (p : Text × Slot) : Properties.ofList [p] = [p] := by
  change Properties.set [] p.1 p.2 = _
  unfold Properties.set
  cases arrayIndex? p.1 <;> rfl

/-- A mapping that is written with one entry holds its value, under the text of its key. -/
theorem evaluate_entry (hkey : evaluate features depth scope key s = .ok k s₁) (h : s₁.display? k = some name)
    (hvalue : evaluate features depth scope value s₁ = .ok v s₂) :
    evaluate features (depth + 1) scope (.dict line [(key, value)]) s =
      .ok (.mapping s₂.mappings.size) (s₂.newMapping [(name, .data v)]).2 := by
  have hentry : evaluateEntry features depth scope (key, value) s = .ok (name, v) s₂ := by
    unfold evaluateEntry
    exact (bind_ok hkey).trans ((bind_ok (display_eq h)).trans ((bind_ok hvalue).trans rfl))
  rw [evaluate_dict]
  have hentries : [(key, value)].mapM (evaluateEntry features depth scope) s = .ok [(name, v)] s₂ := by
    rw [List.mapM_cons, List.mapM_nil, bind_ok hentry]
    rfl
  refine (bind_ok hentries).trans ?_
  change newMapping (Properties.ofList [(name, .data v)]) s₂ = _
  rw [ofList_singleton]
  rfl

theorem mapping_newMapping (s : Store) (ps : Properties) : (s.newMapping ps).2.mapping s.mappings.size = ps := by
  simp [Store.newMapping, Store.mapping]

/-- The ways of reading agree on which entry a value stands for, if it has a text that is not hidden: they all find the
entry under that text, or there is none and they all miss it. So the one entry of a mapping that is written out is found
by its key. -/
theorem lookups_agree (features : Features) (depth : Nat) (k : Value) (hhidden : isHidden name = false) :
    (∀ s id, s.display? k = some name → (∀ p ∈ s.mapping id, ∃ v, p.2 = .data v) →
      (∃ v, (s.mapping id).get? name = some (.data v) ∧ Finds features depth id k v s) ∨
        (s.mapping id).get? name = none ∧ Misses features depth id k s) ∧
    (∀ scope line key value s s₁ s₂ v, evaluate features depth scope key s = .ok k s₁ → s₁.display? k = some name →
      evaluate features depth scope value s₁ = .ok v s₂ →
      ∃ id t, evaluate features (depth + 1) scope (.dict line [(key, value)]) s = .ok (.mapping id) t ∧
        t.mapping id = [(name, .data v)] ∧ (t.display? k = some name → Finds features depth id k v t)) := by
  refine ⟨fun s id h hdata => ?_, fun scope line key value s s₁ s₂ v hkey h hvalue => ?_⟩
  · cases hslot : (s.mapping id).get? name with
    | none => exact .inr ⟨rfl, misses_of_get? h hhidden hslot⟩
    | some slot =>
      obtain ⟨front, back, hentries, -⟩ := List.lookup_eq_some_iff.mp hslot
      obtain ⟨v, rfl⟩ := hdata (name, slot) (hentries ▸ List.mem_append_right front List.mem_cons_self)
      exact .inl ⟨v, rfl, finds_of_get? h hhidden hslot⟩
  · have hmapping := mapping_newMapping s₂ [(name, .data v)]
    refine ⟨_, _, evaluate_entry hkey h hvalue, hmapping, fun ht => finds_of_get? ht hhidden ?_⟩
    rw [hmapping]
    exact List.lookup_cons_self

/-- A store with a mapping of one entry. -/
def oneEntry : Store := { Store.empty with mappings := #[[("1", .data (.text "a"))]] }

/-- A number finds the entry under its text, also in a mapping that is written with it. -/
theorem lookups_agree_of_number :
    isHidden "1" = false ∧
      compare .isIn (.number 1) (.mapping 0) oneEntry = .ok true oneEntry ∧
      item (.mapping 0) (.number 1) oneEntry = .ok (.text "a") oneEntry ∧
      callMember ⟨false, [], []⟩ 2 (.mapping 0) "get" ⟨[.number 1, .none], []⟩ oneEntry =
        .ok (.text "a") { oneEntry with serial := 1 } ∧
      ∃ id t, evaluate ⟨false, [], []⟩ 2 0 (.dict 1 [(.const 1 (.number 1), .const 1 (.text "a"))]) .empty =
          .ok (.mapping id) t ∧
        item (.mapping id) (.number 1) t = .ok (.text "a") t := by
  have hhidden : isHidden "1" = false := by decide
  have htext : ∀ s : Store, s.display? (.number 1) = some "1" := fun s => by
    change some (Number.toText 1) = _
    decide +kernel
  have hdata : ∀ p ∈ oneEntry.mapping 0, ∃ v, p.2 = .data v := by
    intro p hp
    obtain rfl := List.mem_singleton.mp hp
    exact ⟨_, rfl⟩
  obtain ⟨hread, hwritten⟩ := lookups_agree ⟨false, [], []⟩ 1 (.number 1) hhidden
  have hkey : evaluate ⟨false, [], []⟩ 1 0 (.const 1 (.number 1)) .empty = .ok (.number 1) .empty := by
    rw [evaluate_const]
    rfl
  have hvalue : evaluate ⟨false, [], []⟩ 1 0 (.const 1 (.text "a")) .empty = .ok (.text "a") .empty := by
    rw [evaluate_const]
    rfl
  obtain ⟨id, t, hdict, -, hfinds⟩ := hwritten 0 1 (.const 1 (.number 1)) (.const 1 (.text "a")) .empty .empty .empty
    (.text "a") hkey (htext _) hvalue
  rcases hread oneEntry 0 (htext _) hdata with ⟨v, hv, hfound⟩ | ⟨hnone, -⟩
  · obtain rfl : v = .text "a" := (Slot.data.inj (Option.some.inj hv)).symm
    exact ⟨hhidden, hfound.isIn, hfound.item, hfound.get trivial [.none], id, t, hdict, (hfinds (htext t)).item⟩
  · cases hnone

/-- The text of an expression in a template, where the variable `m` is a mapping. -/
def textOf (ps : Properties) (e : Expr) : Except Fault Text :=
  let (env, s) := Environment.create false false false .empty
  outcome (renderTemplate env [.output 1 e] (.mapping 1)) { s with mappings := #[ps, [("m", .data (.mapping 0))]] }

/-- No value as a key has the empty text where a mapping is written, for `in` and for an index, but another one for
`get`. -/
theorem get_of_none :
    let m := Expr.dict 1 [(.const 1 .none, .const 1 (.text "a"))]
    textOf [] (.compare 1 (.const 1 .none) [(.isIn, m)]) = .ok "true" ∧
      textOf [] (.item 1 m (.const 1 .none)) = .ok "a" ∧
      textOf [] (.call 1 (.member 1 m "get") [.const 1 .none] []) = .ok [] := by
  decide +kernel

/-! ## Hidden names -/

theorem member_hidden (hkeyed : v.keyed? = some target) (hhidden : isHidden name = true) :
    member v name s = .error (.unsafeMember .dict name) s := by
  cases v with
  | mapping id | table id =>
    unfold member
    dsimp only
    rw [hhidden]
    rfl
  | _ => cases hkeyed

/-- A hidden name is refused as a member of a keyed container, and a value whose text is one as a key. -/
theorem hidden_refused (features : Features) (depth : Nat) (scope : ScopeId) (line : Nat)
    (hhidden : isHidden name = true) (hkeyed : v.keyed? = some target)
    (he : evaluate features depth scope e s = .ok v s₁) :
    evaluate features (depth + 1) scope (.member line e name) s = .error (.unsafeMember .dict name) s₁ ∧
      (Fault.unsafeMember .dict name).faultClass = .security ∧
      ∀ key k s₂, evaluate features depth scope key s₁ = .ok k s₂ → s₂.display? k = some name →
        evaluate features (depth + 1) scope (.item line e key) s = .error (.unsafeKey .dict name) s₂ ∧
          (Fault.unsafeKey .dict name).faultClass = .security := by
  refine ⟨?_, rfl, fun key k s₂ hkey h => ⟨?_, rfl⟩⟩
  · rw [evaluate]
    exact (bind_ok he).trans (member_hidden hkeyed hhidden)
  · have hdata : dataAt v k s₂ = .error (.unsafeKey .dict name) s₂ := by
      rw [dataAt_keyed hkeyed h, hhidden]
      rfl
    rw [evaluate]
    exact (bind_ok he).trans ((bind_ok hkey).trans (item_of_error hkeyed hdata))


/-- An entry of a hidden name is refused by its name, and by the text of a computed key. -/
theorem hidden_refused_of_entry :
    let written := Expr.dict 1 [(.const 1 (.text "_x"), .const 1 (.number 1))]
    let s := { Store.empty with mappings := #[[("_x", .data (.number 1))]] }
    isHidden "_x" = true ∧ (Value.mapping 0).keyed? = some (.mapping 0) ∧
      evaluate ⟨false, [], []⟩ 2 0 written .empty = .ok (.mapping 0) s ∧
      evaluate ⟨false, [], []⟩ 3 0 (.member 1 written "_x") .empty = .error (.unsafeMember .dict "_x") s ∧
      evaluate ⟨false, [], []⟩ 3 0 (.item 1 written (.const 1 (.text "_x"))) .empty =
        .error (.unsafeKey .dict "_x") s := by
  intro written s
  have hhidden : isHidden "_x" = true := by decide
  have hconst : ∀ depth c s, evaluate ⟨false, [], []⟩ (depth + 1) 0 (.const 1 c) s = .ok c.value s :=
    fun _ _ _ => by
      rw [evaluate_const]
      rfl
  have hwritten : evaluate ⟨false, [], []⟩ 2 0 written .empty = .ok (.mapping 0) s :=
    evaluate_entry (hconst 0 (.text "_x") .empty) rfl (hconst 0 (.number 1) .empty)
  obtain ⟨hmember, -, hitem⟩ := hidden_refused ⟨false, [], []⟩ 2 0 1 hhidden rfl hwritten
  obtain ⟨hkey, -⟩ := hitem (.const 1 (.text "_x")) (.text "_x") s (hconst 1 (.text "_x") s) rfl
  exact ⟨hhidden, rfl, hwritten, hmember, hkey⟩

/-- Neither `get` nor a format refuses a hidden name: both give its entry. -/
theorem hidden_read :
    let m := Expr.name ⟨"m", 1, 1⟩
    let entry : Properties := [("_x", .data (.number 1))]
    textOf entry (.call 1 (.member 1 m "get") [.const 1 (.text "_x")] []) = .ok "1" ∧
      textOf entry (.binary 1 .mod (.const 1 (.text "%(_x)s")) m) = .ok "1" := by
  decide +kernel

end Stencil.Eval
