import Stencil.Proofs.Realm.Computing

/-! Members, operators, functions and filters inside of a realm. -/
namespace Stencil

theorem mem_of_lookup {α β : Type} [BEq α] [LawfulBEq α] {k : α} {b : β} {xs : List (α × β)}
    (h : xs.lookup k = some b) : (k, b) ∈ xs := by
  obtain ⟨l, l', rfl, _⟩ := List.lookup_eq_some_iff.mp h
  exact List.mem_append_right _ List.mem_cons_self

namespace Realm

variable {ρ : Realm} {s : Store} {v w : Value}

/-! ## What is read -/

namespace Rules

variable (h : ρ.Rules s)
include h

theorem entriesOf {c : Keyed} (hc : ρ.Owns s (.ofKeyed c)) : ∀ p ∈ s.entriesOf c, ρ.Owns s p.2 := by
  intro p hp
  cases c with
  | mapping id =>
    obtain ⟨q, hq, rfl⟩ := List.mem_map.mp hp
    exact h.mapping hc q hq
  | table id =>
    obtain ⟨e, he, rfl⟩ := List.mem_map.mp hp
    exact (h.table hc e he).2

theorem ownValue? {c : Keyed} (hc : ρ.Owns s (.ofKeyed c)) {key : Text} : ∀ w ∈ s.ownValue? c key, ρ.Owns s w := by
  intro w hw
  cases c with
  | mapping id =>
    unfold Store.ownValue? at hw
    dsimp only at hw
    split at hw
    · rename_i x hx
      cases hw
      exact h.mapping hc _ (mem_of_lookup hx)
    · cases hw
  | table id => exact (h.table hc _ (mem_of_lookup hw)).2

theorem sequence? (hv : ρ.Owns s v) : ∀ vs ∈ Eval.sequence? s v, ∀ w ∈ vs, ρ.Owns s w := by
  intro vs hvs
  cases v with
  | list id =>
    cases hvs
    exact h.list hv
  | text t =>
    cases hvs
    intro w hw
    obtain ⟨u, _, rfl⟩ := List.mem_map.mp hw
    exact owns_text u
  | _ => cases hvs

/-- A name has a value of the realm in every scope of it. -/
theorem resolveWithin {name : Text} : ∀ {m : Nat} {i : ScopeId}, ρ.Has s (.scope, i) →
    ∀ w ∈ s.resolveWithin name m i, ρ.Owns s w
  | 0, _, _, _, hw => nomatch hw
  | m + 1, i, hi, w, hw => by
    have hscope := h.scope hi
    unfold Store.resolveWithin at hw
    dsimp only at hw
    split at hw
    · rename_i x hx
      cases hw
      exact hscope.vars _ (mem_of_lookup hx)
    · obtain ⟨k, hk, hw⟩ := Option.bind_eq_some_iff.mp hw
      exact resolveWithin (hscope.parent k hk).2 w hw

theorem resolve {i : ScopeId} (hi : ρ.Has s (.scope, i)) (name : Text) : ρ.Owns s (s.resolve i name) := by
  unfold Store.resolve
  cases hw : s.resolveWithin name (i + 1) i with
  | none => exact owns_undefined _
  | some w => exact h.resolveWithin hi w hw

end Rules

theorem owns_of_keyed? {c : Keyed} (hv : ρ.Owns s v) (hc : v.keyed? = some c) : ρ.Owns s (.ofKeyed c) := by
  cases v with
  | mapping id | table id =>
    cases hc
    exact hv
  | _ => cases hc

theorem owns_getElem?_getD {vs : List Value} (h : ∀ v ∈ vs, ρ.Owns s v) (i : Nat) (hw : ρ.Owns s w) :
    ρ.Owns s (vs[i]?.getD w) := by
  cases hi : vs[i]? with
  | none => exact hw
  | some v => exact h v (List.mem_of_getElem? hi)

/-! ## Members and items -/

theorem yields_bound (kind : Kind) (name : Text) {f? : Option Native} (h : ∀ f ∈ f?, ∀ p ∈ f.places, ρ.Has s p) :
    ρ.Yields s (Eval.bound kind name f?) ρ.Owns := by
  cases f? with
  | some f => exact yields_newNative (h f rfl)
  | none => exact .pure (owns_undefined _)

theorem yields_memberOfKeyed {c : Keyed} (hc : ρ.Owns s (.ofKeyed c)) (name : Text) :
    ρ.Yields s
      (match KeyedMethod.ofName? name with
        | some m => Eval.newNative (.keyed m c)
        | none => do match (← get).ownValue? c name with
          | some v => return v
          | none => return .undefined (.member .dict name)) ρ.Owns := by
  split
  · refine yields_newNative fun p hp => hc p ?_
    cases c <;> exact hp
  · refine .get_bind fun hs => ?_
    cases hw : s.ownValue? c name with
    | none => exact .pure (owns_undefined _)
    | some w => exact .pure (hs.ownValue? hc w hw)

theorem yields_member (hv : ρ.Owns s v) (name : Text) : ρ.Yields s (Eval.member v name) ρ.Owns := by
  unfold Eval.member
  cases Eval.isHidden name with
  | true => cases v <;> exact .throw
  | false =>
    cases v with
    | undefined reason => exact .throw
    | text t | safe t =>
      refine yields_bound _ _ fun f hf p hp => ?_
      obtain ⟨m, _, rfl⟩ := Option.map_eq_some_iff.mp hf
      cases hp
    | list id =>
      refine yields_bound _ _ fun f hf p hp => hv p ?_
      obtain ⟨m, _, rfl⟩ := Option.map_eq_some_iff.mp hf
      exact hp
    | mapping id => exact yields_memberOfKeyed (c := .mapping id) hv name
    | table id => exact yields_memberOfKeyed (c := .table id) hv name
    | _ => exact .pure (owns_undefined _)

theorem yields_picked? (hv : ρ.Owns s v) (key : Value) :
    ρ.Yields s (Eval.picked? v key) fun t r => ∀ x ∈ r, ∀ w ∈ x.2.2, ρ.Owns t w := by
  cases key with
  | number x =>
    refine .get_bind fun hs => .pure fun y hy => ?_
    obtain ⟨i, _, hy⟩ := Option.bind_eq_some_iff.mp hy
    obtain ⟨vs, hvs, rfl⟩ := Option.map_eq_some_iff.mp hy
    exact hs.sequence? hv vs hvs
  | _ => exact .pure fun _ hy => nomatch hy

theorem yields_dataAt (hv : ρ.Owns s v) (key : Value) :
    ρ.Yields s (Eval.dataAt v key) fun t r => ∀ w ∈ r, ρ.Owns t w := by
  unfold Eval.dataAt
  cases hc : v.keyed? with
  | none => exact .pure fun _ hw => nomatch hw
  | some c =>
    refine .after_quiet (quiet_keyOf key) fun name => ?_
    cases Eval.isHidden name with
    | true => exact .throw
    | false => exact .get_bind fun hs => .pure (hs.ownValue? (owns_of_keyed? hv hc))

theorem owns_at? {vs : List Value} (h : ∀ v ∈ vs, ρ.Owns s v) (i : Int) : ∀ v ∈ Eval.at? vs i, ρ.Owns s v := by
  intro v hv
  unfold Eval.at? at hv
  dsimp only at hv
  generalize (if i < 0 then (vs.length : Int) + i else i) = k at hv
  by_cases hk : 0 ≤ k
  · rw [if_pos hk] at hv
    exact h v (List.mem_of_getElem? hv)
  · rw [if_neg hk] at hv
    cases hv

theorem yields_item (hv : ρ.Owns s v) (key : Value) : ρ.Yields s (Eval.item v key) ρ.Owns := by
  unfold Eval.item
  split
  · exact .throw
  · refine (yields_picked? hv key).bind fun t r hst hr => ?_
    rcases r with _ | ⟨x, i, vs⟩
    · refine (yields_dataAt (hv.mono hst) key).bind fun u r htu hr => ?_
      cases r with
      | some found => exact .pure (hr found rfl)
      | none =>
        dsimp only
        split
        · exact yields_member (hv.mono (hst.trans htu)) _
        · exact .after_quiet (quiet_repr key) fun _ => .pure (owns_undefined _)
    · refine .pure ?_
      cases hw : Eval.at? vs i with
      | none => exact owns_undefined _
      | some w => exact owns_at? (hr _ rfl) i w hw

theorem yields_slice (hv : ρ.Owns s v) (start stop step : Value) :
    ρ.Yields s (Eval.slice v start stop step) ρ.Owns := by
  unfold Eval.slice
  split
  · exact .throw
  · refine .get_bind fun hs => ?_
    cases hvs : Eval.sequence? s v with
    | none => exact .throw
    | some vs =>
      refine .after_quiet (quiet_sliceBound step) fun step => ?_
      dsimp only
      split
      · exact .throw
      · refine .after_quiet (quiet_sliceBound start) fun start => .after_quiet (quiet_sliceBound stop) fun stop => ?_
        have hpicked : ∀ w ∈ (slicePositions vs.length start stop (step.getD 1)).filterMap (vs.toArray[·]?),
            ρ.Owns s w := by
          intro w hw
          obtain ⟨i, _, hi⟩ := List.mem_filterMap.mp hw
          rw [List.getElem?_toArray] at hi
          exact hs.sequence? hv vs hvs w (List.mem_of_getElem? hi)
        split
        · exact .pure (owns_text _)
        · exact yields_newList hpicked

/-! ## Operators -/

theorem yields_list {id : ListId} (hid : ρ.Owns s (.list id)) :
    ρ.Yields s (Eval.read (·.list id)) fun t vs => ∀ v ∈ vs, ρ.Owns t v :=
  .read fun hs => hs.list hid

theorem owns_repeat {vs : List Value} (h : ∀ v ∈ vs, ρ.Owns s v) (n : Nat) :
    ∀ v ∈ (if vs.isEmpty then [] else (List.replicate n vs).flatten), ρ.Owns s v := by
  intro v hv
  split at hv
  · cases hv
  · obtain ⟨ws, hws, hv⟩ := List.mem_flatten.mp hv
    exact h v (List.eq_of_mem_replicate hws ▸ hv)

theorem owns_some (hv : ρ.Owns s v) : ∀ w ∈ some v, ρ.Owns s w := by
  rintro _ ⟨⟩
  exact hv

theorem yields_repeated? (hv : ρ.Owns s v) (times : Number) :
    ρ.Yields s (Eval.repeated? v times) fun t r => ∀ w ∈ r, ρ.Owns t w := by
  unfold Eval.repeated?
  cases times.toInt? with
  | none => exact .pure fun _ hw => nomatch hw
  | some n =>
    cases v with
    | text t =>
      dsimp only
      split
      · exact .throw
      · exact .pure (owns_some (owns_text _))
    | list id =>
      refine (yields_list hv).bind fun t vs _ hvs => ?_
      exact (yields_newList (owns_repeat hvs _)).bind fun _ _ _ hw => .pure (owns_some hw)
    | _ => exact .pure fun _ hw => nomatch hw

theorem yields_combined? (op : BinaryOp) (hv : ρ.Owns s v) (hw : ρ.Owns s w) :
    ρ.Yields s (Eval.combined? op v w) fun t r => ∀ x ∈ r, ρ.Owns t x := by
  have hnone : ρ.Yields s (pure none) fun t r => ∀ x ∈ r, ρ.Owns t x := .pure fun _ hx => nomatch hx
  have hjoined : ρ.Yields s (Eval.joined? v w) fun t r => ∀ x ∈ r, ρ.Owns t x := by
    unfold Eval.joined?
    split
    · exact .pure (owns_some (owns_text _))
    · rename_i i j
      refine (yields_list hv).bind fun t vs hst hvs => ?_
      refine (yields_list (hw.mono hst)).bind fun u ws htu hws => ?_
      refine (yields_newList fun x hx => ?_).bind fun _ _ _ hx => .pure (owns_some hx)
      rcases List.mem_append.mp hx with hx | hx
      · exact (hvs x hx).mono htu
      · exact hws x hx
    · exact hnone
  have hmultiplied : ρ.Yields s (Eval.multiplied? v w) fun t r => ∀ x ∈ r, ρ.Owns t x := by
    unfold Eval.multiplied?
    split
    · exact yields_repeated? hv _
    · exact yields_repeated? hw _
    · exact hnone
  cases op with
  | add => exact hjoined
  | mul => exact hmultiplied
  | _ => exact hnone

theorem yields_plainBinary (op : BinaryOp) (hv : ρ.Owns s v) (hw : ρ.Owns s w) :
    ρ.Yields s (Eval.plainBinary op v w) ρ.Owns := by
  unfold Eval.plainBinary
  split
  · exact .after_quiet (quiet_arithmetic op _ _) fun _ => .pure (owns_of_places rfl)
  · refine (yields_combined? op hv hw).bind fun t r _ hr => ?_
    cases r with
    | none => exact .throw
    | some x => exact .pure (hr x rfl)

theorem yields_binary (op : BinaryOp) (hv : ρ.Owns s v) (hw : ρ.Owns s w) :
    ρ.Yields s (Eval.binary op v w) ρ.Owns := by
  unfold Eval.binary
  split
  · exact .after_quiet (quiet_display v) fun _ => .after_quiet (quiet_display w) fun _ => .pure (owns_text _)
  · refine (yields_plain hv).bind fun t x hst hx => ?_
    split
    · exact .after_quiet (quiet_percentFormat w _) fun _ => .pure (owns_text _)
    · exact (yields_plain (hw.mono hst)).bind fun u y htu hy => yields_plainBinary _ (hx.mono htu) hy

theorem yields_signed (sign : Sign) (hv : ρ.Owns s v) : ρ.Yields s (Eval.signed sign v) ρ.Owns := by
  refine (yields_plain hv).bind fun t x _ _ => ?_
  cases x with
  | number x => exact .pure (owns_of_places rfl)
  | _ => exact .throw

/-! ## Functions -/

/-- Arguments of the realm. -/
structure OwnsArguments (ρ : Realm) (s : Store) (a : Arguments) : Prop where
  args : ∀ v ∈ a.args, ρ.Owns s v
  named : ∀ p ∈ a.named, ρ.Owns s p.2

namespace OwnsArguments

variable {a : Arguments} {t : Store}

theorem mono (h : ρ.OwnsArguments s a) (hst : s.Grows t) : ρ.OwnsArguments t a :=
  ⟨fun v hv => (h.args v hv).mono hst, fun p hp => (h.named p hp).mono hst⟩

theorem nth (h : ρ.OwnsArguments s a) (i : Nat) : ρ.Owns s (a.nth i) := owns_getElem?_getD h.args i owns_absent

theorem get (h : ρ.OwnsArguments s a) (i : Nat) (name : String) : ρ.Owns s (a.get i name) := by
  unfold Arguments.get
  split
  · rename_i v hv
    exact h.args v (List.mem_of_getElem? hv)
  · cases hv : a.named.lookup (Text.ofString name) with
    | none => exact owns_absent
    | some v => exact h.named _ (mem_of_lookup hv)

end OwnsArguments

section functions

variable {a : Arguments}

theorem yields_textList (ts : List Text) : ρ.Yields s (Eval.textList ts) ρ.Owns := by
  refine yields_newList fun v hv => ?_
  obtain ⟨t, _, rfl⟩ := List.mem_map.mp hv
  exact owns_text t

theorem yields_callText (m : TextMethod) (self : Text) (ha : ρ.OwnsArguments s a) :
    ρ.Yields s (Eval.callText m self a) ρ.Owns := by
  cases m with
  | startswith | endswith => exact .after_quiet (quiet_textArgument a 0) fun _ => .pure (owns_of_places rfl)
  | replace =>
    exact .after_quiet (quiet_textArgument a 0) fun _ => .after_quiet (quiet_textArgument a 1) fun _ =>
      .pure (owns_text _)
  | split =>
    unfold Eval.callText
    dsimp only
    split
    · exact yields_textList _
    · exact yields_textList _
    · exact .after_quiet (quiet_textArgument a 0) fun _ => yields_textList _
  | join =>
    refine (yields_items (ha.nth 0)).bind fun t vs _ _ => ?_
    exact .after_quiet (.mapM quiet_display) fun _ => .pure (owns_text _)
  | _ => exact .pure (owns_text _)

theorem yields_popAt {id : ListId} (hid : ρ.Owns s (.list id)) (index : Number) :
    ρ.Yields s (Eval.popAt id index) ρ.Owns := by
  refine (yields_list hid).bind fun t vs hst hvs => ?_
  refine (Yields.modify fun ht => ht.setList (hid.mono hst) fun v hv => ?_).bind fun u _ htu _ => ?_
  · exact hvs v (List.mem_of_mem_eraseIdx hv)
  · exact .pure (owns_getElem?_getD (fun v hv => (hvs v hv).mono htu) _ owns_absent)

theorem yields_callList (m : ListMethod) {id : ListId} (hid : ρ.Owns s (.list id)) (ha : ρ.OwnsArguments s a) :
    ρ.Yields s (Eval.callList m id a) ρ.Owns := by
  have happend : ∀ {vs ws : List Value} {t : Store}, (∀ v ∈ vs, ρ.Owns t v) → (∀ v ∈ ws, ρ.Owns t v) →
      ∀ v ∈ vs ++ ws, ρ.Owns t v := fun hvs hws v hv => (List.mem_append.mp hv).elim (hvs v) (hws v)
  cases m with
  | append =>
    refine (Yields.modify fun hs => hs.setList hid (happend (hs.list hid) ?_)).bind fun _ _ _ _ =>
      .pure (owns_of_places rfl)
    exact fun v hv => List.mem_singleton.mp hv ▸ ha.nth 0
  | extend =>
    refine (yields_items (ha.nth 0)).bind fun t vs hst hvs => ?_
    exact (Yields.modify fun ht => ht.setList (hid.mono hst) (happend (ht.list (hid.mono hst)) hvs)).bind
      fun _ _ _ _ => .pure (owns_of_places rfl)
  | pop =>
    refine .after_quiet (.read _) fun vs => ?_
    dsimp only
    split
    · exact .throw
    · split <;> exact yields_popAt hid _
  | index =>
    refine .after_quiet (.read _) fun vs => .after_quiet (.readDeep _) fun places => ?_
    cases places with
    | nil => exact .after_quiet (quiet_repr _) fun _ => .throw
    | cons i _ => exact .pure (owns_of_places rfl)
  | count => exact .after_quiet (.read _) fun vs => .after_quiet (.readDeep _) fun _ => .pure (owns_of_places rfl)

theorem yields_callKeyed (m : KeyedMethod) {c : Keyed} (hc : ρ.Owns s (.ofKeyed c)) (ha : ρ.OwnsArguments s a) :
    ρ.Yields s (Eval.callKeyed m c a) ρ.Owns := by
  have hread : ρ.Yields s (Eval.read (·.entriesOf c)) fun t entries => ∀ p ∈ entries, ρ.Owns t p.2 :=
    .read fun hs => hs.entriesOf hc
  cases m with
  | items =>
    refine hread.bind fun t entries _ hentries => ?_
    refine (Yields.mapM (P := ρ.Owns) (fun htu hv => hv.mono htu) fun u htu p hp => yields_newList ?_).bind
      fun _ _ _ hvs => yields_newList hvs
    intro v hv
    rcases List.mem_cons.mp hv with rfl | hv
    · exact owns_text _
    · cases List.mem_singleton.mp hv
      exact (hentries p hp).mono htu
  | keys =>
    refine hread.bind fun t entries _ _ => yields_newList fun v hv => ?_
    obtain ⟨p, _, rfl⟩ := List.mem_map.mp hv
    exact owns_text p.1
  | values =>
    refine hread.bind fun t entries _ hentries => yields_newList fun v hv => ?_
    obtain ⟨p, hp, rfl⟩ := List.mem_map.mp hv
    exact hentries p hp
  | get =>
    refine .get_bind fun hs => ?_
    cases hw : s.ownValue? c (s.keyText (a.nth 0)) with
    | some w => exact .pure (hs.ownValue? hc w hw)
    | none =>
      refine .pure ?_
      split
      · exact owns_of_places rfl
      · exact ha.nth 1
  | update =>
    refine .get_bind fun hs => ?_
    refine (Yields.modify fun hs => hs.setEntries hc fun p hp => ?_).bind fun _ _ _ _ => .pure (owns_of_places rfl)
    rcases List.mem_append.mp hp with hp | hp
    · unfold Store.entries? at hp
      cases hd : (a.nth 0).keyed? with
      | none =>
        rw [hd] at hp
        cases hp
      | some d =>
        rw [hd] at hp
        exact hs.entriesOf (owns_of_keyed? (ha.nth 0) hd) p hp
    · exact ha.named p hp

theorem yields_callRange : ρ.Yields s (Eval.callRange a) ρ.Owns := by
  have hnumbers : ∀ xs : List Number, ∀ v ∈ xs.map Value.number, ρ.Owns s v := by
    intro xs v hv
    obtain ⟨x, _, rfl⟩ := List.mem_map.mp hv
    exact owns_of_places rfl
  refine .after_quiet (.mapM fun v => ?_) fun xs => ?_
  · split
    · split
      · exact .pure _
      · exact .throw rfl
    · exact .throw rfl
  · refine .after_quiet (quiet_rangeBounds xs) fun _ => .after_quiet (quiet_rangeNumbers _ _ _) fun _ => ?_
    exact yields_newList (hnumbers _)

theorem yields_callNative {n : Nat} {f : Native} (hf : ρ.Owns s (.native n f)) (ha : ρ.OwnsArguments s a) :
    ρ.Yields s (Eval.callNative f a) ρ.Owns := by
  cases f with
  | range => exact yields_callRange
  | dict => exact yields_mappingOf ha.named
  | cycle index =>
    unfold Eval.callNative
    dsimp only
    split
    · exact .throw
    · exact .pure (ha.nth _)
  | text m self => exact yields_callText m self ha
  | list m id => exact yields_callList m hf.receiver ha
  | keyed m c =>
    refine yields_callKeyed m (fun p hp => hf.receiver p ?_) ha
    cases c <;> exact hp

/-! ## Filters -/

theorem owns_sorted? {caseSensitive : Bool} {vs : List Value} (h : ∀ v ∈ vs, ρ.Owns s v) :
    ∀ ws ∈ s.sorted? caseSensitive vs, ∀ w ∈ ws, ρ.Owns s w := by
  intro ws hws w hw
  unfold Store.sorted? at hws
  rw [List.partition_eq_filter_filter] at hws
  obtain ⟨keys, _, hws⟩ := Option.bind_eq_some_iff.mp hws
  cases hws
  rcases List.mem_append.mp hw with hw | hw
  · obtain ⟨p, _, hp⟩ := List.mem_filterMap.mp hw
    rw [List.getElem?_toArray] at hp
    exact h w (List.mem_filter.mp (List.mem_of_getElem? hp)).1
  · exact h w (List.mem_filter.mp hw).1

theorem owns_unique? {vs : List Value} (h : ∀ v ∈ vs, ρ.Owns s v) :
    ∀ ws ∈ s.unique? vs, ∀ w ∈ ws, ρ.Owns s w := by
  have hfold : ∀ seen : List Value, (∀ v ∈ seen, ρ.Owns s v) →
      ∀ ws ∈ vs.foldlM (fun (seen : List Value) v => do
        let known ← seen.anyM fun w => s.equal? w v
        return if known then seen else seen ++ [v]) seen, ∀ w ∈ ws, ρ.Owns s w := by
    induction vs with
    | nil =>
      rintro seen hseen _ ⟨⟩
      exact hseen
    | cons v vs ih =>
      obtain ⟨hv, hvs⟩ := List.forall_mem_cons.mp h
      intro seen hseen ws hws
      rw [List.foldlM_cons] at hws
      obtain ⟨next, hnext, hws⟩ := Option.bind_eq_some_iff.mp hws
      obtain ⟨known, _, hnext⟩ := Option.bind_eq_some_iff.mp hnext
      cases hnext
      refine ih hvs _ (fun w hw => ?_) ws hws
      split at hw
      · exact hseen w hw
      · rcases List.mem_append.mp hw with hw | hw
        · exact hseen w hw
        · exact List.mem_singleton.mp hw ▸ hv
  exact hfold [] fun _ hw => nomatch hw

/-- What stands for a value that is not given. -/
theorem owns_fallback (x : Value) : ρ.Owns s x → ρ.Owns s (match x with
    | .absent | .none => .text []
    | w => w) := by
  intro hx
  split
  · exact owns_text []
  · exact owns_text []
  · exact hx

theorem yields_default (hv : ρ.Owns s v) (ha : ρ.OwnsArguments s a) :
    ρ.Yields s (Eval.applyFilter .default v a) ρ.Owns := by
  refine .after_quiet (quiet_truthy _) fun useBoolean => ?_
  split
  · exact .pure (owns_fallback _ (ha.get 0 _))
  · refine .after_quiet (quiet_truthy _) fun holds => .pure ?_
    split
    · exact owns_fallback _ (ha.get 0 _)
    · exact hv

theorem yields_applyFilter (f : Filter) (hv : ρ.Owns s v) (ha : ρ.OwnsArguments s a) :
    ρ.Yields s (Eval.applyFilter f v a) ρ.Owns := by
  cases f with
  | default => exact yields_default hv ha
  | join =>
    refine (yields_items hv).bind fun t vs _ _ => .after_quiet (.mapM quiet_display) fun _ => ?_
    exact .after_quiet (quiet_display _) fun _ => .pure (owns_text _)
  | length =>
    refine .get_bind fun hs => ?_
    split
    · exact .pure (owns_of_places rfl)
    · exact .throw
  | replace =>
    exact .after_quiet (quiet_display _) fun _ => .after_quiet (quiet_display _) fun _ =>
      .after_quiet (quiet_display _) fun _ => .pure (owns_text _)
  | first =>
    refine (yields_items hv).bind fun t vs _ hvs => .pure ?_
    cases hw : vs.head? with
    | none => exact owns_undefined _
    | some w => exact hvs w (List.mem_of_head? hw)
  | last =>
    refine (yields_items hv).bind fun t vs _ hvs => .pure ?_
    cases hw : vs.getLast? with
    | none => exact owns_undefined _
    | some w => exact hvs w (List.mem_of_getLast? hw)
  | int | float =>
    refine .after_quiet (quiet_toNumber? v) fun x? => ?_
    cases x? with
    | some x => exact .pure (owns_of_places rfl)
    | none => exact .after_quiet (quiet_numberArgument a 0 _ 0) fun _ => .pure (owns_of_places rfl)
  | list => exact (yields_items hv).bind fun _ _ _ hvs => yields_newList hvs
  | sort =>
    refine .after_quiet (quiet_truthy _) fun reverse => .after_quiet (quiet_truthy _) fun caseSensitive => ?_
    refine (yields_items hv).bind fun t vs _ hvs => ?_
    refine (Yields.readDeep (Q := fun t ws => ∀ w ∈ ws, ρ.Owns t w) fun _ => owns_sorted? hvs).bind fun u ws _ hws => ?_
    refine yields_newList fun w hw => hws w ?_
    split at hw
    · exact List.mem_reverse.mp hw
    · exact hw
  | unique =>
    refine (yields_items hv).bind fun t vs _ hvs => ?_
    exact (Yields.readDeep (Q := fun t ws => ∀ w ∈ ws, ρ.Owns t w) fun _ => owns_unique? hvs).bind
      fun _ _ _ hws => yields_newList hws
  | reverse =>
    have hlist : ρ.Yields s (do Eval.newList (← Eval.items v).reverse) ρ.Owns :=
      (yields_items hv).bind fun _ _ _ hvs => yields_newList fun w hw => hvs w (List.mem_reverse.mp hw)
    cases v with
    | text t => exact .pure (owns_text _)
    | _ => exact hlist
  | round =>
    refine .after_quiet (quiet_toNumber? v) fun x? => .after_quiet (quiet_numberArgument a 0 _ 0) fun precision => ?_
    have hrest : ∀ method, ρ.Yields s
        (do return .number (← Eval.ofExcept (roundNumber (x?.getD 0) precision method))) ρ.Owns :=
      fun method => .after_quiet (quiet_roundNumber _ precision method) fun _ => .pure (owns_of_places rfl)
    dsimp only
    split
    · rw [pure_bind]
      exact hrest _
    · exact .after_quiet (quiet_display _) hrest
  | abs =>
    cases v with
    | number x => exact .pure (owns_of_places rfl)
    | _ => exact .throw
  | safe => exact .after_quiet (quiet_display v) fun _ => .pure (owns_of_places rfl)
  | _ => exact .after_quiet (quiet_display v) fun _ => .pure (owns_text _)

end functions
end Realm
end Stencil
