import Stencil.Proofs.Templater.Outcomes
import Stencil.Proofs.Value.Structure

/-!
What the variables of a context are: overrides win over the configuration, which wins over the defaults, and what is
copied keeps its structure. The reserved key is the exception: a copy has no entry under it.
-/

namespace Stencil

open Correspondence (Keeps)

variable {base s : Store} {v : Value}

/-- The keys of every mapping are in order, as they are where mappings are made by setting properties. -/
def Store.Ordered (s : Store) : Prop := ∀ i, KeysInOrder ((s.mapping i).map (·.1))

/-- No mapping that is reached from a value has the reserved key. -/
def Store.Unreserved (s : Store) (v : Value) : Prop :=
  ∀ i, s.Reaches v (.mapping i) → reservedKey ∉ (s.mapping i).map (·.1)

/-- What holds of the properties of every mapping that there is holds of every mapping. -/
theorem Store.forall_mapping {P : Properties → Prop} (hnil : P []) (h : ∀ ps ∈ s.mappings.toList, P ps)
    (i : MappingId) : P (s.mapping i) := by
  unfold Store.mapping
  cases hi : s.mappings[i]? with
  | none => exact hnil
  | some ps => exact h ps (Array.mem_toList_iff.mpr (Array.mem_of_getElem? hi))

theorem Store.Unreserved.content {w : Value} (h : s.Unreserved v) (hw : w ∈ s.contents v) : s.Unreserved w :=
  fun i hi => h i ((Reaches.refl.step hw).trans hi)

/-- Entries without the reserved key are all kept. -/
theorem withoutReserved_eq {entries : List (Text × Value)} (h : reservedKey ∉ entries.map (·.1)) :
    (entries.any fun p => p.1 = reservedKey && p.2.isCompound) = false ∧ withoutReserved entries = entries := by
  have hother : ∀ p ∈ entries, p.1 ≠ reservedKey := fun p hp heq => h (heq ▸ List.mem_map_of_mem hp)
  constructor
  · refine List.any_eq_false.mpr fun p hp => ?_
    simp [hother p hp]
  · refine List.filter_eq_self.mpr fun p hp => ?_
    simp [hother p hp]

namespace Eval

section copies

variable {n m : Nat} (hs : Keeps base s)

/-- A value is copied with its structure, in every store that keeps the data. -/
def Copies (base : Store) (n m : Nat) (v : Value) : Prop :=
  ∀ t, Keeps base t → Gives t (copyWithin m v) fun u w => base.SameWithin u n v w

/-- A copy of an entry stands under the same key. -/
theorem gives_copiedEntry {κ : Type} {p : κ × Value} (h : Copies base n m p.2) (hs : Keeps base s) :
    Gives s (do return (p.1, ← copyWithin m p.2)) fun t q => q.1 = p.1 ∧ base.SameWithin t n p.2 q.2 :=
  (h s hs).bind fun _ _ _ hw => .pure ⟨rfl, hw⟩

include hs

theorem gives_copyList {i : ListId} (hplain : base.Plain (.list i)) (hitems : ∀ x ∈ base.list i, Copies base n m x) :
    Gives s (copyWithin (m + 1) (.list i)) fun t w => base.SameWithin t (n + 1) (.list i) w := by
  refine .read_bind hs (fun _ hs => hs.list hplain) ?_
  refine Gives.bind (P := fun t copied => List.Forall₂ (fun w x => base.SameWithin t n x w) copied (base.list i)) ?_
    fun copied t _ hcopied => (gives_newList copied).mono ?_
  · refine .mapM (fun hkeeps hw => hw.mono hkeeps) (List.forall₂_same.mpr fun x hx t hst => ?_)
    exact hitems x hx t (hs.trans hst)
  · rintro u _ ⟨j, rfl, hj, rfl, hkeeps⟩
    exact ⟨hj, hcopied.flip.imp fun _ _ hw => hw.mono hkeeps⟩

theorem gives_copyMapping {i : MappingId} (hplain : base.Plain (.mapping i))
    (hkeys : KeysInOrder ((base.mapping i).map (·.1))) (hfree : reservedKey ∉ (base.mapping i).map (·.1))
    (hentries : ∀ p ∈ base.entriesOf (.mapping i), Copies base n m p.2) :
    Gives s (copyWithin (m + 1) (.mapping i)) fun t w => base.SameWithin t (n + 1) (.mapping i) w := by
  refine .read_bind hs (fun _ hs => hs.entriesOf_mapping hplain) ?_
  refine Gives.bind (P := fun t copied => List.Forall₂ (fun q p => q.1 = p.1 ∧ base.SameWithin t n p.2 q.2) copied
    (base.entriesOf (.mapping i))) ?_ fun copied t _ hcopied => ?_
  · refine .mapM (fun hkeeps hq => ⟨hq.1, hq.2.mono hkeeps⟩) (List.forall₂_same.mpr fun p hp t hst => ?_)
    exact gives_copiedEntry (hentries p hp) (hs.trans hst)
  · have hsame : copied.map (·.1) = (base.mapping i).map (·.1) := by
      rw [map_eq_of_forall₂ hcopied fun _ _ hq => hq.1]
      exact List.map_map
    obtain ⟨hany, hall⟩ := withoutReserved_eq (hsame ▸ hfree)
    change Gives t (if (copied.any fun p => p.1 = reservedKey && p.2.isCompound) then _ else _) _
    rw [hany, if_neg Bool.false_ne_true, hall]
    refine (gives_mappingOf (hsame ▸ hkeys)).mono ?_
    rintro u _ ⟨j, rfl, hj, hmapping, hkeeps⟩
    refine ⟨hj, ?_⟩
    rw [hmapping]
    refine List.forall₂_map_right_iff.mpr (List.Forall₂.flip ?_)
    refine (List.forall₂_map_right_iff.mp hcopied).imp fun q p hq => ?_
    exact ⟨hq.1.symm, q.2, rfl, hq.2.mono hkeeps⟩

theorem gives_copyTable {i : TableId} (hplain : base.Plain (.table i))
    (hentries : ∀ p ∈ base.table i, Copies base n m p.2) :
    Gives s (copyWithin (m + 1) (.table i)) fun t w => base.SameWithin t (n + 1) (.table i) w := by
  refine .read_bind hs (fun _ hs => hs.table hplain) ?_
  refine Gives.bind (P := fun t copied => List.Forall₂ (fun q p => q.1 = p.1 ∧ base.SameWithin t n p.2 q.2) copied
    (base.table i)) ?_ fun copied t _ hcopied => (gives_newTable copied).mono ?_
  · refine .mapM (fun hkeeps hq => ⟨hq.1, hq.2.mono hkeeps⟩) (List.forall₂_same.mpr fun p hp t hst => ?_)
    exact gives_copiedEntry (hentries p hp) (hs.trans hst)
  · rintro u _ ⟨j, rfl, hj, rfl, hkeeps⟩
    exact ⟨hj, hcopied.flip.imp fun _ _ hq => ⟨hq.1.symm, hq.2.mono hkeeps⟩⟩

end copies

/-- A copy has the structure of the data that was copied. -/
theorem copies_of_nests (hordered : base.Ordered) : ∀ {n m : Nat} {v : Value}, base.Nests n v → base.Holds v →
    base.Unreserved v → n ≤ m → Copies base n m v
  | 0, _, _, hn, _, _, _ => nomatch hn
  | n + 1, 0, _, _, _, _, hm => absurd hm (Nat.not_succ_le_zero n)
  | n + 1, m + 1, v, hn, hv, hfree, hm => by
    rw [Nat.add_le_add_iff_right] at hm
    intro s hs
    cases v with
    | list i =>
      refine gives_copyList hs hv.plain fun x hx => ?_
      exact copies_of_nests hordered (Store.nests_list.mp hn x hx) (hv.item hx) (hfree.content hx) hm
    | mapping i =>
      refine gives_copyMapping hs hv.plain (hordered i) (hfree i .refl) fun p hp => ?_
      have hmem : p.2 ∈ base.contents (.mapping i) := by
        obtain ⟨q, hq, rfl⟩ := List.mem_map.mp hp
        exact Store.value_mem_contents hq
      exact copies_of_nests hordered (Store.nests_mapping.mp hn p hp) (hv.entryOf hp) (hfree.content hmem) hm
    | table i =>
      refine gives_copyTable hs hv.plain fun p hp => ?_
      exact copies_of_nests hordered (Store.nests_table.mp hn p hp) (hv.entry hp)
        (hfree.content (Store.entry_mem_contents hp).2) hm
    | _ => exact .pure (Store.sameWithin_leaf trivial)

/-- Finite data without the reserved key is copied as it is. -/
theorem gives_copy (hordered : base.Ordered) (hv : base.Finite v) (hfree : base.Unreserved v) (hs : Keeps base s) :
    Gives s (copy v) fun t w => base.SameStructure t v w := by
  obtain ⟨hholds, n, hn⟩ := hv
  have hdepth := hs.depth_le
  change Gives s (copyWithin s.depth v) fun t w => base.SameStructure t v w
  rcases Nat.le_total n base.depth with hle | hle
  · exact (copies_of_nests hordered hn hholds hfree (Nat.le_trans hle hdepth) s hs).mono fun _ _ hw => ⟨n, hw⟩
  · exact (copies_of_nests hordered (Store.nests_of_depth_le hn hle) hholds hfree hdepth s hs).mono
      fun _ _ hw => ⟨base.depth, hw⟩

end Eval

/-! ## Layers -/

theorem exists_of_rel_some {α β : Type} {R : α → β → Prop} {a : α} {y : Option β} (h : Option.Rel R (some a) y) :
    ∃ b, y = some b ∧ R a b := by
  cases h with
  | some hab => exact ⟨_, rfl, hab⟩

/-- Where the value of a variable comes from. -/
inductive Origin where
  | override (v : Value)
  | configured (v : Value)
  | default (v : Value)

namespace Origin

/-- The origin of a name: the first of the layers that has it. -/
def of? (overrides configured : Context) (name : Text) : Option Origin :=
  ((overrides.lookup name).map .override).or
    (((configured.lookup name).map .configured).or ((Context.defaults.lookup name).map .default))

/-- What a value of `s` becomes as the variable of a context: an override is copied, and so is a configured value
that is no text; a configured text is read as a literal if it is one. -/
def Becomes (s t : Store) : Origin → Value → Prop
  | override v, w => s.SameStructure t v w
  | configured (.text u), w => t.Represents (Literal.infer u) w
  | configured v, w => s.SameStructure t v w
  | default v, w => w = v

/-- What a variable became it stays while the store grows. -/
theorem Becomes.mono {t u : Store} {o : Origin} {x : Value} (hkeeps : Keeps t u) (h : o.Becomes base t x) :
    o.Becomes base u x := by
  unfold Becomes at h ⊢
  split at h
  · exact h.mono hkeeps
  · exact h.mono hkeeps
  · exact h.mono hkeeps
  · exact h

end Origin

namespace Config

/-- The variables that the section of a variant has; the reserved key is none. -/
def contextEntries (s : Store) (config : Option Config) (variant : Text) : Context :=
  withoutReserved ((s.recordEntries? (sectionValue s config variant .context)).getD [])

variable {config : Option Config} {variant : Text} {w : World}

/-- A section that is not malformed is read. -/
theorem context_eq (hsection : ¬ Malformed w.store config variant .context) :
    context config variant w = .ok (contextEntries w.store config variant) w := by
  unfold context contextEntries
  rw [entries_eq]
  dsimp only
  by_cases habsent : sectionValue w.store config variant .context = .absent
  · rw [if_pos habsent, habsent]
    rfl
  · have hissues : issuesOf w.store (fun _ => none) (sectionValue w.store config variant .context) = [] := by
      unfold issuesOf
      cases hentries : w.store.recordEntries? (sectionValue w.store config variant .context) with
      | none =>
        refine absurd ⟨habsent, ?_⟩ hsection
        rw [hentries]
        trivial
      | some entries => simp
    rw [if_neg habsent, if_pos hissues]

/-- A section has each name once. -/
theorem contextEntries_nodup (hordered : w.store.Ordered) :
    ((contextEntries w.store config variant).map (·.1)).Nodup := by
  have hentries : ∀ v, (((w.store.recordEntries? v).getD []).map (·.1)).Nodup := by
    intro v
    cases v with
    | mapping i =>
      change (((w.store.mapping i).map fun p => (p.1, p.2.value)).map (·.1)).Nodup
      rw [List.map_map]
      exact (hordered i).nodup
    | _ => exact .nil
  exact (List.filter_sublist.map _).nodup (hentries _)

end Config

namespace Context

variable {config : Option Config} {variant : Text} {w : World} {overrides : Context}

/-- A configured variable is inferred or copied. -/
theorem gives_configured {u : World} (hordered : base.Ordered) (hv : base.Finite v) (hfree : base.Unreserved v)
    (hu : Keeps base u.store) : Gives u (configured v) fun t x => (Origin.configured v).Becomes base t x := by
  cases v with
  | text t =>
    obtain ⟨hkeeps, hdatum⟩ := Store.represents_build u.store (Literal.infer t)
    exact ⟨_, _, rfl, hkeeps, hdatum⟩
  | _ => exact Gives.evaluate (Eval.gives_copy hordered hv hfree hu)

/-- An entry of a context stands for an entry of a layer. -/
def Entered (layer : Value → Origin) (s t : Store) (q p : Text × Value) : Prop :=
  q.1 = p.1 ∧ (layer p.2).Becomes s t q.2

theorem lookup_entered {layer : Value → Origin} {t : Store} {context entries : Context}
    (h : List.Forall₂ (Entered layer s t) context entries) (name : Text) :
    Option.Rel (fun x v => (layer v).Becomes s t x) (context.lookup name) (entries.lookup name) :=
  forall₂_lookup h name

/-- Entries that are made one by one stand for the entries of their layer. -/
theorem gives_layer (layer : Value → Origin) (f : Value → Action Value) {u : World} {entries : Context}
    (h : ∀ p ∈ entries, ∀ u' : World, Keeps u.store u'.store →
      Gives u' (f p.2) fun t x => (layer p.2).Becomes base t x) :
    Gives u (entries.mapM fun p => return (p.1, ← f p.2)) fun t context =>
      List.Forall₂ (Entered layer base t) context entries := by
  refine Gives.mapM (R := fun t => Entered layer base t) (fun hkeeps hq => ⟨hq.1, hq.2.mono hkeeps⟩) ?_
  refine List.forall₂_same.mpr fun p hp u' hu' => ?_
  exact (h p hp u' hu').bind fun _ _ _ hx => .pure ⟨rfl, hx⟩

/-- Every name of a context is an override, a configured variable or a default, in this order of precedence; its value is
the copy or the literal that the layer asks for. -/
theorem build_layered (filename : Option Text) (hordered : w.store.Ordered)
    (hoverrides : ∀ p ∈ overrides, w.store.Finite p.2 ∧ w.store.Unreserved p.2)
    (hnames : (overrides.map (·.1)).Nodup) (hconfig : ∀ c ∈ config, w.store.Finite c.root)
    (hsection : ¬ Config.Malformed w.store config variant .context)
    (hentries : ∀ p ∈ Config.contextEntries w.store config variant, w.store.Unreserved p.2) :
    ∃ context v, build variant overrides filename config w = .ok context v ∧ ∀ name,
      Option.Rel (fun o x => o.Becomes w.store v.store x)
        (Origin.of? overrides (Config.contextEntries w.store config variant) name) (context.lookup name) := by
  have hread := Config.context_eq hsection
  have hfinite : ∀ p ∈ Config.contextEntries w.store config variant, w.store.Finite p.2 :=
    ((Config.context_ends hconfig (.refl w.store)).ok hread).2
  have hbuild : Gives w (build variant overrides filename config) fun t context => ∀ name,
      Option.Rel (fun o x => o.Becomes w.store t x)
        (Origin.of? overrides (Config.contextEntries w.store config variant) name) (context.lookup name) := by
    unfold build
    refine Gives.bind (P := fun _ entries => entries = Config.contextEntries w.store config variant)
      ⟨_, w, hread, .refl _, rfl⟩ ?_
    rintro _ v hv rfl
    refine Gives.bind (gives_layer .configured configured fun p hp u hu =>
      gives_configured hordered (hfinite p hp) (hentries p hp) (hv.trans hu)) fun loaded v' hv' hloaded => ?_
    refine Gives.bind (gives_layer .override (fun v => Action.evaluate (Eval.copy v)) fun p hp u hu => Gives.evaluate <|
      Eval.gives_copy hordered (hoverrides p hp).1 (hoverrides p hp).2 ((hv.trans hv').trans hu))
      fun copied u hu hcopied => ?_
    refine Gives.bind (P := fun t _ => Keeps u.store t) ⟨_, _, rfl, .refl _, .refl _⟩ fun _ u' hu' _ => .pure fun name => ?_
    have hloadedNames : (loaded.map (·.1)).Nodup := by
      rw [map_eq_of_forall₂ hloaded fun _ _ hq => hq.1]
      exact Config.contextEntries_nodup hordered
    have hcopiedNames : (copied.map (·.1)).Nodup := by
      rwa [map_eq_of_forall₂ hcopied fun _ _ hq => hq.1]
    rw [List.foldl_append, Correspondence.lookup_assocSets hcopiedNames,
      Correspondence.lookup_assocSets hloadedNames]
    unfold Origin.of?
    rcases rel_cases (lookup_entered hcopied name) with ⟨hx, hy⟩ | ⟨x, v, hx, hy, hxv⟩ <;> rw [hx, hy]
    · rcases rel_cases (lookup_entered hloaded name) with ⟨hx, hy⟩ | ⟨x, v, hx, hy, hxv⟩ <;> rw [hx, hy]
      · cases defaults.lookup name with
        | none => exact .none
        | some v => exact .some rfl
      · exact .some (hxv.mono (hu.trans hu'))
    · exact .some (hxv.mono hu')
  obtain ⟨context, v, hrun, -, h⟩ := hbuild
  exact ⟨context, v, hrun, h⟩

/-- An override that hides a configured text, with a table in a mapping in a list. -/
def nested : World :=
  ⟨{ Store.empty with
      lists := #[[.text "x", .mapping 4]]
      mappings := #[[("templater", .data (.mapping 1))], [("jinja", .data (.mapping 2))],
        [("context", .data (.mapping 3))], [("flag", .data (.text "True")), ("xs", .data (.text "hidden"))],
        [("1", .data .none), ("k", .data (.table 0))]]
      tables := #[[(.bool true, .text "y")]] }, []⟩

theorem nested_holds : ∀ v ∈ [Value.list 0, .mapping 0, .mapping 1, .mapping 2, .mapping 3, .mapping 4, .table 0, .text "x",
    .text "y", .text "True", .text "hidden", .none, .bool true], nested.store.Holds v := by
  intro v hv
  refine Store.holds_of_closed ?_ hv
  simp [nested, Store.Plain, Store.contents, Store.list, Store.mapping, Store.table, Slot.value]

theorem build_layered_of_nested : ∃ context v,
    build "jinja" [("xs", .list 0)] none (some ⟨.mapping 0⟩) nested = .ok context v ∧
      context.lookup (Text.ofString "flag") = some (.bool true) ∧
      context.lookup (Text.ofString "test_value") = some (.text "__test__") ∧
      ∃ x, context.lookup (Text.ofString "xs") = some x ∧ nested.store.SameStructure v.store (.list 0) x := by
  have hordered : nested.store.Ordered := by
    refine Store.forall_mapping (P := fun ps => KeysInOrder (ps.map (·.1))) (Properties.keysInOrder_ofList []) ?_
    intro ps hps
    have hset : Properties.ofList ps = ps := by
      revert ps
      decide
    rw [← hset]
    exact Properties.keysInOrder_ofList ps
  have hfree : ∀ v, nested.store.Unreserved v := by
    refine fun v i _ => Store.forall_mapping (P := fun ps => reservedKey ∉ ps.map (·.1)) List.not_mem_nil ?_ i
    decide
  have hoverrides : ∀ p ∈ [(Text.ofString "xs", Value.list 0)],
      nested.store.Finite p.2 ∧ nested.store.Unreserved p.2 := by
    rintro p (_ | ⟨_, ⟨⟩⟩)
    exact ⟨⟨nested_holds _ (by simp), 4, rfl⟩, hfree _⟩
  have hconfig : ∀ c ∈ some (⟨.mapping 0⟩ : Config), nested.store.Finite c.root := by
    rintro c ⟨⟩
    exact ⟨nested_holds _ (by simp), 5, rfl⟩
  have hsection : ¬ Config.Malformed nested.store (some ⟨.mapping 0⟩) "jinja" .context := by
    rintro ⟨-, hbad⟩
    exact nomatch hbad.1
  obtain ⟨context, v, hbuild, h⟩ := build_layered none hordered hoverrides (by decide) hconfig hsection fun _ _ => hfree _
  have hflag : Option.Rel _ (some (Origin.configured (.text "True"))) _ := h (Text.ofString "flag")
  have hvalue : Option.Rel _ (some (Origin.default (.text "__test__"))) _ := h (Text.ofString "test_value")
  have hxs : Option.Rel _ (some (Origin.override (.list 0))) _ := h (Text.ofString "xs")
  obtain ⟨flag, hflag, hread⟩ := exists_of_rel_some hflag
  obtain ⟨value, hvalue, rfl⟩ := exists_of_rel_some hvalue
  obtain ⟨xs, hxs, hcopy⟩ := exists_of_rel_some hxs
  have hinfer : Literal.infer "True" = .bool true := by rfl
  replace hread : v.store.Represents (Literal.infer "True") flag := hread
  rw [hinfer] at hread
  cases hread
  exact ⟨context, v, hbuild, hflag, hvalue, xs, hxs, hcopy⟩

/-- A mapping whose only key is the reserved one. -/
def reserved : World :=
  ⟨{ Store.empty with mappings := #[[("__proto__", .data (.text "x"))]] }, []⟩

/-- The copy of a mapping lacks the entry under the reserved key. -/
theorem build_loses_reserved : ∃ context v x,
    build "jinja" [("m", .mapping 0)] none none reserved = .ok context v ∧
      context.lookup (Text.ofString "m") = some x ∧ v.store.entriesOf (.mapping 1) = [] ∧ x = .mapping 1 ∧
      ¬ reserved.store.SameStructure v.store (.mapping 0) x := by
  have hcopy : ∀ t : Store, t.mapping 1 = [] → ¬ reserved.store.SameStructure t (.mapping 0) (.mapping 1) := by
    rintro t ht ⟨n, h⟩
    cases n with
    | zero => exact h
    | succ n =>
      obtain ⟨-, hentries⟩ := h
      rw [ht] at hentries
      cases hentries
  exact ⟨_, _, .mapping 1, rfl, rfl, rfl, rfl, hcopy _ rfl⟩

end Context

end Stencil
