import Stencil.Proofs.Correspondence.Basic
import Stencil.Proofs.Number.Integers
import Stencil.Proofs.Pointwise
import Stencil.Proofs.Value.Fuel
import Stencil.Proofs.Value.PropertyOrder

/-!
Trees of texts, truth values, integers, lists and mappings, and the values that are such a tree in a store. The quoted
form of such a value is the one of its tree, and two values that are one tree are equal.
-/

namespace Stencil

/-- A tree that can be written in quoted form. Its integers are those that are numbers exactly. -/
inductive Quotable where
  | text (t : Text)
  | bool (b : Bool)
  | integer (i : Int) (h : i.natAbs < 2 ^ 53)
  | list (items : List Quotable)
  | mapping (entries : List (Text × Quotable))

namespace Quotable

theorem sizeOf_lt_of_mem_entries {entries : List (Text × Quotable)} {e : Text × Quotable} (he : e ∈ entries) :
    sizeOf e.2 < sizeOf (mapping entries) := by
  have hentry := List.sizeOf_lt_of_mem he
  obtain ⟨key, q⟩ := e
  simp only [Prod.mk.sizeOf_spec, mapping.sizeOf_spec] at hentry ⊢
  omega

/-- Induction over the items of lists and the values of mappings. -/
@[elab_as_elim, induction_eliminator]
theorem induction {motive : Quotable → Prop} (text : ∀ t, motive (text t)) (bool : ∀ b, motive (bool b))
    (integer : ∀ i h, motive (integer i h)) (list : ∀ items, (∀ q ∈ items, motive q) → motive (list items))
    (mapping : ∀ entries, (∀ e ∈ entries, motive e.2) → motive (mapping entries)) (q : Quotable) : motive q :=
  match q with
  | .text t => text t
  | .bool b => bool b
  | .integer i h => integer i h
  | .list items => list items fun q _ => induction text bool integer list mapping q
  | .mapping entries => mapping entries fun e _ => induction text bool integer list mapping e.2
termination_by sizeOf q
decreasing_by
  · have := List.sizeOf_lt_of_mem ‹q ∈ items›
    simp only [Quotable.list.sizeOf_spec]
    omega
  · exact sizeOf_lt_of_mem_entries ‹e ∈ entries›

/-- How many lists and mappings stand around the innermost one. -/
def height : Quotable → Nat
  | list items => heights items + 1
  | mapping entries => entryHeights entries + 1
  | _ => 0
where
  heights : List Quotable → Nat
    | [] => 0
    | q :: rest => max q.height (heights rest)
  entryHeights : List (Text × Quotable) → Nat
    | [] => 0
    | (_, q) :: rest => max q.height (entryHeights rest)

/-- The quoted form of a tree. -/
def repr : Quotable → Text
  | text t => quoted t
  | bool b => boolText b
  | integer i _ => (if i < 0 then Text.ofString "-" else []) ++ Text.ofNat i.natAbs
  | list items => Store.bracket "[" "]" (reprs items)
  | mapping entries => Store.bracket "\x7b" "\x7d" (entryReprs entries)
where
  reprs : List Quotable → List Text
    | [] => []
    | q :: rest => q.repr :: reprs rest
  entryReprs : List (Text × Quotable) → List Text
    | [] => []
    | (key, q) :: rest => (quoted key ++ Text.ofString ": " ++ q.repr) :: entryReprs rest

variable {q : Quotable} {items : List Quotable} {entries : List (Text × Quotable)}

theorem height_lt_of_mem (h : q ∈ items) : q.height < (list items).height := by
  have hle : q.height ≤ height.heights items := by
    induction items with
    | nil => cases h
    | cons first items ih =>
      unfold height.heights
      rcases List.mem_cons.mp h with rfl | h
      · exact Nat.le_max_left _ _
      · exact Nat.le_trans (ih h) (Nat.le_max_right _ _)
  exact Nat.lt_succ_of_le hle

theorem height_lt_of_mem_entries {e : Text × Quotable} (h : e ∈ entries) : e.2.height < (mapping entries).height := by
  have hle : e.2.height ≤ height.entryHeights entries := by
    induction entries with
    | nil => cases h
    | cons first entries ih =>
      obtain ⟨key, q⟩ := first
      unfold height.entryHeights
      rcases List.mem_cons.mp h with rfl | h
      · exact Nat.le_max_left _ _
      · exact Nat.le_trans (ih h) (Nat.le_max_right _ _)
  exact Nat.lt_succ_of_le hle

theorem reprs_eq_map (items : List Quotable) : repr.reprs items = items.map repr := by
  induction items with
  | nil => rfl
  | cons q items ih => rw [repr.reprs, ih, List.map_cons]

theorem entryReprs_eq_map (entries : List (Text × Quotable)) :
    repr.entryReprs entries = entries.map fun e => quoted e.1 ++ Text.ofString ": " ++ e.2.repr := by
  induction entries with
  | nil => rfl
  | cons e entries ih => rw [repr.entryReprs, ih, List.map_cons]

end Quotable

namespace Store

mutual

/-- A value is a tree in a store. The properties of its mappings are data, under keys in order. -/
inductive Shows (s : Store) : Value → Quotable → Prop where
  | text (t : Text) : Shows s (.text t) (.text t)
  | bool (b : Bool) : Shows s (.bool b) (.bool b)
  | integer {x : Number} {i : Int} {h : i.natAbs < 2 ^ 53} (hx : x.toInt? = some i) : Shows s (.number x) (.integer i h)
  | list {id : ListId} {items : List Quotable} (hid : id < s.lists.size) (h : List.Forall₂ (Shows s) (s.list id) items) :
    Shows s (.list id) (.list items)
  | mapping {id : MappingId} {entries : List (Text × Quotable)} (hid : id < s.mappings.size)
    (hkeys : KeysInOrder ((s.mapping id).map (·.1))) (h : List.Forall₂ (ShowsEntry s) (s.mapping id) entries) :
    Shows s (.mapping id) (.mapping entries)

inductive ShowsEntry (s : Store) : Text × Slot → Text × Quotable → Prop where
  | data {key : Text} {v : Value} {q : Quotable} (h : Shows s v q) : ShowsEntry s (key, .data v) (key, q)

end

variable {s : Store} {v w : Value} {q : Quotable}

/-- A value is one tree only. -/
theorem Shows.unique (h : s.Shows v q) : ∀ {q'}, s.Shows v q' → q = q' := by
  induction q generalizing v with
  | text t =>
    intro q' h'
    cases h
    cases h'
    rfl
  | bool b =>
    intro q' h'
    cases h
    cases h'
    rfl
  | integer i hi =>
    intro q' h'
    obtain _ | _ | hx := h
    obtain _ | _ | hx' := h'
    obtain rfl := Option.some.inj (hx.symm.trans hx')
    rfl
  | list items ih =>
    intro q' h'
    cases h with
    | list _ hitems =>
      cases h' with
      | list _ hitems' =>
        have hsame : ∀ v, ∀ q ∈ items, ∀ q', s.Shows v q → s.Shows v q' → q = q' := fun v q hq q' hv hv' => ih q hq hv hv'
        rw [forall₂_unique hsame hitems hitems']
  | mapping entries ih =>
    intro q' h'
    cases h with
    | mapping _ _ hentries =>
      cases h' with
      | mapping _ _ hentries' =>
        have hsame : ∀ p, ∀ e ∈ entries, ∀ e', s.ShowsEntry p e → s.ShowsEntry p e' → e = e' := by
          intro p e he e' hp hp'
          obtain ⟨hv⟩ := hp
          obtain ⟨hv'⟩ := hp'
          exact congrArg _ (ih _ he hv hv')
        rw [forall₂_unique hsame hentries hentries']

/-- A value stays the tree that it is while the store grows. -/
theorem Shows.mono {t : Store} (hkeeps : Correspondence.Keeps s t) (h : s.Shows v q) : t.Shows v q := by
  induction q generalizing v with
  | text u =>
    cases h
    exact .text u
  | bool b =>
    cases h
    exact .bool b
  | integer i hi =>
    obtain _ | _ | hx := h
    exact .integer hx
  | list items ih =>
    cases h with
    | list hid hitems =>
      refine .list (Nat.lt_of_lt_of_le hid (Correspondence.Keeps.size_le hkeeps.lists)) ?_
      rw [hkeeps.list hid]
      exact forall₂_imp_of_mem (fun v q hq hv => ih q hq hv) hitems
  | mapping entries ih =>
    cases h with
    | mapping hid hkeys hentries =>
      have hsame := hkeeps.mapping hid
      refine .mapping (Nat.lt_of_lt_of_le hid (Correspondence.Keeps.size_le hkeeps.mappings)) ?_ ?_
      · rwa [hsame]
      · rw [hsame]
        refine forall₂_imp_of_mem (fun p e he hp => ?_) hentries
        obtain ⟨hv⟩ := hp
        exact .data (ih _ he hv)

/-- The entries of a mapping, as they are read. -/
theorem forall₂_entriesOf {id : MappingId} {entries : List (Text × Quotable)}
    (h : List.Forall₂ s.ShowsEntry (s.mapping id) entries) :
    List.Forall₂ (fun p e => p.1 = e.1 ∧ s.Shows p.2 e.2) (s.entriesOf (.mapping id)) entries := by
  refine List.forall₂_map_left_iff.mpr (h.imp fun p e hp => ?_)
  obtain ⟨hv⟩ := hp
  exact ⟨rfl, hv⟩

/-! ## Quoted forms -/

theorem displayWithin_of_shows {n : Nat} (h : s.Shows v q) (hn : q.height < n) :
    s.displayWithin n true v = some q.repr := by
  induction n generalizing v q with
  | zero => omega
  | succ n ih =>
    cases h with
    | text t => rfl
    | bool b => rfl
    | @integer x i hi hx => exact congrArg some (Number.toText_of_toInt? hx hi)
    | @list id items _ hitems =>
      have hparts : (s.list id).mapM (s.displayWithin n true) = some (items.map Quotable.repr) := by
        refine mapM_eq_some (List.forall₂_map_right_iff.mpr (forall₂_imp_of_mem (fun v q hq hv => ?_) hitems))
        have hlt := Quotable.height_lt_of_mem hq
        exact ih hv (by omega)
      rw [displayWithin_list, hparts, Quotable.repr, Quotable.reprs_eq_map]
      rfl
    | @mapping id entries _ _ hentries =>
      have hparts : (s.entriesOf (.mapping id)).mapM (s.entryWithin n) =
          some (entries.map fun e => quoted e.1 ++ Text.ofString ": " ++ e.2.repr) := by
        refine mapM_eq_some (List.forall₂_map_right_iff.mpr
          (forall₂_imp_of_mem (fun p e he hp => ?_) (forall₂_entriesOf hentries)))
        have hlt := Quotable.height_lt_of_mem_entries he
        unfold entryWithin
        dsimp only
        rw [ih hp.2 (by omega), hp.1]
        rfl
      rw [displayWithin_mapping, hparts, Quotable.repr, Quotable.entryReprs_eq_map]
      rfl

/-- A value has the quoted form of the tree that it is. -/
theorem repr?_of_shows (h : s.Shows v q) : s.repr? v = some q.repr := by
  have hstable := displayWithin_stable (s := s) (Nat.le_add_right s.depth (q.height + 1)) true v
  rw [repr?, ← hstable]
  exact displayWithin_of_shows h (by omega)

/-! ## Equality -/

/-- Two values that are one tree are equal if their parts compare as equal. -/
theorem compareParts_of_shows {inner : Value → Value → Option Bool} (hv : s.Shows v q) (hw : s.Shows w q)
    (hinner : ∀ {part x y}, part.height < q.height → s.Shows x part → s.Shows y part → inner x y = some true) :
    s.compareParts inner v w = some true := by
  cases hv with
  | text t =>
    cases hw
    exact congrArg some (decide_eq_true rfl)
  | bool b =>
    cases hw
    exact congrArg some (decide_eq_true rfl)
  | integer hx =>
    obtain _ | _ | hy := hw
    exact congrArg some ((Number.eq_of_toInt? hx hy).trans (decide_eq_true rfl))
  | @list i items _ hxs =>
    cases hw with
    | @list j _ _ hys =>
      change compareItems inner (s.list i) (s.list j) = _
      unfold compareItems
      rw [if_pos (hxs.length_eq.trans hys.length_eq.symm)]
      refine allHold_iff.mpr fun p hp => ?_
      obtain ⟨part, hpart, hx, hy⟩ := exists_of_mem_zip hxs hys hp
      exact hinner (Quotable.height_lt_of_mem hpart) hx hy
  | @mapping i entries _ _ hxs =>
    cases hw with
    | @mapping j _ _ hkeys hys =>
      have hxs := forall₂_entriesOf hxs
      have hys := forall₂_entriesOf hys
      have hnodup : ((s.entriesOf (.mapping j)).map (·.1)).Nodup := by
        change (((s.mapping j).map _).map _).Nodup
        rw [List.map_map]
        exact hkeys.nodup
      change compareEntries inner (some (s.entriesOf (.mapping i))) (some (s.entriesOf (.mapping j)))
        (sameScalar (.mapping i) (.mapping j)) = _
      unfold compareEntries
      dsimp only
      rw [if_pos (hxs.length_eq.trans hys.length_eq.symm)]
      refine allHold_iff.mpr fun p hp => ?_
      obtain ⟨e, he, hkey, hx⟩ := exists_of_forall₂ hxs.flip hp
      obtain ⟨p', hp', hkey', hy⟩ := exists_of_forall₂ hys he
      have hlookup : lastLookup (s.entriesOf (.mapping j)) p.1 = some p'.2 := by
        refine lookup_eq_some_of_mem (by rwa [List.map_reverse, List.nodup_reverse]) (List.mem_reverse.mpr ?_)
        rw [hkey, ← hkey']
        exact hp'
      rw [hlookup]
      exact hinner (Quotable.height_lt_of_mem_entries he) hx hy

/-- The comparisons `visiting` are of trees higher than this one. -/
def Below (s : Store) (visiting : List (Value × Value)) (q : Quotable) : Prop :=
  ∀ p ∈ visiting, ∃ around, s.Shows p.1 around ∧ q.height < around.height

theorem equalWithin_of_shows {n : Nat} {visiting : List (Value × Value)} (hv : s.Shows v q) (hw : s.Shows w q)
    (hn : q.height < n) (hbelow : s.Below visiting q) : s.equalWithin n visiting v w = some true := by
  induction n generalizing v w q visiting with
  | zero => omega
  | succ n ih =>
    have hfresh : ¬ visiting.contains (v, w) = true := by
      intro hmem
      obtain ⟨around, haround, hlt⟩ := hbelow (v, w) (List.contains_iff_mem.mp hmem)
      obtain rfl := hv.unique haround
      exact Nat.lt_irrefl _ hlt
    rw [equalWithin_succ, if_neg hfresh]
    refine compareParts_of_shows hv hw fun hpart hx hy => ih hx hy (by omega) ?_
    refine List.forall_mem_cons.mpr ⟨⟨q, hv, hpart⟩, fun p hp => ?_⟩
    obtain ⟨around, haround, hlt⟩ := hbelow p hp
    exact ⟨around, haround, Nat.lt_trans hpart hlt⟩

/-- Values that are one tree are equal. -/
theorem equal?_of_shows (hv : s.Shows v q) (hw : s.Shows w q) : s.equal? v w = some true := by
  rw [← equalWithin_eq_equal? (Nat.le_add_right (s.depth * s.depth) (q.height + 1))]
  exact equalWithin_of_shows hv hw (by omega) fun p hp => nomatch hp

end Store
end Stencil
