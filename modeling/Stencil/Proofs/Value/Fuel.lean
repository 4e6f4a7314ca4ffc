import Mathlib.Data.Finset.Prod
import Stencil.Proofs.Value.Saturation
import Stencil.Value.Equality

/-! Texts and comparisons of values do not depend on the fuel beyond the size of the store. -/
namespace Stencil.Store

variable {s : Store}

/-- The references that lead to a content. -/
def containers (s : Store) : Finset Value :=
  (Finset.range s.lists.size).image Value.list ∪ (Finset.range s.mappings.size).image Value.mapping ∪
    (Finset.range s.tables.size).image Value.table

theorem card_containers_lt (s : Store) : s.containers.card < s.depth := by
  have hlists : ((Finset.range s.lists.size).image Value.list).card ≤ s.lists.size := by
    simpa using Finset.card_image_le (s := Finset.range s.lists.size) (f := Value.list)
  have hmappings : ((Finset.range s.mappings.size).image Value.mapping).card ≤ s.mappings.size := by
    simpa using Finset.card_image_le (s := Finset.range s.mappings.size) (f := Value.mapping)
  have htables : ((Finset.range s.tables.size).image Value.table).card ≤ s.tables.size := by
    simpa using Finset.card_image_le (s := Finset.range s.tables.size) (f := Value.table)
  have hleft := Finset.card_union_le ((Finset.range s.lists.size).image Value.list)
    ((Finset.range s.mappings.size).image Value.mapping)
  have hall := Finset.card_union_le ((Finset.range s.lists.size).image Value.list ∪
    (Finset.range s.mappings.size).image Value.mapping) ((Finset.range s.tables.size).image Value.table)
  unfold containers depth
  omega

theorem list_mem_containers {id : ListId} : .list id ∈ s.containers ↔ id < s.lists.size := by
  simp [containers]

theorem mapping_mem_containers {id : MappingId} : .mapping id ∈ s.containers ↔ id < s.mappings.size := by
  simp [containers]

theorem table_mem_containers {id : TableId} : .table id ∈ s.containers ↔ id < s.tables.size := by
  simp [containers]

theorem list_eq_nil {id : ListId} (h : .list id ∉ s.containers) : s.list id = [] := by
  rw [list_mem_containers, Nat.not_lt] at h
  rw [list, Array.getElem?_eq_none h, Option.getD_none]

theorem mapping_eq_nil {id : MappingId} (h : .mapping id ∉ s.containers) : s.mapping id = [] := by
  rw [mapping_mem_containers, Nat.not_lt] at h
  rw [mapping, Array.getElem?_eq_none h, Option.getD_none]

theorem table_eq_nil {id : TableId} (h : .table id ∉ s.containers) : s.table id = [] := by
  rw [table_mem_containers, Nat.not_lt] at h
  rw [table, Array.getElem?_eq_none h, Option.getD_none]

theorem mapM_grows {α β : Type} {f g : α → Option β} (hfg : ∀ a b, f a = some b → g a = some b) :
    ∀ {l : List α} {bs : List β}, l.mapM f = some bs → l.mapM g = some bs
  | [], bs, h => h
  | a :: l, bs, h => by
    rw [List.mapM_cons] at h ⊢
    obtain ⟨b, hb, h⟩ := Option.bind_eq_some_iff.mp h
    obtain ⟨rest, hrest, h⟩ := Option.bind_eq_some_iff.mp h
    rw [hfg a b hb]
    exact Option.bind_eq_some_iff.mpr ⟨b, rfl, Option.bind_eq_some_iff.mpr ⟨rest, mapM_grows hfg hrest, h⟩⟩

/-- The text of an entry inside the text of its container. -/
def entryWithin (s : Store) (n : Nat) : Text × Value → Option Text := fun (key, item) => do
  return quoted key ++ Text.ofString ": " ++ (← displayWithin s n true item)

theorem displayWithin_list (n : Nat) (quote : Bool) (id : ListId) : s.displayWithin (n + 1) quote (.list id) =
    bracket "[" "]" <$> (s.list id).mapM (s.displayWithin n true) := rfl

theorem displayWithin_mapping (n : Nat) (quote : Bool) (id : MappingId) :
    s.displayWithin (n + 1) quote (.mapping id) =
      bracket "\x7b" "\x7d" <$> (s.entriesOf (.mapping id)).mapM (s.entryWithin n) := rfl

theorem displayWithin_table (n : Nat) (quote : Bool) (id : TableId) :
    s.displayWithin (n + 1) quote (.table id) =
      bracket "\x7b" "\x7d" <$> (s.entriesOf (.table id)).mapM (s.entryWithin n) := rfl

theorem entryWithin_grows {n : Nat}
    (ih : ∀ {v t}, s.displayWithin n true v = some t → s.displayWithin (n + 1) true v = some t)
    (p : Text × Value) (t : Text) (h : s.entryWithin n p = some t) : s.entryWithin (n + 1) p = some t := by
  obtain ⟨u, hu, h⟩ := Option.bind_eq_some_iff.mp h
  exact Option.bind_eq_some_iff.mpr ⟨u, ih hu, h⟩

theorem displayWithin_grows : ∀ {n : Nat} {quote : Bool} {v : Value} {t : Text},
    s.displayWithin n quote v = some t → s.displayWithin (n + 1) quote v = some t
  | 0, _, _, _, h => by cases h
  | n + 1, quote, v, t, h => by
    cases v with
    | list id =>
      rw [displayWithin_list] at h ⊢
      obtain ⟨parts, hparts, h⟩ := Option.map_eq_some_iff.mp h
      exact Option.map_eq_some_iff.mpr ⟨parts, mapM_grows (fun _ _ => displayWithin_grows) hparts, h⟩
    | mapping id =>
      rw [displayWithin_mapping] at h ⊢
      obtain ⟨parts, hparts, h⟩ := Option.map_eq_some_iff.mp h
      exact Option.map_eq_some_iff.mpr
        ⟨parts, mapM_grows (entryWithin_grows displayWithin_grows) hparts, h⟩
    | table id =>
      rw [displayWithin_table] at h ⊢
      obtain ⟨parts, hparts, h⟩ := Option.map_eq_some_iff.mp h
      exact Option.map_eq_some_iff.mpr
        ⟨parts, mapM_grows (entryWithin_grows displayWithin_grows) hparts, h⟩
    | _ => exact h

theorem entriesOf_eq_nil {id : TableId} (h : .table id ∉ s.containers) : s.entriesOf (.table id) = [] := by
  rw [entriesOf, table_eq_nil h, List.map_nil]

theorem entriesOf_mapping_eq_nil {id : MappingId} (h : .mapping id ∉ s.containers) :
    s.entriesOf (.mapping id) = [] := by
  rw [entriesOf, mapping_eq_nil h, List.map_nil]

/-- Texts of values, with ever more fuel. -/
theorem display_approximation (s : Store) :
    Approximation (fun n => s.displayWithin n true) s.containers where
  grows := displayWithin_grows
  computed := by
    intro n h
    have hentry : s.entryWithin n = s.entryWithin (n + 1) := by
      funext p
      rw [entryWithin, entryWithin, h]
    funext v
    cases v with
    | list id => rw [displayWithin_list, displayWithin_list, h]
    | mapping id => rw [displayWithin_mapping, displayWithin_mapping, hentry]
    | table id => rw [displayWithin_table, displayWithin_table, hentry]
    | _ => rfl
  early := by
    intro v hv
    cases v with
    | list id => rw [displayWithin_list, list_eq_nil hv]; rfl
    | mapping id => rw [displayWithin_mapping, entriesOf_mapping_eq_nil hv]; rfl
    | table id => rw [displayWithin_table, entriesOf_eq_nil hv]; rfl
    | _ => rfl

theorem displayWithin_stable {n : Nat} (hn : s.depth ≤ n) (quote : Bool) (v : Value) :
    s.displayWithin n quote v = s.displayWithin s.depth quote v := by
  have hcard := s.card_containers_lt
  have htrue : s.displayWithin n true = s.displayWithin s.depth true := by
    rw [s.display_approximation.stable (by omega), s.display_approximation.stable (n := s.depth) (by omega)]
  obtain ⟨m, rfl⟩ : ∃ m, n = m + 1 := ⟨n - 1, by omega⟩
  obtain ⟨d, hd⟩ : ∃ d, s.depth = d + 1 := ⟨s.lists.size + s.mappings.size + s.tables.size, rfl⟩
  rw [hd] at htrue ⊢
  have hv := congrFun htrue v
  cases v <;> first | rfl | exact hv

theorem keyTextWithin_list (n : Nat) (visiting : List ListId) (id : ListId) :
    s.keyTextWithin (n + 1) visiting (.list id) =
      if visiting.contains id then []
      else Text.join (Text.ofString ",") ((s.list id).map fun item =>
        if item = .none || item = .absent then [] else s.keyTextWithin n (id :: visiting) item) := rfl

theorem list_of_not_mem {id : ListId} (h : ¬ id < s.lists.size) : s.list id = [] :=
  list_eq_nil (by rwa [list_mem_containers])

/-- With fuel for every list that is not visited, more fuel changes nothing. -/
theorem keyTextWithin_stable : ∀ {n m : Nat} {visiting : List ListId} (v : Value), visiting.Nodup →
    (∀ id ∈ visiting, id < s.lists.size) → s.lists.size < n + visiting.length →
    s.lists.size < m + visiting.length → s.keyTextWithin n visiting v = s.keyTextWithin m visiting v
  | 0, m, visiting, v, hnodup, hin, hn, _ => by
    have := (hnodup.subperm fun id h => List.mem_range.mpr (hin id h)).length_le
    rw [List.length_range] at this
    omega
  | n + 1, 0, visiting, v, hnodup, hin, _, hm => by
    have := (hnodup.subperm fun id h => List.mem_range.mpr (hin id h)).length_le
    rw [List.length_range] at this
    omega
  | n + 1, m + 1, visiting, v, hnodup, hin, hn, hm => by
    cases v with
    | list id =>
      rw [keyTextWithin_list, keyTextWithin_list]
      by_cases hv : id ∈ visiting
      · rw [if_pos (List.contains_iff_mem.mpr hv), if_pos (List.contains_iff_mem.mpr hv)]
      · have hv' : ¬ visiting.contains id = true := mt List.contains_iff_mem.mp hv
        rw [if_neg hv', if_neg hv']
        by_cases hid : id < s.lists.size
        · have hrec : ∀ item, s.keyTextWithin n (id :: visiting) item = s.keyTextWithin m (id :: visiting) item := by
            refine fun item => keyTextWithin_stable item (List.nodup_cons.mpr ⟨hv, hnodup⟩) ?_ ?_ ?_
            · exact List.forall_mem_cons.mpr ⟨hid, hin⟩
            · rw [List.length_cons]; omega
            · rw [List.length_cons]; omega
          simp only [hrec]
        · rw [list_of_not_mem hid]
          rfl
    | _ => rfl

theorem keyTextWithin_eq_keyText {n : Nat} (hn : s.lists.size < n) (v : Value) :
    s.keyTextWithin n [] v = s.keyText v :=
  keyTextWithin_stable v List.nodup_nil (by simp) (by simpa using hn) (by simp)

theorem entries?_of_not_mem {v : Value} (h : v ∉ s.containers) {entries : List (Text × Value)}
    (he : s.entries? v = some entries) : entries = [] := by
  cases v with
  | mapping id => cases he; exact entriesOf_mapping_eq_nil h
  | table id => cases he; exact entriesOf_eq_nil h
  | _ => cases he

section allHold

variable {α : Type} {p q : α → Option Bool} {l : List α}

theorem allHold_congr (h : ∀ a ∈ l, p a = q a) : allHold p l = allHold q l := by
  induction l with
  | nil => rfl
  | cons a l ih =>
    obtain ⟨ha, hl⟩ := List.forall_mem_cons.mp h
    rw [allHold, allHold, ha, ih hl]

theorem exists_allHold (h : ∀ a ∈ l, ∃ b, p a = some b) : ∃ b, allHold p l = some b := by
  induction l with
  | nil => exact ⟨true, rfl⟩
  | cons a l ih =>
    obtain ⟨⟨b, hb⟩, hl⟩ := List.forall_mem_cons.mp h
    rw [allHold, hb]
    cases b with
    | true => exact ih hl
    | false => exact ⟨false, rfl⟩

theorem allHold_iff : allHold p l = some true ↔ ∀ a ∈ l, p a = some true := by
  induction l with
  | nil => simp [allHold]
  | cons a l ih =>
    rw [allHold, List.forall_mem_cons, ← ih]
    cases p a with
    | none => simp
    | some b => cases b <;> simp

end allHold

/-- The comparison of two lists, with `inner` for that of their items. -/
def compareItems (inner : Value → Value → Option Bool) (xs ys : List Value) : Option Bool :=
  if xs.length = ys.length then allHold (fun (x, y) => inner x y) (xs.zip ys) else some false

/-- The comparison of two containers by key, and the answer for other values. -/
def compareEntries (inner : Value → Value → Option Bool) (xs? ys? : Option (List (Text × Value)))
    (otherwise : Bool) : Option Bool :=
  match xs?, ys? with
  | some xs, some ys =>
    if xs.length = ys.length then
      allHold (fun (key, x) => match lastLookup ys key with
        | some y => inner x y
        | none => some false) xs
    else some false
  | _, _ => some otherwise

/-- The comparison of two values, with `inner` for that of their parts. -/
def compareParts (s : Store) (inner : Value → Value → Option Bool) (v w : Value) : Option Bool :=
  match v, w with
  | .list i, .list j => compareItems inner (s.list i) (s.list j)
  | v, w => compareEntries inner (s.entries? v) (s.entries? w) (sameScalar v w)

theorem equalWithin_succ (n : Nat) (visiting : List (Value × Value)) (v w : Value) :
    s.equalWithin (n + 1) visiting v w = if visiting.contains (v, w) then none
      else s.compareParts (s.equalWithin n ((v, w) :: visiting)) v w := by
  cases v <;> cases w <;> rfl

theorem compareItems_of_nil {xs ys : List Value} (h : xs = [] ∨ ys = []) (f g : Value → Value → Option Bool) :
    compareItems f xs ys = compareItems g xs ys := by
  unfold compareItems
  rcases h with rfl | rfl <;> simp [allHold]

theorem compareEntries_of_nil {xs? ys? : Option (List (Text × Value))}
    (h : (∀ xs ∈ xs?, xs = []) ∨ (∀ ys ∈ ys?, ys = [])) (f g : Value → Value → Option Bool) (b : Bool) :
    compareEntries f xs? ys? b = compareEntries g xs? ys? b := by
  cases xs? with
  | none => rfl
  | some xs =>
    cases ys? with
    | none => rfl
    | some ys =>
      unfold compareEntries
      dsimp only
      split
      · rename_i hlen
        have hnil : xs = [] := by
          rcases h with h | h
          · exact h xs rfl
          · rwa [h ys rfl, List.length_nil, List.length_eq_zero_iff] at hlen
        rw [hnil]
        rfl
      · rfl

theorem compareParts_of_not_mem {v w : Value} (h : v ∉ s.containers ∨ w ∉ s.containers)
    (f g : Value → Value → Option Bool) : s.compareParts f v w = s.compareParts g v w := by
  unfold compareParts
  split
  · exact compareItems_of_nil (h.imp list_eq_nil list_eq_nil) f g
  · exact compareEntries_of_nil (h.imp (fun h _ => entries?_of_not_mem h) fun h _ => entries?_of_not_mem h) f g _

theorem length_visiting_le {visiting : List (Value × Value)} (hnodup : visiting.Nodup)
    (hin : ∀ p ∈ visiting, p ∈ s.containers ×ˢ s.containers) :
    visiting.length ≤ (s.containers ×ˢ s.containers).card := by
  rw [← List.toFinset_card_of_nodup hnodup]
  exact Finset.card_le_card fun p hp => hin p (List.mem_toFinset.mp hp)

/-- With fuel for every pair of containers that is not visited, more fuel changes nothing. -/
theorem equalWithin_stable : ∀ {n m : Nat} {visiting : List (Value × Value)} (v w : Value), visiting.Nodup →
    (∀ p ∈ visiting, p ∈ s.containers ×ˢ s.containers) →
    (s.containers ×ˢ s.containers).card < n + visiting.length →
    (s.containers ×ˢ s.containers).card < m + visiting.length →
    s.equalWithin n visiting v w = s.equalWithin m visiting v w
  | 0, m, visiting, v, w, hnodup, hin, hn, _ => by
    have := length_visiting_le hnodup hin
    omega
  | n + 1, 0, visiting, v, w, hnodup, hin, _, hm => by
    have := length_visiting_le hnodup hin
    omega
  | n + 1, m + 1, visiting, v, w, hnodup, hin, hn, hm => by
    rw [equalWithin_succ, equalWithin_succ]
    split
    · rfl
    · rename_i hvisited
      by_cases hmem : v ∈ s.containers ∧ w ∈ s.containers
      · have hrec : s.equalWithin n ((v, w) :: visiting) = s.equalWithin m ((v, w) :: visiting) := by
          funext x y
          refine equalWithin_stable x y ?_ ?_ ?_ ?_
          · exact List.nodup_cons.mpr ⟨mt List.contains_iff_mem.mpr hvisited, hnodup⟩
          · exact List.forall_mem_cons.mpr ⟨Finset.mem_product.mpr hmem, hin⟩
          · rw [List.length_cons]; omega
          · rw [List.length_cons]; omega
        rw [hrec]
      · exact compareParts_of_not_mem (not_and_or.mp hmem) _ _

theorem equalWithin_eq_equal? {n : Nat} (hn : s.depth * s.depth ≤ n) (v w : Value) :
    s.equalWithin n [] v w = s.equal? v w := by
  have hlt : (s.containers ×ˢ s.containers).card < s.depth * s.depth := by
    rw [Finset.card_product]
    exact Nat.mul_self_lt_mul_self s.card_containers_lt
  exact equalWithin_stable v w List.nodup_nil (by simp) (by simpa using hlt.trans_le hn) (by simpa using hlt)

end Stencil.Store
