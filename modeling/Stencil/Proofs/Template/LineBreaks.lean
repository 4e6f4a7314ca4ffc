import Stencil.Proofs.Template.TagBodies

/-!
Line breaks of every style. Where all of them are made line feeds, what a lexer looks for is found at the same places:
nothing that it looks for holds a line break, except for blanks, and all line breaks are blanks.
-/
namespace Stencil.Lexer

open Stencil.Literal (Blanks)

variable {α : Type} {a t more : Text} {u : CodeUnit} {n m : Nat}

/-! ## Line feeds for line breaks -/

/-- The units that line breaks are made of. -/
def isBreak (u : CodeUnit) : Bool := u = '\n' || u = '\r'

theorem eq_of_isBreak (hu : isBreak u = true) : u = '\n' ∨ u = '\r' := by
  simpa [isBreak] using hu

theorem normalizeBreaks_unit (hu : u ≠ '\r') (t : Text) : normalizeBreaks (u :: t) = u :: normalizeBreaks t := by
  cases t <;> exact if_neg hu

theorem normalizeBreaks_pair (t : Text) :
    normalizeBreaks (('\r' : CodeUnit) :: ('\n' : CodeUnit) :: t) = ('\n' : CodeUnit) :: normalizeBreaks t :=
  normalizeBreaks_unit (by decide) t

theorem normalizeBreaks_lone (ht : t.head? ≠ some ('\n' : CodeUnit)) :
    normalizeBreaks (('\r' : CodeUnit) :: t) = ('\n' : CodeUnit) :: normalizeBreaks t := by
  cases t with
  | nil => rfl
  | cons v t => exact if_neg fun hv => ht (congrArg some hv)

/-- A text is empty, or it starts with both units of a line break, with a carriage return on its own, or with another
unit. -/
@[elab_as_elim]
theorem breaks_induction {motive : Text → Prop} (nil : motive [])
    (pair : ∀ t, motive t → motive (('\r' : CodeUnit) :: ('\n' : CodeUnit) :: t))
    (lone : ∀ t, t.head? ≠ some ('\n' : CodeUnit) → motive t → motive (('\r' : CodeUnit) :: t))
    (unit : ∀ (u : CodeUnit) t, u ≠ '\r' → motive t → motive (u :: t)) (t : Text) : motive t := by
  match t with
  | [] => exact nil
  | u :: t =>
    have ht := breaks_induction nil pair lone unit t
    by_cases hu : u = '\r'
    · subst hu
      cases t with
      | nil => exact lone [] nofun ht
      | cons v t =>
        by_cases hv : v = '\n'
        · subst hv
          exact pair t (breaks_induction nil pair lone unit t)
        · exact lone (v :: t) (fun h => hv (Option.some.inj h)) ht
    · exact unit u t hu ht

theorem return_notMem (t : Text) : ('\r' : CodeUnit) ∉ normalizeBreaks t := by
  have hfeed : ('\r' : CodeUnit) ≠ '\n' := by decide
  induction t using breaks_induction with
  | nil => exact List.not_mem_nil
  | pair t ih =>
    rw [normalizeBreaks_pair]
    exact List.not_mem_cons_of_ne_of_not_mem hfeed ih
  | lone t ht ih =>
    rw [normalizeBreaks_lone ht]
    exact List.not_mem_cons_of_ne_of_not_mem hfeed ih
  | unit u t hu ih =>
    rw [normalizeBreaks_unit hu]
    exact List.not_mem_cons_of_ne_of_not_mem hu.symm ih

/-- Line breaks on both sides of a border are made line feeds on their own, unless one stands across it. -/
theorem normalizeBreaks_append (h : a.getLast? = some ('\r' : CodeUnit) → t.head? ≠ some ('\n' : CodeUnit)) :
    normalizeBreaks (a ++ t) = normalizeBreaks a ++ normalizeBreaks t := by
  induction a using breaks_induction with
  | nil => rfl
  | pair a ih =>
    have hrest := ih fun hlast => h (by cases a <;> [cases hlast; exact hlast])
    rw [List.cons_append, List.cons_append, normalizeBreaks_pair, normalizeBreaks_pair, hrest, List.cons_append]
  | lone a ha ih =>
    have hrest := ih fun hlast => h (by cases a <;> [cases hlast; exact hlast])
    have hhead : (a ++ t).head? ≠ some ('\n' : CodeUnit) := by
      cases a with
      | nil => exact h rfl
      | cons v a => exact ha
    rw [List.cons_append, normalizeBreaks_lone hhead, normalizeBreaks_lone ha, hrest, List.cons_append]
  | unit u a hu ih =>
    have hrest := ih fun hlast => h (by cases a <;> [cases hlast; exact hlast])
    rw [List.cons_append, normalizeBreaks_unit hu, normalizeBreaks_unit hu, hrest, List.cons_append]

theorem normalizeBreaks_append_of_head (h : t.head? ≠ some ('\n' : CodeUnit)) :
    normalizeBreaks (a ++ t) = normalizeBreaks a ++ normalizeBreaks t := normalizeBreaks_append fun _ => h

/-- A text without carriage returns stays as it is. -/
theorem normalizeBreaks_append_of_notMem (ha : ('\r' : CodeUnit) ∉ a) (t : Text) :
    normalizeBreaks (a ++ t) = a ++ normalizeBreaks t := by
  induction a with
  | nil => rfl
  | cons u a ih =>
    rw [List.mem_cons, not_or] at ha
    rw [List.cons_append, normalizeBreaks_unit (Ne.symm ha.1), ih ha.2, List.cons_append]

theorem normalizeBreaks_of_notMem (ht : ('\r' : CodeUnit) ∉ t) : normalizeBreaks t = t := by
  have happend := normalizeBreaks_append_of_notMem ht []
  rwa [List.append_nil, normalizeBreaks, List.append_nil] at happend

theorem normalizeBreaks_eq_nil : normalizeBreaks t = [] ↔ t = [] := by
  induction t using breaks_induction with
  | nil => simp [normalizeBreaks]
  | pair t _ => simp [normalizeBreaks_pair]
  | lone t ht _ => simp [normalizeBreaks_lone ht]
  | unit u t hu _ => simp [normalizeBreaks_unit hu]

/-- Whatever line break a text starts with, it is made a line feed. -/
theorem exists_normalizeBreaks_cons (hu : isBreak u = true) (t : Text) :
    ∃ rest, normalizeBreaks (u :: t) = ('\n' : CodeUnit) :: rest := by
  rcases eq_of_isBreak hu with rfl | rfl
  · exact ⟨_, normalizeBreaks_unit (by decide) t⟩
  · by_cases ht : t.head? = some ('\n' : CodeUnit)
    · obtain ⟨rest, rfl⟩ := List.head?_eq_some_iff.mp ht
      exact ⟨_, normalizeBreaks_pair rest⟩
    · exact ⟨_, normalizeBreaks_lone ht⟩

theorem getLast?_cons_of_ne {v : CodeUnit} (hv : v ≠ u) (t : Text) :
    (v :: t).getLast? = some u ↔ t.getLast? = some u := by
  cases t with
  | nil => simp [hv]
  | cons w t => rw [List.getLast?_cons_cons]

/-- A unit that is in no line break ends a text exactly if it ends the text with line feeds for line breaks. -/
theorem getLast?_normalizeBreaks (hu : isBreak u = false) :
    (normalizeBreaks t).getLast? = some u ↔ t.getLast? = some u := by
  have hne : ∀ v : CodeUnit, isBreak v = true → v ≠ u := by
    rintro v hv rfl
    exact Bool.false_ne_true (hu.symm.trans hv)
  have hfeed := hne '\n' rfl
  have hreturn := hne '\r' rfl
  induction t using breaks_induction with
  | nil => exact Iff.rfl
  | pair t ih =>
    rw [normalizeBreaks_pair, getLast?_cons_of_ne hfeed, getLast?_cons_of_ne hreturn, getLast?_cons_of_ne hfeed]
    exact ih
  | lone t ht ih =>
    rw [normalizeBreaks_lone ht, getLast?_cons_of_ne hfeed, getLast?_cons_of_ne hreturn]
    exact ih
  | unit v t hv ih =>
    rw [normalizeBreaks_unit hv]
    by_cases hvu : v = u
    · cases t with
      | nil => exact Iff.rfl
      | cons w t =>
        obtain ⟨x, rest, hrest⟩ := List.exists_cons_of_ne_nil (l := normalizeBreaks (w :: t))
          fun h => List.cons_ne_nil w t (normalizeBreaks_eq_nil.mp h)
        rw [hrest] at ih ⊢
        rw [List.getLast?_cons_cons, List.getLast?_cons_cons]
        exact ih
    · rw [getLast?_cons_of_ne hvu, getLast?_cons_of_ne hvu]
      exact ih

theorem dataValue_normalizeBreaks (t : Text) (stripStart stripEnd : Bool) :
    dataValue (normalizeBreaks t) stripStart stripEnd = dataValue t stripStart stripEnd := by
  unfold dataValue
  rw [normalizeBreaks_of_notMem (return_notMem t)]

/-! ## Units passed over -/

/-- Passing over so many units of a text, and over so many others of it with line feeds for line breaks, leads to the
same place. -/
def Abreast (t : Text) (n m : Nat) : Prop := (normalizeBreaks t).drop m = normalizeBreaks (t.drop n)

theorem Abreast.add {n' m' : Nat} (h : Abreast t n m) (h' : Abreast (t.drop n) n' m') :
    Abreast t (n + n') (m + m') := by
  unfold Abreast at h h' ⊢
  rw [← List.drop_drop, h, h', List.drop_drop]

theorem abreast_append (h : t.head? ≠ some ('\n' : CodeUnit)) (a : Text) :
    Abreast (a ++ t) a.length (normalizeBreaks a).length := by
  unfold Abreast
  rw [normalizeBreaks_append_of_head h, List.drop_left, List.drop_left]

/-- Where no carriage return is passed over, as many units are. -/
theorem abreast_of_notMem (h : ('\r' : CodeUnit) ∉ a) (t : Text) : Abreast (a ++ t) a.length a.length := by
  unfold Abreast
  rw [normalizeBreaks_append_of_notMem h, List.drop_left, List.drop_left]

theorem abreast_take (h : ('\r' : CodeUnit) ∉ t.take n) (hn : n ≤ t.length) : Abreast t n n := by
  have habreast := abreast_of_notMem h (t.drop n)
  rwa [List.take_append_drop, List.length_take_of_le hn] at habreast

/-! ## Blanks -/

theorem blanks_normalizeBreaks (h : Blanks a) : Blanks (normalizeBreaks a) := by
  have hfeed : ('\n' : CodeUnit).isBlank = true := by decide
  induction a using breaks_induction with
  | nil => exact h
  | pair a ih =>
    rw [normalizeBreaks_pair]
    exact List.forall_mem_cons.mpr ⟨hfeed, ih (List.forall_mem_cons.mp (List.forall_mem_cons.mp h).2).2⟩
  | lone a ha ih =>
    rw [normalizeBreaks_lone ha]
    exact List.forall_mem_cons.mpr ⟨hfeed, ih (List.forall_mem_cons.mp h).2⟩
  | unit u a hu ih =>
    rw [normalizeBreaks_unit hu]
    exact List.forall_mem_cons.mpr ⟨(List.forall_mem_cons.mp h).1, ih (List.forall_mem_cons.mp h).2⟩

/-- A text is blanks, and then nothing or a unit that is none. -/
theorem exists_blanks_append (t : Text) : ∃ blanks rest, t = blanks ++ rest ∧ Blanks blanks ∧
    ∀ u ∈ rest.head?, u.isBlank = false := by
  have hrest := List.head?_dropWhile_not CodeUnit.isBlank t
  refine ⟨_, _, (List.takeWhile_append_dropWhile (p := CodeUnit.isBlank) (l := t)).symm, blanks_takeWhile t, ?_⟩
  intro u hu
  rw [Option.mem_def.mp hu] at hrest
  exact hrest

theorem takeWhile_blanks_append (hblanks : Blanks a) (ht : ∀ u ∈ t.head?, u.isBlank = false) :
    (a ++ t).takeWhile CodeUnit.isBlank = a := by
  cases t with
  | nil => rw [List.append_nil, List.takeWhile_eq_self_iff.mpr hblanks]
  | cons u t => exact takeWhile_blanks hblanks (ht u rfl)

/-- The blanks ahead are passed over, whatever the line breaks among them are. -/
theorem abreast_blanks (t : Text) : Abreast t (t.takeWhile CodeUnit.isBlank).length
    ((normalizeBreaks t).takeWhile CodeUnit.isBlank).length := by
  obtain ⟨blanks, rest, rfl, hblanks, hrest⟩ := exists_blanks_append t
  have hfeed : rest.head? ≠ some ('\n' : CodeUnit) := fun h => absurd (hrest _ h) (by decide)
  have hrest' : ∀ u ∈ (normalizeBreaks rest).head?, u.isBlank = false := by
    intro u hu
    cases rest with
    | nil => cases hu
    | cons v rest =>
      have hv := hrest v rfl
      rw [normalizeBreaks_unit (fun h => absurd (h ▸ hv) (by decide))] at hu
      obtain rfl : v = u := Option.some.inj hu
      exact hv
  rw [takeWhile_blanks_append hblanks hrest, normalizeBreaks_append_of_head hfeed,
    takeWhile_blanks_append (blanks_normalizeBreaks hblanks) hrest']
  exact abreast_append hfeed blanks

/-! ## What ends at a line break -/

/-- What is read of a text up to its first line break at most is read whatever the line breaks are. -/
theorem eq_of_upToBreak {f : Text → α} (hf : ∀ a u more, isBreak u = true → f (a ++ u :: more) = f a) (t : Text) :
    f (normalizeBreaks t) = f t := by
  have hsplit := List.takeWhile_append_dropWhile (p := (!isBreak ·)) (l := t)
  have hrest := List.head?_dropWhile_not (!isBreak ·) t
  have hfront : ('\r' : CodeUnit) ∉ t.takeWhile (!isBreak ·) := fun hmem =>
    absurd (List.all_eq_true.mp List.all_takeWhile _ hmem) (by decide)
  generalize t.takeWhile (!isBreak ·) = front at hsplit hfront
  generalize t.dropWhile (!isBreak ·) = rest at hsplit hrest
  subst hsplit
  rw [normalizeBreaks_append_of_notMem hfront]
  cases rest with
  | nil => rfl
  | cons u rest =>
    have hu : isBreak u = true := by simpa using hrest
    obtain ⟨rest', hrest'⟩ := exists_normalizeBreaks_cons hu rest
    rw [hrest', hf front _ rest' rfl, hf front u rest hu]

theorem isPrefixOf_normalizeBreaks {part : Text} (h : part.any isBreak = false) (t : Text) :
    part.isPrefixOf (normalizeBreaks t) = part.isPrefixOf t := by
  refine eq_of_upToBreak (f := part.isPrefixOf) (fun a u more hu => ?_) t
  exact isPrefixOf_append_of_notMem (fun hmem => List.any_eq_false.mp h u hmem hu) a more

theorem takeWhile_normalizeBreaks {p : CodeUnit → Bool} (h : ∀ u, isBreak u = true → p u = false) (t : Text) :
    (normalizeBreaks t).takeWhile p = t.takeWhile p :=
  eq_of_upToBreak (f := List.takeWhile p) (fun a u more hu => Text.takeWhile_append_cons (h u hu) a more) t

theorem endsAt_of_isBreak (hu : isBreak u = true) (more : Text) : Text.EndsAt u more := by
  rcases eq_of_isBreak hu with rfl | rfl <;> exact ⟨by decide, by decide, fun h => absurd h (by decide)⟩

theorem numberLength_normalizeBreaks (t : Text) : numberLength (normalizeBreaks t) = numberLength t :=
  eq_of_upToBreak (fun a _ more hu => numberLength_append (endsAt_of_isBreak hu more) a) t

/-- What is read up to the first line break at most holds no carriage return. -/
theorem return_notMem_take {f : Text → Nat} (hf : ∀ a u more, isBreak u = true → f (a ++ u :: more) = f a)
    (hle : ∀ t, f t ≤ t.length) (t : Text) : ('\r' : CodeUnit) ∉ t.take (f t) := by
  by_cases hmem : ('\r' : CodeUnit) ∈ t
  · obtain ⟨front, back, rfl, hfront⟩ := List.eq_append_cons_of_mem hmem
    rw [hf front _ back rfl, List.take_append_of_le_length (hle front)]
    exact fun h => hfront (List.mem_of_mem_take h)
  · exact fun h => hmem (List.mem_of_mem_take h)

/-- A number ahead is read from both forms of a text. -/
theorem abreast_number (t : Text) : Abreast t (numberLength t).1 (numberLength t).1 ∧
    (normalizeBreaks t).take (numberLength t).1 = t.take (numberLength t).1 := by
  have hle := numberLength_le t
  have hreturn := return_notMem_take (f := fun t => (numberLength t).1)
    (fun a _ more hu => congrArg Prod.fst (numberLength_append (endsAt_of_isBreak hu more) a)) numberLength_le t
  refine ⟨abreast_take hreturn hle, ?_⟩
  have hsplit := normalizeBreaks_append_of_notMem hreturn (t.drop (numberLength t).1)
  rw [List.take_append_drop] at hsplit
  rw [hsplit, List.take_left' (List.length_take_of_le hle)]

/-- A word ahead is passed over in both forms of a text. -/
theorem abreast_word (t : Text) :
    Abreast t (t.takeWhile CodeUnit.isNamePart).length (t.takeWhile CodeUnit.isNamePart).length := by
  have hreturn : ('\r' : CodeUnit) ∉ t.takeWhile CodeUnit.isNamePart := fun hmem =>
    absurd (List.all_eq_true.mp List.all_takeWhile _ hmem) (by decide)
  have habreast := abreast_of_notMem hreturn (t.dropWhile CodeUnit.isNamePart)
  rwa [List.takeWhile_append_dropWhile] at habreast

theorem isBreak_symbol (op : Operator) : (Text.ofString op.symbol).any isBreak = false := by cases op <;> decide

theorem ofStart?_normalizeBreaks (t : Text) : Operator.ofStart? (normalizeBreaks t) = Operator.ofStart? t := by
  refine List.find?_congr fun op _ => ?_
  rw [isPrefixOf_normalizeBreaks (isBreak_symbol op)]

/-! ## Searches -/

/-- The first place in a text where something is found: the units before it, and what is found there. -/
def search (p : Text → Option α) : Text → Option (Nat × α)
  | [] => none
  | u :: rest =>
    match p (u :: rest) with
    | some x => some (0, x)
    | none => (search p rest).map fun (n, x) => (n + 1, x)

variable {p : Text → Option α} {R : Text → α → α → Prop} {x y : α}

theorem search_of_none (h : p (u :: t) = none) :
    search p (u :: t) = (search p t).map fun found => (found.1 + 1, found.2) := by
  rw [search, h]

theorem search_of_some (h : p (u :: t) = some x) : search p (u :: t) = some (0, x) := by
  rw [search, h]

/-- What is found in a text, and what is found at the same place if its line breaks are made line feeds. -/
def FoundAlike (p : Text → Option α) (R : Text → α → α → Prop) (t : Text) : Prop :=
  (search p t = none ∧ search p (normalizeBreaks t) = none) ∨
    ∃ front back x y, t = front ++ back ∧ normalizeBreaks t = normalizeBreaks front ++ normalizeBreaks back ∧
      search p t = some (front.length, x) ∧ search p (normalizeBreaks t) = some ((normalizeBreaks front).length, y) ∧
      R back x y

/-- In front of a text there are units where nothing is found, that make one unit with line feeds for line breaks. -/
theorem FoundAlike.append (front : Text) (h : FoundAlike p R t)
    (hfront : ∀ a, a <+: t → normalizeBreaks (front ++ a) = u :: normalizeBreaks a)
    (hsearch : search p (front ++ t) = (search p t).map fun found => (found.1 + front.length, found.2))
    (hnone : p (u :: normalizeBreaks t) = none) : FoundAlike p R (front ++ t) := by
  have hwhole := hfront t (List.prefix_refl t)
  have hsearch' := search_of_none hnone
  rcases h with ⟨hn, hn'⟩ | ⟨a, back, x, y, rfl, ha, hs, hs', hR⟩
  · refine .inl ⟨?_, ?_⟩
    · rw [hsearch, hn, Option.map_none]
    · rw [hwhole, hsearch', hn', Option.map_none]
  · have hpart := hfront a (List.prefix_append a back)
    refine .inr ⟨front ++ a, back, x, y, (List.append_assoc _ _ _).symm, ?_, ?_, ?_, hR⟩
    · rw [hwhole, ha, hpart, List.cons_append]
    · rw [hsearch, hs, Option.map_some, List.length_append, Nat.add_comm]
    · rw [hwhole, hsearch', hs', Option.map_some, hpart, List.length_cons]

/-- A search comes to the same place, if nothing is found where a line break is, and the same elsewhere. -/
theorem search_normalizeBreaks (hfeed : ∀ t, p (('\n' : CodeUnit) :: t) = none)
    (hreturn : ∀ t, p (('\r' : CodeUnit) :: t) = none)
    (hp : ∀ t, Option.Rel (R t) (p t) (p (normalizeBreaks t))) (t : Text) : FoundAlike p R t := by
  induction t using breaks_induction with
  | nil => exact .inl ⟨rfl, rfl⟩
  | pair t ih =>
    have hsearch : search p (('\r' : CodeUnit) :: ('\n' : CodeUnit) :: t) =
        (search p t).map fun found => (found.1 + 2, found.2) := by
      rw [search_of_none (hreturn _), search_of_none (hfeed _), Option.map_map]
      rfl
    exact FoundAlike.append [('\r' : CodeUnit), ('\n' : CodeUnit)] ih
      (fun a _ => normalizeBreaks_pair a) hsearch (hfeed _)
  | lone t ht ih =>
    refine FoundAlike.append [('\r' : CodeUnit)] ih (fun a ha => normalizeBreaks_lone fun hhead => ht ?_)
      (search_of_none (hreturn t)) (hfeed _)
    obtain ⟨rest, rfl⟩ := ha
    cases a with
    | nil => cases hhead
    | cons v a => exact hhead
  | unit u t hu ih =>
    have hunit := normalizeBreaks_unit hu
    have hhere := hp (u :: t)
    rw [hunit] at hhere
    cases hx : p (u :: t) with
    | none =>
      rw [hx] at hhere
      cases hy : p (u :: normalizeBreaks t) with
      | none => exact FoundAlike.append [u] ih (fun a _ => hunit a) (search_of_none hx) hy
      | some y =>
        rw [hy] at hhere
        cases hhere
    | some x =>
      rw [hx] at hhere
      cases hy : p (u :: normalizeBreaks t) with
      | none =>
        rw [hy] at hhere
        cases hhere
      | some y =>
        rw [hy] at hhere
        cases hhere with
        | some hR =>
          refine .inr ⟨[], u :: t, x, y, rfl, rfl, search_of_some hx, ?_, hR⟩
          rw [hunit, search_of_some hy]
          rfl

/-! ## Marks -/

theorem abreast_mark {part : Text} (hpart : part.isPrefixOf t = true) (h : part.any isBreak = false) :
    Abreast t part.length part.length := by
  have hreturn : ('\r' : CodeUnit) ∉ part := fun hmem => List.any_eq_false.mp h _ hmem rfl
  obtain ⟨rest, rfl⟩ := List.isPrefixOf_iff_prefix.mp hpart
  exact abreast_of_notMem hreturn rest

theorem head?_normalizeBreaks (hu : isBreak u = false) (t : Text) :
    (normalizeBreaks t).head? = some u ↔ t.head? = some u := by
  have hdecide : decide ((normalizeBreaks t).head? = some u) = decide (t.head? = some u) := by
    refine eq_of_upToBreak (f := fun t => decide (t.head? = some u)) (fun a v more hv => ?_) t
    cases a with
    | nil =>
      have hne : v ≠ u := by
        rintro rfl
        exact Bool.false_ne_true (hu.symm.trans hv)
      simp [hne]
    | cons w a => rfl
  exact decide_eq_decide.mp hdecide

/-- What an opening mark at the start of a text opens, and whether a dash belongs to it. -/
def openerHere? : Text → Option (Opener × Bool)
  | [] => none
  | u :: rest => (if u = '\x7b' then rest.head?.bind Opener.ofUnit? else none).map fun opener =>
      (opener, decide ((rest.drop 1).head? = some ('-' : CodeUnit)))

theorem openerAt?_eq_search (t : Text) : openerAt? t = search openerHere? t := by
  induction t with
  | nil => rfl
  | cons u t ih =>
    rw [openerAt?, search, openerHere?]
    cases if u = '\x7b' then t.head?.bind Opener.ofUnit? else none with
    | none => rw [ih]; rfl
    | some opener => rfl

theorem openerHere?_normalizeBreaks (t : Text) : openerHere? (normalizeBreaks t) = openerHere? t := by
  refine eq_of_upToBreak (fun a u more hu => ?_) t
  have hbrace : u ≠ '\x7b' := by
    rintro rfl
    exact Bool.false_ne_true hu
  have hdash : u ≠ '-' := by
    rintro rfl
    exact Bool.false_ne_true hu
  have hopener : Opener.ofUnit? u = none := by rcases eq_of_isBreak hu with rfl | rfl <;> decide
  match a with
  | [] => simp [openerHere?, hbrace]
  | [v] => simp [openerHere?, hopener]
  | [v, w] => simp [openerHere?, hdash]
  | v :: w :: x :: a => rfl

theorem rawEndAt?_eq_search (t : Text) : rawEndAt? t = search rawEnd? t := by
  induction t with
  | nil => rfl
  | cons u t ih =>
    rw [rawEndAt?, search, ih]
    cases rawEnd? (u :: t) <;> rfl

/-- A mark at the start of a text. -/
def markHere? (mark t : Text) : Option Unit := if mark.isPrefixOf t then some () else none

theorem find?_eq_search {mark : Text} (hmark : mark ≠ []) (t : Text) :
    Text.find? mark t = (search (markHere? mark) t).map (·.1) := by
  unfold Text.find?
  induction t with
  | nil =>
    rw [Text.splitAtFirst?, if_neg (by simpa using hmark)]
    rfl
  | cons u t ih =>
    rw [Text.splitAtFirst?, search, markHere?]
    by_cases hprefix : mark.isPrefixOf (u :: t)
    · rw [if_pos hprefix, if_pos hprefix]
      rfl
    · have hmap := congrArg (Option.map (· + 1)) ih
      rw [Option.map_map, Option.map_map] at hmap
      rw [if_neg hprefix, if_neg hprefix]
      dsimp only
      rw [Option.map_map, Option.map_map]
      exact hmap

/-! ## Raw blocks -/

/-- What is found ahead in both forms of a text goes as far in each. -/
def AsFar {β : Type} (t : Text) (x y : Nat × β) : Prop := Abreast t x.1 y.1 ∧ x.2 = y.2

theorem wordThenClose?_normalizeBreaks {word : String} (hword : (Text.ofString word).any isBreak = false)
    (t : Text) :
    Option.Rel (AsFar t) (wordThenClose? word t) (wordThenClose? word (normalizeBreaks t)) := by
  have hdash : (Text.ofString "-%\x7d").any isBreak = false := by decide
  have hclose : (Text.ofString "%\x7d").any isBreak = false := by decide
  have hfirst := abreast_blanks t
  unfold wordThenClose?
  dsimp only
  rw [hfirst, isPrefixOf_normalizeBreaks hword]
  generalize (t.takeWhile CodeUnit.isBlank).length = blanks at hfirst ⊢
  generalize ((normalizeBreaks t).takeWhile CodeUnit.isBlank).length = blanks' at hfirst ⊢
  by_cases hfound : (Text.ofString word).isPrefixOf (t.drop blanks)
  · have hmiddle := abreast_mark hfound hword
    have hsecond := abreast_blanks ((t.drop blanks).drop (Text.ofString word).length)
    rw [if_pos hfound, if_pos hfound, hmiddle, hsecond]
    generalize Text.ofString word = w at hmiddle hsecond ⊢
    generalize (((t.drop blanks).drop w.length).takeWhile CodeUnit.isBlank).length = more at hsecond ⊢
    generalize ((normalizeBreaks ((t.drop blanks).drop w.length)).takeWhile CodeUnit.isBlank).length = more'
      at hsecond ⊢
    rw [isPrefixOf_normalizeBreaks hdash, isPrefixOf_normalizeBreaks hclose]
    have hword' : Abreast t (blanks + w.length + more) (blanks' + w.length + more') := by
      refine (hfirst.add hmiddle).add ?_
      rwa [← List.drop_drop]
    have hend : ∀ {mark : Text}, mark.any isBreak = false →
        mark.isPrefixOf (((t.drop blanks).drop w.length).drop more) = true →
        Abreast t (blanks + w.length + more + mark.length) (blanks' + w.length + more' + mark.length) := by
      intro mark hmark hprefix
      refine hword'.add (abreast_mark ?_ hmark)
      rwa [← List.drop_drop, ← List.drop_drop]
    by_cases hdashed : (Text.ofString "-%\x7d").isPrefixOf (((t.drop blanks).drop w.length).drop more)
    · rw [if_pos hdashed, if_pos hdashed]
      exact .some ⟨hend hdash hdashed, rfl⟩
    · rw [if_neg hdashed, if_neg hdashed]
      by_cases hclosed : (Text.ofString "%\x7d").isPrefixOf (((t.drop blanks).drop w.length).drop more)
      · rw [if_pos hclosed, if_pos hclosed]
        exact .some ⟨hend hclose hclosed, rfl⟩
      · rw [if_neg hclosed, if_neg hclosed]
        exact .none
  · rw [if_neg hfound, if_neg hfound]
    exact .none

theorem rawEnd?_normalizeBreaks (t : Text) : Option.Rel (AsFar t) (rawEnd? t) (rawEnd? (normalizeBreaks t)) := by
  have hmark : (Text.ofString "\x7b%").any isBreak = false := by decide
  have hword : (Text.ofString "endraw").any isBreak = false := by decide
  -- what is framed starts behind the mark, or behind its dash
  have hframed : ∀ (width : Nat) (dash : Bool), Abreast t width width →
      Option.Rel (AsFar t) ((wordThenClose? "endraw" (t.drop width)).map fun p => (width + p.1, dash, p.2))
        ((wordThenClose? "endraw" ((normalizeBreaks t).drop width)).map fun p => (width + p.1, dash, p.2)) := by
    intro width dash habreast
    have hrel := wordThenClose?_normalizeBreaks hword (t.drop width)
    rw [← habreast] at hrel
    generalize wordThenClose? "endraw" (t.drop width) = found at hrel
    generalize wordThenClose? "endraw" ((normalizeBreaks t).drop width) = found' at hrel
    cases hrel with
    | none => exact .none
    | some hfar => exact .some ⟨habreast.add hfar.1, congrArg (Prod.mk dash) hfar.2⟩
  unfold rawEnd?
  rw [isPrefixOf_normalizeBreaks hmark]
  by_cases hprefix : (Text.ofString "\x7b%").isPrefixOf t
  · have hopen : Abreast t 2 2 := abreast_mark hprefix hmark
    have hhead := head?_normalizeBreaks (u := ('-' : CodeUnit)) rfl (t.drop 2)
    rw [← hopen] at hhead
    rw [if_pos hprefix, if_pos hprefix]
    dsimp only
    by_cases hdash : (t.drop 2).head? = some ('-' : CodeUnit)
    · have hthree : Abreast t 3 3 := by
        obtain ⟨rest, hrest⟩ := List.head?_eq_some_iff.mp hdash
        have hone : Abreast (t.drop 2) 1 1 := by
          rw [hrest]
          exact abreast_of_notMem (a := [('-' : CodeUnit)]) (by decide) rest
        exact hopen.add hone
      simp only [if_pos hdash, if_pos (hhead.mpr hdash), decide_eq_true hdash, decide_eq_true (hhead.mpr hdash),
        List.drop_drop]
      exact hframed 3 true hthree
    · have hdash' := fun h => hdash (hhead.mp h)
      simp only [if_neg hdash, if_neg hdash', decide_eq_false hdash, decide_eq_false hdash']
      exact hframed 2 false hopen
  · rw [if_neg hprefix, if_neg hprefix]
    exact .none

/-! ## Strings -/

section strings

variable {quote : CodeUnit} {value : Text}

theorem isSome_stringBody?_cons (hquote : u ≠ quote) (hslash : u ≠ '\\') (t : Text) :
    (stringBody? quote (u :: t)).isSome = (stringBody? quote t).isSome := by
  cases t with
  | nil => simp [stringBody?, hquote]
  | cons v t => simp [stringBody?, hquote, hslash]

theorem isSome_stringBody?_escape (hquote : quote ≠ '\\') (v : CodeUnit) (t : Text) :
    (stringBody? quote (('\\' : CodeUnit) :: v :: t)).isSome = (stringBody? quote t).isSome := by
  simp [stringBody?, hquote.symm]

/-- Whether a string is closed does not depend on the line breaks in it: nothing that is escaped but a quote or a
backslash matters. -/
theorem isSome_stringBody?_normalizeBreaks (hquote : isBreak quote = false) (t : Text) :
    (stringBody? quote (normalizeBreaks t)).isSome = (stringBody? quote t).isSome := by
  have hne : ∀ v : CodeUnit, isBreak v = true → v ≠ quote := by
    rintro v hv rfl
    exact Bool.false_ne_true (hquote.symm.trans hv)
  have hfeed : ∀ t, (stringBody? quote (('\n' : CodeUnit) :: t)).isSome = (stringBody? quote t).isSome :=
    isSome_stringBody?_cons (hne '\n' rfl) (by decide)
  have hclosed : ∀ t, (stringBody? quote (quote :: t)).isSome = true := fun t => by cases t <;> simp [stringBody?]
  have hreturn : quote ≠ '\r' := (hne '\r' rfl).symm
  -- behind its first unit, a text is closed as the rest is
  have hbehind : ∀ v rest, ∃ w more, normalizeBreaks (v :: rest) = w :: more ∧
      (stringBody? quote more).isSome = (stringBody? quote (normalizeBreaks rest)).isSome := by
    intro v rest
    by_cases hv : v = '\r'
    · subst hv
      by_cases hrest : rest.head? = some ('\n' : CodeUnit)
      · obtain ⟨rest, rfl⟩ := List.head?_eq_some_iff.mp hrest
        rw [normalizeBreaks_pair, normalizeBreaks_unit (by decide) rest]
        exact ⟨_, _, rfl, (hfeed _).symm⟩
      · exact ⟨_, _, normalizeBreaks_lone hrest, rfl⟩
    · exact ⟨_, _, normalizeBreaks_unit hv rest, rfl⟩
  fun_induction stringBody? quote t with
  | case1 => rfl
  | case2 =>
    rw [normalizeBreaks_unit hreturn]
    exact hclosed []
  | case3 u hu =>
    by_cases hu' : u = '\r'
    · subst hu'
      exact hfeed []
    · rw [normalizeBreaks_unit hu']
      exact congrArg Option.isSome (if_neg hu)
  | case4 v rest =>
    rw [normalizeBreaks_unit hreturn]
    exact hclosed _
  | case5 v rest hu ih =>
    obtain ⟨w, more, hmore, hsome⟩ := hbehind v rest
    rw [normalizeBreaks_unit (by decide), hmore, isSome_stringBody?_escape (Ne.symm hu), hsome, ih, Option.isSome_map]
  | case6 u v rest hu hslash ih =>
    rw [Option.isSome_map, ← ih]
    by_cases hu' : u = '\r'
    · subst hu'
      by_cases hv : v = '\n'
      · subst hv
        rw [normalizeBreaks_pair, normalizeBreaks_unit (by decide)]
      · rw [normalizeBreaks_lone (t := v :: rest) fun h => hv (Option.some.inj h)]
        exact hfeed _
    · rw [normalizeBreaks_unit hu', isSome_stringBody?_cons hu hslash]

/-- A string without a carriage return is read from both forms of a text. -/
theorem stringBody?_normalizeBreaks (h : stringBody? quote t = some (value, n))
    (hreturn : ('\r' : CodeUnit) ∉ t.take n) :
    stringBody? quote (normalizeBreaks t) = some (value, n) ∧ Abreast t n n := by
  have hn := (stringRounds_le h).2
  have hwhole : stringBody? quote (t.take n ++ t.drop n) = some (value, n) := by rwa [List.take_append_drop]
  have hvalue := stringBody?_of_append hwhole (List.length_take_of_le hn).ge
  have hsplit := normalizeBreaks_append_of_notMem hreturn (t.drop n)
  rw [List.take_append_drop] at hsplit
  refine ⟨?_, abreast_take hreturn hn⟩
  rw [hsplit]
  exact stringBody?_append _ hvalue

end strings

end Stencil.Lexer
