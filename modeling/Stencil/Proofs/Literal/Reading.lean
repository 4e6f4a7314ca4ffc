import Stencil.Proofs.Literal.Spelling

/-! Every spelling of a datum is read as it, however much text the reader was given to work with. -/
namespace Stencil.Literal

variable {fuel : Nat} {d : Datum} {key t after rest : Text} {done items : List Datum}
  {entries : List (Text × Datum)} {close : CodeUnit}

/-! ## Steps of the reader -/

theorem value_trimLeft (fuel : Nat) (t : Text) : value (fuel + 1) t.trimLeft = value (fuel + 1) t := by
  rw [value, value, trimLeft_trimLeft]

theorem sequence_close (h : t.trimLeft = close :: rest) :
    sequence close (fuel + 1) done t = .ok (done.reverse, rest) := by
  rw [sequence, h]
  exact if_pos rfl

/-- After an item comes a comma or the closing mark. -/
theorem sequence_item (hopen : t.trimLeft.head? ≠ some close) (hd : value fuel t.trimLeft = .ok (d, after)) :
    sequence close (fuel + 1) done t = match after.trimLeft with
      | u :: rest =>
        if u = ',' then sequence close fuel (d :: done) rest
        else if u = close then .ok ((d :: done).reverse, rest)
        else stop (.expectedCommaOr close) after.trimLeft
      | [] => stop (.expectedCommaOr close) after.trimLeft := by
  rw [sequence]
  dsimp only
  rw [if_neg hopen, hd]
  rfl

theorem mapping_close {done : List (Text × Datum)} (h : t.trimLeft = ('\x7d' : CodeUnit) :: rest) :
    mapping (fuel + 1) done t = .ok (done.reverse, rest) := by
  rw [mapping, h]
  exact if_pos rfl

theorem mapping_entry {done : List (Text × Datum)} {afterKey : Text} (hopen : t.trimLeft.head? ≠ some ('\x7d' : CodeUnit))
    (hkey : value fuel t.trimLeft = .ok (.text key, afterKey)) (hcolon : afterKey.trimLeft = (':' : CodeUnit) :: rest)
    (hd : value fuel rest = .ok (d, after)) :
    mapping (fuel + 1) done t = match after.trimLeft with
      | u :: rest =>
        if u = ',' then mapping fuel ((key, d) :: done) rest
        else if u = '\x7d' then .ok (((key, d) :: done).reverse, rest)
        else stop (.expectedCommaOr '\x7d') after.trimLeft
      | [] => stop (.expectedCommaOr '\x7d') after.trimLeft := by
  rw [mapping]
  dsimp only
  rw [if_neg hopen, hkey]
  dsimp only [bind, Except.bind, keyText?]
  rw [hcolon]
  dsimp only [expect]
  rw [if_pos rfl]
  dsimp only
  rw [hd]
  rfl

theorem parenthesized_close (h : t.trimLeft = (')' : CodeUnit) :: rest) :
    parenthesized (fuel + 1) t = .ok (.list [], rest) := by
  rw [parenthesized, h]
  exact if_pos rfl

/-- A literal in parentheses stands for itself, unless a comma follows it. -/
theorem parenthesized_first (hopen : t.trimLeft.head? ≠ some (')' : CodeUnit))
    (hd : value fuel t.trimLeft = .ok (d, after)) :
    parenthesized (fuel + 1) t =
      if after.trimLeft.head? = some (')' : CodeUnit) then .ok (d, after.trimLeft.drop 1)
      else do
        let t ← expect ',' after.trimLeft
        let (items, t) ← sequence ')' fuel [d] t
        return (.list items, t) := by
  rw [parenthesized]
  dsimp only
  rw [if_neg hopen, hd]
  rfl

/-! ## What is read -/

/-- A text is read as a datum, with fuel for twice its length; what follows stays, up to blanks. -/
def Reads (d : Datum) (t : Text) : Prop :=
  ∀ fuel rest, 2 * t.length ≤ fuel → Apart rest →
    ∃ after, value fuel (t ++ rest) = .ok (d, after) ∧ after.trimLeft = rest.trimLeft

def ReadsItems (items : List Datum) (t : Text) : Prop :=
  ∀ close : CodeUnit, close = ']' ∨ close = ')' → ∀ fuel done rest, 2 * t.length + 1 ≤ fuel →
    sequence close fuel done (t ++ close :: rest) = .ok (done.reverse ++ items, rest)

def ReadsEntries (entries : List (Text × Datum)) (t : Text) : Prop :=
  ∀ fuel done rest, 2 * t.length + 1 ≤ fuel →
    mapping fuel done (t ++ ('\x7d' : CodeUnit) :: rest) = .ok (done.reverse ++ entries, rest)

/-- A text that starts with something else than a closing mark. -/
def Starts (t : Text) : Prop :=
  ∀ rest, ∃ u more, (t ++ rest).trimLeft = u :: more ∧ u ≠ ']' ∧ u ≠ ')' ∧ u ≠ '\x7d'

theorem starts_cons {u : CodeUnit} (hblank : u.isBlank = false) (hu : u ≠ ']' ∧ u ≠ ')' ∧ u ≠ '\x7d') (t : Text) :
    Starts (u :: t) := fun rest => ⟨u, t ++ rest, trimLeft_cons hblank _, hu⟩

theorem starts_spelling (h : Spelling d t) : Starts t := by
  cases h with
  | none => exact starts_cons (by decide) (by decide) _
  | capital b => cases b <;> exact starts_cons (by decide) (by decide) _
  | lower b => cases b <;> exact starts_cons (by decide) (by decide) _
  | @integer n _ =>
    have hdigits := Text.isDigit_of_mem_ofNat n
    have hne := Text.ofNat_ne_nil n
    generalize Text.ofNat n = digits at hdigits hne ⊢
    cases digits with
    | nil => exact absurd rfl hne
    | cons u digits =>
      have hu := hdigits u List.mem_cons_self
      refine starts_cons (Bool.eq_false_iff.mpr fun hblank => ?_) ⟨?_, ?_, ?_⟩ _
      · have hunit := isNumberUnit_of_isBlank hblank
        rw [isNumberUnit_of_isDigit hu] at hunit
        cases hunit
      all_goals exact Number.ne_of_isDigit hu (by decide)
  | signed negative => cases negative <;> exact starts_cons (by decide) (by decide) _
  | text hquote => rcases hquote with rfl | rfl <;> exact starts_cons (by decide) (by decide) _
  | _ => exact starts_cons (by decide) (by decide) _

theorem starts_padded (h : Padded d t) : Starts t := by
  obtain ⟨hbefore, h, hafter⟩ := h
  intro rest
  obtain ⟨u, more, htrim, hu⟩ := starts_spelling h (_ ++ rest)
  refine ⟨u, more, ?_, hu⟩
  rwa [List.append_assoc, trimLeft_append hbefore, List.append_assoc]

theorem Starts.length_pos (h : Starts t) : 0 < t.length := by
  cases t with
  | nil =>
    obtain ⟨u, more, htrim, -⟩ := h []
    cases htrim
  | cons u t => exact Nat.zero_lt_succ _

/-- A text that starts as a literal is read the same with the blanks in front gone. -/
theorem Reads.trimmed (h : Reads d t) (hs : Starts t) (fuel : Nat) (hfuel : 2 * t.length ≤ fuel) (hrest : Apart rest) :
    ∃ after, value fuel (t ++ rest).trimLeft = .ok (d, after) ∧ after.trimLeft = rest.trimLeft := by
  have hpos := hs.length_pos
  obtain ⟨fuel, rfl⟩ : ∃ f, fuel = f + 1 := ⟨fuel - 1, by omega⟩
  rw [value_trimLeft]
  exact h _ rest hfuel hrest

theorem Starts.head_ne (h : Starts t) (hclose : close = ']' ∨ close = ')' ∨ close = '\x7d') (rest : Text) :
    (t ++ rest).trimLeft.head? ≠ some close := by
  obtain ⟨u, more, htrim, hbracket, hparenthesis, hbrace⟩ := h rest
  rw [htrim]
  rintro ⟨⟩
  rcases hclose with h | h | h
  · exact hbracket h
  · exact hparenthesis h
  · exact hbrace h

/-! ## Items and entries -/

section items

variable (hd : Reads d t) (hs : Starts t)

theorem readsItems_nil {blanks : Text} (h : Blanks blanks) : ReadsItems [] blanks := by
  intro close hclose fuel done rest hfuel
  obtain ⟨fuel, rfl⟩ : ∃ f, fuel = f + 1 := ⟨fuel - 1, by omega⟩
  have hblank : close.isBlank = false := by rcases hclose with rfl | rfl <;> decide
  rw [sequence_close ((trimLeft_append h _).trans (trimLeft_cons hblank rest)), List.append_nil]

include hd hs

theorem readsItems_last : ReadsItems [d] t := by
  intro close hclose fuel done rest hfuel
  obtain ⟨fuel, rfl⟩ : ∃ f, fuel = f + 1 := ⟨fuel - 1, by omega⟩
  have hmark : close.isBlank = false ∧ isNumberUnit close = false ∧ close ≠ ',' := by
    rcases hclose with rfl | rfl <;> decide
  obtain ⟨after, hvalue, hafter⟩ := hd.trimmed hs fuel (by omega) (apart_cons hmark.2.1 rest)
  rw [sequence_item (hs.head_ne (by tauto) _) hvalue, hafter, trimLeft_cons hmark.1]
  dsimp only
  rw [if_neg hmark.2.2, if_pos rfl, List.reverse_cons]

theorem readsItems_cons {more : Text} (h : ReadsItems items more) :
    ReadsItems (d :: items) (t ++ (',' : CodeUnit) :: more) := by
  intro close hclose fuel done rest hfuel
  rw [List.length_append, List.length_cons] at hfuel
  obtain ⟨fuel, rfl⟩ : ∃ f, fuel = f + 1 := ⟨fuel - 1, by omega⟩
  rw [List.append_assoc, List.cons_append]
  obtain ⟨after, hvalue, hafter⟩ := hd.trimmed hs fuel (by omega)
    (apart_cons (u := ',') (by decide) (more ++ close :: rest))
  rw [sequence_item (hs.head_ne (by tauto) _) hvalue, hafter, trimLeft_cons (by decide)]
  dsimp only
  rw [if_pos rfl, h close hclose fuel (d :: done) rest (by omega), List.reverse_cons, List.append_assoc]
  rfl

end items

section entries

variable {k : Text} (hkey : Reads (.text key) k) (hk : Starts k) (hd : Reads d t)

theorem readsEntries_nil {blanks : Text} (h : Blanks blanks) : ReadsEntries [] blanks := by
  intro fuel done rest hfuel
  obtain ⟨fuel, rfl⟩ : ∃ f, fuel = f + 1 := ⟨fuel - 1, by omega⟩
  rw [mapping_close ((trimLeft_append h _).trans (trimLeft_cons (by decide) rest)), List.append_nil]

include hkey hk hd

/-- The key and the value of an entry are read before what follows them. -/
theorem mapping_reads {done : List (Text × Datum)} {u : CodeUnit} (hu : isNumberUnit u = false) (hblank : u.isBlank = false)
    (hfuel : 2 * k.length ≤ fuel ∧ 2 * t.length ≤ fuel) (rest : Text) :
    mapping (fuel + 1) done (k ++ (':' : CodeUnit) :: (t ++ u :: rest)) =
      if u = ',' then mapping fuel ((key, d) :: done) rest
      else if u = '\x7d' then .ok (((key, d) :: done).reverse, rest)
      else stop (.expectedCommaOr '\x7d') (u :: rest) := by
  obtain ⟨afterKey, hvalue, hcolon⟩ := hkey.trimmed hk fuel hfuel.1
    (apart_cons (u := ':') (by decide) (t ++ u :: rest))
  obtain ⟨after, hdatum, hafter⟩ := hd fuel (u :: rest) hfuel.2 (apart_cons hu rest)
  rw [trimLeft_cons (by decide)] at hcolon
  rw [mapping_entry (hk.head_ne (by tauto) _) hvalue hcolon hdatum, hafter, trimLeft_cons hblank]

theorem readsEntries_last : ReadsEntries [(key, d)] (k ++ (':' : CodeUnit) :: t) := by
  intro fuel done rest hfuel
  rw [List.length_append, List.length_cons] at hfuel
  obtain ⟨fuel, rfl⟩ : ∃ f, fuel = f + 1 := ⟨fuel - 1, by omega⟩
  rw [List.append_assoc, List.cons_append, mapping_reads hkey hk hd (by decide) (by decide) (by omega), if_neg (by decide),
    if_pos rfl, List.reverse_cons]

theorem readsEntries_cons {more : Text} (h : ReadsEntries entries more) :
    ReadsEntries ((key, d) :: entries) (k ++ (':' : CodeUnit) :: (t ++ (',' : CodeUnit) :: more)) := by
  intro fuel done rest hfuel
  rw [List.length_append, List.length_cons, List.length_append, List.length_cons] at hfuel
  obtain ⟨fuel, rfl⟩ : ∃ f, fuel = f + 1 := ⟨fuel - 1, by omega⟩
  rw [List.append_assoc, List.cons_append, List.append_assoc, List.cons_append,
    mapping_reads hkey hk hd (by decide) (by decide) (by omega), if_pos rfl, h fuel _ rest (by omega), List.reverse_cons,
    List.append_assoc]
  rfl

end entries

/-! ## Literals -/

/-- A literal that needs no fuel but for its own start. -/
theorem reads_of_value (hpos : 0 < t.length)
    (h : ∀ fuel rest, Apart rest → value (fuel + 1) (t ++ rest) = .ok (d, rest)) : Reads d t := by
  intro fuel rest hfuel hrest
  obtain ⟨fuel, rfl⟩ : ∃ f, fuel = f + 1 := ⟨fuel - 1, by omega⟩
  exact ⟨rest, h fuel rest hrest, rfl⟩

theorem takeWhile_name {word : Text} (hword : ∀ u ∈ word, u.isNamePart = true)
    (hrest : ∀ u ∈ rest.head?, u.isNamePart = false) : (word ++ rest).takeWhile CodeUnit.isNamePart = word := by
  rw [List.takeWhile_append_of_pos hword]
  cases rest with
  | nil => exact List.append_nil word
  | cons u rest =>
    have hu := hrest u rfl
    rw [List.takeWhile_cons, if_neg (by rw [hu]; exact Bool.false_ne_true), List.append_nil]

theorem Apart.isNamePart (h : Apart rest) : ∀ u ∈ rest.head?, u.isNamePart = false :=
  fun u hu => (Bool.or_eq_false_iff.mp (h u hu)).1

theorem takeWhile_word {word : Text} (hword : ∀ u ∈ word, u.isNamePart = true) (hrest : Apart rest) :
    (word ++ rest).takeWhile CodeUnit.isNamePart = word :=
  takeWhile_name hword hrest.isNamePart

theorem isBlank_of_isNumberUnit {u : CodeUnit} (hu : isNumberUnit u = true) : u.isBlank = false := by
  refine Bool.eq_false_iff.mpr fun hblank => ?_
  rw [isNumberUnit_of_isBlank hblank] at hu
  cases hu

theorem trimLeft_ofNat (n : Nat) (rest : Text) : (Text.ofNat n ++ rest).trimLeft = Text.ofNat n ++ rest := by
  have hdigits := Text.isDigit_of_mem_ofNat n
  have hne := Text.ofNat_ne_nil n
  generalize Text.ofNat n = digits at hdigits hne ⊢
  cases digits with
  | nil => exact absurd rfl hne
  | cons u digits => exact trimLeft_cons (isBlank_of_isNumberUnit (isNumberUnit_of_isDigit (hdigits u List.mem_cons_self))) _

/-- A unit of numbers and words opens nothing. -/
theorem value_of_isNumberUnit {u : CodeUnit} (hu : isNumberUnit u = true) (fuel : Nat) (t : Text) :
    value (fuel + 1) (u :: t) =
      if u.isDigit || u = '.' then do
        let (x, rest) ← number (u :: t)
        return (.number x, rest)
      else if u.isNameStart then
        match keyword? ((u :: t).takeWhile CodeUnit.isNamePart) with
        | some d => return (d, (u :: t).drop ((u :: t).takeWhile CodeUnit.isNamePart).length)
        | none => stop (.notKeyword ((u :: t).takeWhile CodeUnit.isNamePart))
          ((u :: t).drop ((u :: t).takeWhile CodeUnit.isNamePart).length)
      else stop (.unexpected u) (u :: t) := by
  have hne : ∀ mark : CodeUnit, isNumberUnit mark = false → decide (u = mark) = false := by
    refine fun mark hmark => decide_eq_false ?_
    rintro rfl
    rw [hu] at hmark
    cases hmark
  have hother : ∀ mark : CodeUnit, isNumberUnit mark = false → u ≠ mark :=
    fun mark hmark => of_decide_eq_false (hne mark hmark)
  rw [value, trimLeft_cons (isBlank_of_isNumberUnit hu)]
  dsimp only
  rw [if_neg (hother '[' (by decide)), if_neg (hother '(' (by decide)), if_neg (hother '\x7b' (by decide)),
    hne '\'' (by decide), hne '"' (by decide), if_neg (by decide), hne '-' (by decide), hne '+' (by decide)]
  exact if_neg (by decide)

/-- A keyword is a literal if nothing prolongs it. -/
theorem reads_keyword {u : CodeUnit} {word : Text} (hu : u.isNameStart = true) (hdigit : u.isDigit = false)
    (hword : (u :: word).all CodeUnit.isNamePart = true) (hkeyword : keyword? (u :: word) = some d) :
    Reads d (u :: word) := by
  refine reads_of_value (Nat.zero_lt_succ _) fun fuel rest hrest => ?_
  replace hword := List.all_eq_true.mp hword
  have hunit : isNumberUnit u = true := by simp [isNumberUnit, hword u List.mem_cons_self]
  have hpoint : u ≠ '.' := by
    rintro rfl
    cases hu
  rw [List.cons_append, value_of_isNumberUnit hunit, hdigit, decide_eq_false hpoint, if_neg (by decide), if_pos hu,
    ← List.cons_append, takeWhile_word hword hrest, hkeyword, List.drop_left' rfl]
  rfl

theorem reads_integer {n : Nat} (h : n < 2 ^ 53) : Reads (.number (.ofNat n)) (Text.ofNat n) := by
  refine reads_of_value (List.length_pos_iff.mpr (Text.ofNat_ne_nil n)) fun fuel rest hrest => ?_
  have hnumber := number_ofNat h hrest
  have hdigits := Text.isDigit_of_mem_ofNat n
  have hne := Text.ofNat_ne_nil n
  generalize Text.ofNat n = digits at hnumber hdigits hne ⊢
  cases digits with
  | nil => exact absurd rfl hne
  | cons u digits =>
    have hu := hdigits u List.mem_cons_self
    rw [List.cons_append, value_of_isNumberUnit (isNumberUnit_of_isDigit hu), hu, Bool.true_or, if_pos rfl,
      ← List.cons_append, hnumber]
    rfl

theorem value_signed (negative : Bool) {x : Number} (h : number t.trimLeft = .ok (x, rest)) :
    value (fuel + 1) ((if negative then '-' else '+' : CodeUnit) :: t) =
      .ok (.number (if negative then -x else x), rest) := by
  have hsign : ∀ sign : CodeUnit, sign = '-' ∨ sign = '+' → value (fuel + 1) (sign :: t) = (do
      let (x, rest) ← number t.trimLeft
      return (.number (if sign = '-' then -x else x), rest)) := by
    rintro sign (rfl | rfl) <;> rfl
  cases negative with
  | true =>
    rw [if_pos rfl, hsign _ (.inl rfl), h]
    rfl
  | false =>
    rw [if_neg Bool.false_ne_true, hsign _ (.inr rfl), h]
    rfl

theorem reads_signed (negative : Bool) {n : Nat} (h : n < 2 ^ 53) {blanks : Text} (hblanks : Blanks blanks) :
    Reads (.number (if negative then -.ofNat n else .ofNat n))
      ((if negative then '-' else '+' : CodeUnit) :: (blanks ++ Text.ofNat n)) := by
  refine reads_of_value (Nat.zero_lt_succ _) fun fuel rest hrest => value_signed negative ?_
  rw [List.append_eq, List.append_assoc, trimLeft_append hblanks, trimLeft_ofNat, number_ofNat h hrest]

theorem reads_text {quote : CodeUnit} (hquote : quote = '\'' ∨ quote = '"') (t : Text) :
    Reads (.text t) (quote :: (t.flatMap (spellUnit quote) ++ [quote])) := by
  refine reads_of_value (Nat.zero_lt_succ _) fun fuel rest _ => ?_
  have hquoted := quotedText_spelled hquote rest t []
  have hvalue : ∀ more, value (fuel + 1) (quote :: more) =
      quotedText quote 0 [] more >>= fun p => .ok (.text p.1, p.2) := by
    rcases hquote with rfl | rfl <;> exact fun _ => rfl
  rw [List.cons_append, List.append_assoc, hvalue]
  change quotedText quote 0 [] (t.flatMap (spellUnit quote) ++ quote :: rest) >>= _ = _
  rw [hquoted]
  rfl

theorem reads_list (h : ReadsItems items t) : Reads (.list items) (('[' : CodeUnit) :: (t ++ [(']' : CodeUnit)])) := by
  intro fuel rest hfuel _
  rw [List.length_cons, List.length_append, List.length_singleton] at hfuel
  obtain ⟨fuel, rfl⟩ : ∃ f, fuel = f + 1 := ⟨fuel - 1, by omega⟩
  refine ⟨rest, ?_, rfl⟩
  rw [List.cons_append, List.append_assoc]
  change sequence ']' fuel [] (t ++ (']' : CodeUnit) :: rest) >>= (fun p => .ok (Datum.list p.1, p.2)) = _
  rw [h ']' (.inl rfl) fuel [] rest (by omega)]
  rfl

theorem reads_mapping (h : ReadsEntries entries t) (hkeys : (entries.map (·.1)).Nodup) {ordered : List (Text × Datum)}
    (hordered : InPropertyOrder entries ordered) :
    Reads (.mapping ordered) (('\x7b' : CodeUnit) :: (t ++ [('\x7d' : CodeUnit)])) := by
  intro fuel rest hfuel _
  rw [List.length_cons, List.length_append, List.length_singleton] at hfuel
  obtain ⟨fuel, rfl⟩ : ∃ f, fuel = f + 1 := ⟨fuel - 1, by omega⟩
  refine ⟨rest, ?_, rfl⟩
  rw [List.cons_append, List.append_assoc]
  change mapping fuel [] (t ++ ('\x7d' : CodeUnit) :: rest) >>= (fun p => .ok (Datum.mappingOf p.1, p.2)) = _
  rw [h fuel [] rest (by omega), ← Datum.mappingOf_eq hkeys hordered]
  rfl

theorem value_parenthesis (fuel : Nat) (t : Text) : value (fuel + 1) (('(' : CodeUnit) :: t) = parenthesized fuel t := rfl

theorem reads_empty {blanks : Text} (h : Blanks blanks) :
    Reads (.list []) (('(' : CodeUnit) :: (blanks ++ [(')' : CodeUnit)])) := by
  intro fuel rest hfuel _
  rw [List.length_cons, List.length_append, List.length_singleton] at hfuel
  obtain ⟨fuel, rfl⟩ : ∃ f, fuel = f + 2 := ⟨fuel - 2, by omega⟩
  refine ⟨rest, ?_, rfl⟩
  rw [List.cons_append, List.append_assoc, List.singleton_append, value_parenthesis,
    parenthesized_close ((trimLeft_append h _).trans (trimLeft_cons (by decide) rest))]

theorem reads_tuple (hd : Reads d t) (hs : Starts t) {more : Text} (h : ReadsItems items more) :
    Reads (.list (d :: items)) (('(' : CodeUnit) :: (t ++ (',' : CodeUnit) :: (more ++ [(')' : CodeUnit)]))) := by
  intro fuel rest hfuel _
  simp only [List.length_cons, List.length_append] at hfuel
  obtain ⟨fuel, rfl⟩ : ∃ f, fuel = f + 2 := ⟨fuel - 2, by omega⟩
  refine ⟨rest, ?_, rfl⟩
  obtain ⟨after, hvalue, hafter⟩ := hd.trimmed hs fuel (by omega)
    (apart_cons (u := ',') (by decide) (more ++ (')' : CodeUnit) :: rest))
  rw [trimLeft_cons (by decide)] at hafter
  rw [List.cons_append, List.append_assoc, List.cons_append, List.append_assoc, value_parenthesis]
  change parenthesized (fuel + 1) (t ++ (',' : CodeUnit) :: (more ++ (')' : CodeUnit) :: rest)) = _
  rw [parenthesized_first (hs.head_ne (by tauto) _) hvalue, hafter, if_neg (by simp [CodeUnit.ofChar])]
  change sequence ')' fuel [d] (more ++ (')' : CodeUnit) :: rest) >>= (fun p => .ok (Datum.list p.1, p.2)) = _
  rw [h ')' (.inr rfl) fuel [d] rest (by omega)]
  rfl

theorem reads_enclosed (hd : Reads d t) (hs : Starts t) : Reads d (('(' : CodeUnit) :: (t ++ [(')' : CodeUnit)])) := by
  intro fuel rest hfuel _
  simp only [List.length_cons, List.length_append] at hfuel
  obtain ⟨fuel, rfl⟩ : ∃ f, fuel = f + 2 := ⟨fuel - 2, by omega⟩
  refine ⟨rest, ?_, rfl⟩
  obtain ⟨after, hvalue, hafter⟩ := hd.trimmed hs fuel (by omega) (apart_cons (u := ')') (by decide) rest)
  rw [trimLeft_cons (by decide)] at hafter
  rw [List.cons_append, List.append_assoc, value_parenthesis]
  change parenthesized (fuel + 1) (t ++ (')' : CodeUnit) :: rest) = _
  rw [parenthesized_first (hs.head_ne (by tauto) _) hvalue, hafter]
  exact if_pos rfl

/-- Blanks around a literal are passed over. -/
theorem reads_padded {before after : Text} (hbefore : Blanks before) (hafter : Blanks after) (hs : Starts t)
    (h : Reads d t) : Reads d (before ++ (t ++ after)) := by
  intro fuel rest hfuel hrest
  rw [List.length_append, List.length_append] at hfuel
  have hpos := hs.length_pos
  obtain ⟨left, hvalue, hleft⟩ := h fuel (after ++ rest) (by omega) (apart_append hafter hrest)
  rw [trimLeft_append hafter] at hleft
  refine ⟨left, ?_, hleft⟩
  obtain ⟨fuel, rfl⟩ : ∃ f, fuel = f + 1 := ⟨fuel - 1, by omega⟩
  rw [List.append_assoc, List.append_assoc, ← value_trimLeft, trimLeft_append hbefore, value_trimLeft, hvalue]

mutual

/-- A spelling is read as its datum: by induction on how the text was put together. -/
theorem reads_spelling {d : Datum} {t : Text} : Spelling d t → Reads d t
  | .none => reads_keyword rfl rfl rfl rfl
  | .capital true => reads_keyword rfl rfl rfl rfl
  | .capital false => reads_keyword rfl rfl rfl rfl
  | .lower true => reads_keyword rfl rfl rfl rfl
  | .lower false => reads_keyword rfl rfl rfl rfl
  | .integer h => reads_integer h
  | .signed negative h hblanks => reads_signed negative h hblanks
  | .text hquote t => reads_text hquote t
  | .list h => reads_list (reads_items h)
  | .empty hblanks => reads_empty hblanks
  | .tuple hfirst h => reads_tuple (reads_of_padded hfirst) (starts_padded hfirst) (reads_items h)
  | .enclosed h => reads_enclosed (reads_of_padded h) (starts_padded h)
  | .mapping h hkeys hordered => reads_mapping (reads_entries h) hkeys hordered

theorem reads_of_padded {d : Datum} {t : Text} : Padded d t → Reads d t
  | .intro hbefore h hafter => reads_padded hbefore hafter (starts_spelling h) (reads_spelling h)

theorem reads_items {items : List Datum} {t : Text} : Items items t → ReadsItems items t
  | .nil hblanks => readsItems_nil hblanks
  | .last h => readsItems_last (reads_of_padded h) (starts_padded h)
  | .cons hd h => readsItems_cons (reads_of_padded hd) (starts_padded hd) (reads_items h)

theorem reads_entries {entries : List (Text × Datum)} {t : Text} : Entries entries t → ReadsEntries entries t
  | .nil hblanks => readsEntries_nil hblanks
  | .last hkey hd => readsEntries_last (reads_of_padded hkey) (starts_padded hkey) (reads_of_padded hd)
  | .cons hkey hd h =>
    readsEntries_cons (reads_of_padded hkey) (starts_padded hkey) (reads_of_padded hd) (reads_entries h)

end

/-- Every spelling of a datum, with blanks around it, is the literal for it. -/
theorem parse_spelling (h : Padded d t) : parse t = .ok d := by
  obtain ⟨after, hvalue, hafter⟩ := reads_of_padded h (2 * t.length + 2) [] (by omega) nofun
  rw [List.append_nil] at hvalue
  unfold parse
  dsimp only
  rw [hvalue]
  dsimp only
  rw [hafter]
  rfl

/-- A mapping whose second key is an array index, with a tuple and an integer with blanks after its sign. -/
theorem parse_spelling_of_mapping : parse "\x7b'b': (1,), \"2\" : - 3\x7d " =
    .ok (.mapping [("2", .number (-.ofNat 3)), ("b", .list [.number (.ofNat 1)])]) := by
  have hblank : Blanks [' '] := List.forall_mem_singleton.mpr rfl
  have hnone : Blanks [] := nofun
  have hone : Spelling (.list [.number (.ofNat 1)]) _ := .tuple (.intro hnone (.integer (by decide)) hnone) (.nil hnone)
  have hthree : Spelling (.number (-.ofNat 3)) _ := .signed true (by decide) hblank
  have hentries : Entries [("b", .list [.number (.ofNat 1)]), ("2", .number (-.ofNat 3))] _ :=
    .cons (.intro hnone (.text (.inl rfl) "b") hnone) (.intro hblank hone hnone)
      (.last (.intro hblank (.text (.inr rfl) "2") hblank) (.intro hblank hthree hnone))
  have hindex : arrayIndex? "b" = none ∧ arrayIndex? "2" = some 2 := by decide +kernel
  have hordered : ∀ x y : Datum, InPropertyOrder [(("b" : Text), x), ("2", y)] [("2", y), ("b", x)] := by
    intro x y
    refine ⟨[("2", y)], ?_, List.pairwise_singleton _ _, ?_⟩ <;> simp [hindex]
  have hkeys : [("b" : Text), "2"].Nodup := by decide
  have hparse := parse_spelling (.intro hnone (.mapping hentries hkeys (hordered _ _)) hblank)
  exact (congrArg parse (by decide +kernel)).trans hparse

end Stencil.Literal
