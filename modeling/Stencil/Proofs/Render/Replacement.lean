import Mathlib.Data.List.Infix
import Stencil.Proofs.Render.Methods
import Stencil.Render.Filter

/-!
Replacement of a part of a text, as a filter and as a method. Both cut the text where the part occurs, from the left and
never inside of an occurrence; the pieces stand again in the result, with something else between them.
-/
namespace Stencil

namespace Text

variable {mark piece t u : Text} {more : List Text} {c : CodeUnit}

/-- A text from left to right: a piece before the first occurrence of a mark, and one more behind each occurrence up to
the next. An occurrence is looked for behind the end of the one before. -/
inductive Pieces (mark : Text) : Text → Text → List Text → Prop where
  | last {t : Text} (h : ¬ mark <:+: t) : Pieces mark t t []
  | next {piece next t : Text} {more : List Text} (hfirst : ∀ n < piece.length, ¬ mark <+: (piece ++ mark ++ t).drop n)
      (h : Pieces mark t next more) : Pieces mark (piece ++ mark ++ t) piece (next :: more)

/-- Nothing stands before a mark that begins a text. -/
theorem Pieces.first (h : Pieces mark t piece more) : Pieces mark (mark ++ t) [] (piece :: more) := by
  have hnext : Pieces mark ([] ++ mark ++ t) [] (piece :: more) := .next (fun _ hn => absurd hn (Nat.not_lt_zero _)) h
  exact hnext

/-- The pieces with texts between them. -/
def filled (piece : Text) (more between : List Text) : Text :=
  piece ++ (List.zipWith (· ++ ·) between more).flatten

theorem filled_cons (piece next b : Text) (more between : List Text) :
    filled piece (next :: more) (b :: between) = piece ++ b ++ filled next more between := by
  simp [filled]

/-- The mark itself stands between the pieces of a text. -/
theorem Pieces.filled_eq (h : Pieces mark t piece more) : filled piece more (List.replicate more.length mark) = t := by
  induction h with
  | last _ => simp [filled]
  | next _ _ ih => rw [List.length_cons, List.replicate_succ, filled_cons, ih]

theorem Pieces.length_le (h : Pieces mark t piece more) (hmark : mark ≠ []) : more.length ≤ t.length := by
  induction h with
  | last _ => exact Nat.zero_le _
  | next _ _ ih =>
    have hpos := List.length_pos_iff.mpr hmark
    simp only [List.length_cons, List.length_append]
    omega

/-- A first occurrence stands at one place only. -/
theorem length_le_of_first {piece' t' : Text} (heq : piece ++ mark ++ t = piece' ++ mark ++ t')
    (hfirst : ∀ n < piece.length, ¬ mark <+: (piece ++ mark ++ t).drop n) : piece.length ≤ piece'.length := by
  by_contra hlt
  refine hfirst piece'.length (Nat.not_le.mp hlt) ?_
  rw [heq, List.append_assoc, List.drop_left]
  exact List.prefix_append mark t'

/-- A text can be in pieces in one way only. -/
theorem Pieces.unique (h : Pieces mark t piece more) {piece' : Text} {more' : List Text}
    (h' : Pieces mark t piece' more') : piece = piece' ∧ more = more' := by
  induction h generalizing piece' more' with
  | last hnot =>
    cases h' with
    | last _ => exact ⟨rfl, rfl⟩
    | next _ _ => exact absurd ⟨_, _, rfl⟩ hnot
  | @next piece next t more hfirst _ ih =>
    generalize hwhole : piece ++ mark ++ t = whole at h'
    cases h' with
    | last hnot => exact absurd ⟨_, _, hwhole⟩ hnot
    | @next _ next' t' more' hfirst' h' =>
      have hlength : piece.length = piece'.length :=
        Nat.le_antisymm (length_le_of_first hwhole hfirst) (length_le_of_first hwhole.symm hfirst')
      rw [List.append_assoc, List.append_assoc] at hwhole
      obtain ⟨rfl, hrest⟩ := List.append_inj hwhole hlength
      obtain rfl := List.append_cancel_left hrest
      obtain ⟨rfl, rfl⟩ := ih h'
      exact ⟨rfl, rfl⟩

/-- A unit where no mark begins belongs to the first piece. -/
theorem Pieces.cons (h : Pieces mark t piece more) (hc : ¬ mark <+: c :: t) : Pieces mark (c :: t) (c :: piece) more := by
  cases h with
  | last h => exact .last fun hinfix => (List.infix_cons_iff.mp hinfix).elim hc h
  | @next _ next t more hfirst h =>
    have hfirst' (n : Nat) (hn : n < (c :: piece).length) : ¬ mark <+: (c :: piece ++ mark ++ t).drop n := by
      cases n with
      | zero => exact hc
      | succ n => exact hfirst n (Nat.lt_of_succ_lt_succ hn)
    exact .next hfirst' h

/-- Splitting finds the pieces, behind the units of an occurrence that are still to be skipped. -/
theorem splitFrom_eq (hmark : mark ≠ []) (skip : Nat) (done t : Text) :
    ∃ piece more, Pieces mark (t.drop skip) piece more ∧ splitFrom mark skip done t = (done.reverse ++ piece) :: more := by
  fun_induction splitFrom mark skip done t with
  | case1 skip done =>
    refine ⟨[], [], ?_, by rw [List.append_nil]⟩
    rw [List.drop_nil]
    exact .last fun h => hmark (List.infix_nil.mp h)
  | case2 skip done u rest ih => exact ih
  | case3 done u rest hoccurs ih =>
    obtain ⟨piece, more, hpieces, hsplit⟩ := ih
    obtain ⟨behind, hbehind⟩ := List.isPrefixOf_iff_prefix.mp hoccurs
    have hrest : rest.drop (mark.length - 1) = behind := by
      obtain ⟨m, mark, rfl⟩ := List.exists_cons_of_ne_nil hmark
      obtain ⟨-, rfl⟩ := List.cons.inj hbehind
      simp
    rw [hrest] at hpieces
    refine ⟨[], piece :: more, ?_, ?_⟩
    · rw [List.drop_zero, ← hbehind]
      exact hpieces.first
    · rw [hsplit, List.append_nil, List.reverse_nil, List.nil_append]
  | case4 done u rest hnot ih =>
    obtain ⟨piece, more, hpieces, hsplit⟩ := ih
    refine ⟨u :: piece, more, ?_, ?_⟩
    · rw [List.drop_zero] at hpieces ⊢
      exact hpieces.cons (mt List.isPrefixOf_iff_prefix.mpr hnot)
    · rw [hsplit, List.reverse_cons, List.append_assoc]
      rfl

theorem splitOn_eq (hmark : mark ≠ []) (t : Text) :
    ∃ piece more, Pieces mark t piece more ∧ splitOn mark t = piece :: more := by
  have hempty : mark.isEmpty = false := List.isEmpty_eq_false_iff.mpr hmark
  unfold splitOn
  rw [hempty]
  exact splitFrom_eq hmark 0 [] t

theorem join_cons (mark piece : Text) (more : List Text) :
    join mark (piece :: more) = filled piece more (List.replicate more.length mark) := by
  induction more generalizing piece with
  | nil => simp [join, filled]
  | cons next more ih =>
    have hjoin : join mark (piece :: next :: more) = piece ++ mark ++ join mark (next :: more) := by
      simp [join, List.intercalate_cons_cons]
    rw [hjoin, ih, List.length_cons, List.replicate_succ, filled_cons]

/-- Two marks in turn: the pieces are joined up to some place with one, and from there on with the other. -/
theorem join_take_drop (r mark piece : Text) {n : Nat} (hn : n < more.length) :
    join r ((piece :: more).take (n + 1)) ++ mark ++ join mark ((piece :: more).drop (n + 1)) =
      filled piece more (List.replicate n r ++ List.replicate (more.length - n) mark) := by
  induction more generalizing piece n with
  | nil => exact absurd hn (Nat.not_lt_zero n)
  | cons next more ih =>
    cases n with
    | zero =>
      rw [Nat.zero_add, List.take_succ_cons, List.take_zero, List.drop_succ_cons, List.drop_zero, join_cons, join_cons,
        List.replicate_zero, List.nil_append, Nat.sub_zero, List.length_cons, List.replicate_succ, filled_cons]
      simp [filled]
    | succ n =>
      have hstep := ih next (Nat.lt_of_succ_lt_succ hn)
      rw [List.take_succ_cons, List.drop_succ_cons] at hstep ⊢
      rw [List.take_succ_cons, List.replicate_succ, List.cons_append, List.length_cons, Nat.add_sub_add_right, filled_cons,
        ← hstep]
      simp [join, List.intercalate_cons_cons]

end Text

namespace Eval

open Text (Pieces filled)

variable {features : Features} {depth : Nat} {s : Store} {v : Value} {t search replacement piece : Text}
  {more : List Text} {count : Option Nat} {a : Arguments}

/-- What is given as a limit: a whole number, or nothing. -/
inductive Limits : Value → Option Nat → Prop where
  | number {x : Number} {n : Nat} (hx : x.toInt? = some (n : Int)) : Limits (.number x) (some n)
  | absent : Limits .absent none

/-- The arguments ask for the replacement of one text by another, as often as the limit says. -/
structure Asks (a : Arguments) (search replacement : Text) (limit : Option Nat) : Prop where
  old : (a.get 0 "old").text? = some search
  new : (a.get 1 "new").text? = some replacement
  count : Limits (a.get 2 "count") limit

/-- The pieces of a text with the replacement between them as often as the limit says, and then what was there. -/
def replaced (search replacement piece : Text) (more : List Text) (limit : Option Nat) : Text :=
  let times := (limit.map (min · more.length)).getD more.length
  filled piece more (List.replicate times replacement ++ List.replicate (more.length - times) search)

theorem replaced_all (search replacement piece : Text) (more : List Text) :
    replaced search replacement piece more none = filled piece more (List.replicate more.length replacement) := by
  simp [replaced]

theorem replaced_of_le {n : Nat} (hn : more.length ≤ n) :
    replaced search replacement piece more (some n) = filled piece more (List.replicate more.length replacement) := by
  simp [replaced, Nat.min_eq_right hn]

/-- A text that replaces itself changes nothing. -/
theorem replaced_self (h : Pieces search t piece more) (limit : Option Nat) :
    replaced search search piece more limit = t := by
  have htimes : (limit.map (min · more.length)).getD more.length ≤ more.length := by
    cases limit with
    | none => exact Nat.le_refl _
    | some n => exact Nat.min_le_right _ _
  unfold replaced
  dsimp only
  rw [List.replicate_append_replicate, Nat.add_sub_cancel' htimes, h.filled_eq]

theorem display_text (h : v.text? = some t) : display v s = .ok t s := by
  have hdisplay : s.display? v = some t := by
    cases v with
    | text u | safe u => exact h
    | _ => cases h
  exact readDeep_eq hdisplay

theorem textArgument_eq {i : Nat} (h : (a.nth i).text? = some t) : textArgument a i s = .ok t s := by
  unfold textArgument
  rw [h]
  rfl

theorem replaceText_all (hsearch : search ≠ []) (hsplit : Text.splitOn search t = piece :: more) :
    replaceText t search replacement none = replaced search replacement piece more none := by
  have hempty : search.isEmpty = false := List.isEmpty_eq_false_iff.mpr hsearch
  unfold replaceText
  rw [hempty, hsplit, replaced_all]
  exact Text.join_cons replacement piece more

/-- The cut stands behind the last piece that the limit counts. -/
theorem replaceText_limited (hsearch : search ≠ []) (hsplit : Text.splitOn search t = piece :: more)
    (hlength : more.length < 2 ^ 53) {x : Number} {n : Nat} (hx : x.toInt? = some (n : Int)) :
    replaceText t search replacement (some x) = replaced search replacement piece more (some n) := by
  have hempty : search.isEmpty = false := List.isEmpty_eq_false_iff.mpr hsearch
  have hcount : (Number.ofNat more.length).le x = decide (more.length ≤ n) := by
    rw [Number.le_of_toInt? (Number.toInt?_ofNat hlength) hx]
    exact decide_eq_decide.mpr Int.ofNat_le
  have hlow : x.lt 0 = false := by
    rw [Number.lt_zero_of_toInt? hx]
    exact decide_eq_false (Int.not_lt.mpr (Int.natCast_nonneg n))
  unfold replaceText
  rw [hempty, hsplit]
  dsimp only
  rw [List.length_cons, Nat.add_sub_cancel, hlow, hcount]
  by_cases hn : more.length ≤ n
  · rw [decide_eq_true hn, replaced_of_le hn]
    exact Text.join_cons replacement piece more
  · have hone : (1 : Number).toInt? = some 1 := Number.toInt?_ofNat (n := 1) (by decide)
    have hnext : (x + 1).toInt? = some ((n : Int) + 1) := Number.toInt?_add hx hone (by omega)
    have hplace : (x + 1).position (more.length + 1) = n + 1 := by
      rw [Number.position_of_toInt? hnext (by omega)]
      omega
    have htimes : ((some n).map (min · more.length)).getD more.length = n := Nat.min_eq_left (by omega)
    unfold replaced
    dsimp only
    rw [decide_eq_false hn, hplace, htimes]
    exact Text.join_take_drop replacement search piece (Nat.not_le.mp hn)

theorem applyFilter_replace (hv : v.text? = some t) (ha : Asks a search replacement count) (hsearch : search ≠ [])
    (hsplit : Text.splitOn search t = piece :: more) (hlength : more.length < 2 ^ 53) :
    applyFilter .replace v a s = .ok (.text (replaced search replacement piece more count)) s := by
  obtain ⟨hold, hnew, hcount⟩ := ha
  unfold applyFilter
  dsimp only
  rw [bind_ok (display_text hv), bind_ok (display_text hold), bind_ok (display_text hnew)]
  generalize a.get 2 "count" = limit at hcount
  cases hcount with
  | number hx => exact congrArg (EStateM.Result.ok · s) (congrArg Value.text (replaceText_limited hsearch hsplit hlength hx))
  | absent => exact congrArg (EStateM.Result.ok · s) (congrArg Value.text (replaceText_all hsearch hsplit))

theorem callMember_replace (hv : v.text? = some t) {w w' : Value} (hw : w.text? = some search)
    (hw' : w'.text? = some replacement) (hsplit : Text.splitOn search t = piece :: more) :
    callMember features (depth + 1) v "replace" ⟨[w, w'], []⟩ s =
      .ok (.text (replaced search replacement piece more none)) { s with serial := s.serial + 1 } := by
  have hmember : member v "replace" s =
      .ok (.native s.serial (.text .replace t)) { s with serial := s.serial + 1 } := by
    cases v with
    | text u | safe u =>
      cases hv
      rfl
    | _ => cases hv
  refine (callMember_native _ hmember).trans ?_
  change callText .replace t ⟨[w, w'], []⟩ _ = _
  have hfirst (u : Store) : textArgument ⟨[w, w'], []⟩ 0 u = .ok search u := textArgument_eq hw
  have hsecond (u : Store) : textArgument ⟨[w, w'], []⟩ 1 u = .ok replacement u := textArgument_eq hw'
  unfold callText
  dsimp only
  rw [bind_ok (hfirst _), bind_ok (hsecond _), hsplit, replaced_all, Text.join_cons]
  rfl

/-- The filter replaces the first occurrences in a text, as many as the limit says, and leaves everything else as it is.
Without a limit it replaces all of them, as the method does. A text that replaces itself changes nothing. -/
theorem replace_counts (features : Features) (depth : Nat) (s : Store) (hv : v.text? = some t)
    (hlength : t.length < 2 ^ 53) (hsearch : search ≠ []) (replacement : Text) :
    ∃ piece more, Pieces search t piece more ∧ filled piece more (List.replicate more.length search) = t ∧
      (∀ a n, Asks a search replacement (some n) → applyFilter .replace v a s =
        .ok (.text (filled piece more (List.replicate (min n more.length) replacement ++
          List.replicate (more.length - min n more.length) search))) s) ∧
      (∀ a, Asks a search replacement none → applyFilter .replace v a s =
        .ok (.text (filled piece more (List.replicate more.length replacement))) s) ∧
      (∀ w w', w.text? = some search → w'.text? = some replacement →
        callMember features (depth + 1) v "replace" ⟨[w, w'], []⟩ s =
          .ok (.text (filled piece more (List.replicate more.length replacement))) { s with serial := s.serial + 1 }) ∧
      (replacement = search → ∀ a count, Asks a search replacement count → applyFilter .replace v a s = .ok (.text t) s) := by
  obtain ⟨piece, more, hpieces, hsplit⟩ := Text.splitOn_eq hsearch t
  have hcount : more.length < 2 ^ 53 := Nat.lt_of_le_of_lt (hpieces.length_le hsearch) hlength
  refine ⟨piece, more, hpieces, hpieces.filled_eq, fun a n ha => ?_, fun a ha => ?_, fun w w' hw hw' => ?_, ?_⟩
  · exact applyFilter_replace hv ha hsearch hsplit hcount
  · rw [applyFilter_replace hv ha hsearch hsplit hcount, replaced_all]
  · rw [callMember_replace hv hw hw' hsplit, replaced_all]
  · rintro rfl a count ha
    rw [applyFilter_replace hv ha hsearch hsplit hcount, replaced_self hpieces]

/-- Of the two occurrences in five letters, which do not overlap, the first one is replaced. -/
theorem replace_counts_of_five :
    let five : Text := "aaaaa"
    let once : Arguments := ⟨[.text "aa"], [("count", .number 1), ("new", .safe "b")]⟩
    five.length < 2 ^ 53 ∧ Asks once "aa" "b" (some 1) ∧ Pieces "aa" five [] [[], "a"] ∧
      applyFilter .replace (.safe five) once .empty = .ok (.text "baaa") .empty ∧
      callMember ⟨false, [], []⟩ 1 (.safe five) "replace" ⟨[.text "aa", .text "b"], []⟩ .empty =
        .ok (.text "bba") { Store.empty with serial := 1 } := by
  intro five once
  have hlength : five.length < 2 ^ 53 := by decide
  have hcount : (1 : Number).toInt? = some ((1 : Nat) : Int) := Number.toInt?_ofNat (n := 1) (by decide)
  have hasks : Asks once "aa" "b" (some 1) := ⟨by decide, by decide, .number hcount⟩
  have hlast : Pieces "aa" "a" "a" [] := .last (by decide)
  have hshown : Pieces "aa" five [] [[], "a"] := hlast.first.first
  have hsearch : ("aa" : Text) ≠ [] := by decide
  have hfive : (Value.safe five).text? = some five := rfl
  obtain ⟨piece, more, hpieces, -, hfilter, -, hmethod, -⟩ :=
    replace_counts ⟨false, [], []⟩ 0 .empty hfive hlength hsearch "b"
  obtain ⟨rfl, rfl⟩ := hpieces.unique hshown
  exact ⟨hlength, hasks, hshown, hfilter once 1 hasks, hmethod _ _ rfl rfl⟩

end Eval
end Stencil
