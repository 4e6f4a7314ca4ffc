import Stencil.Proofs.Correspondence.Policy

/-! Where branches declare nothing, every name that a template reads is reported or declared before. -/
namespace Stencil

/-- Sets a variable of the scope it stands in. -/
def Stmt.Declaring : Stmt → Prop
  | assign _ _ _ | capture _ _ _ | define _ _ _ _ _ => True
  | _ => False

/-- Nothing that stands in a branch, at any depth, sets a variable of its scope. -/
def Stmt.PlainBranches (body : List Stmt) : Prop :=
  ∀ line bs otherwise, Stmt.Inside (.branches line bs otherwise) body →
    ∀ x : Stmt, x.Inside (Stmt.branches line bs otherwise).parts → ¬ x.Declaring

namespace Stmt.PlainBranches

variable {body body' : List Stmt} {s : Stmt}

theorem mono (h : PlainBranches body) (hsub : ∀ s ∈ body', s ∈ body) : PlainBranches body' :=
  fun line bs otherwise hb => h line bs otherwise (hb.mono hsub)

theorem parts (h : PlainBranches body) (hs : s ∈ body) : PlainBranches s.parts :=
  fun line bs otherwise hb => h line bs otherwise (.part hs hb)

theorem head (h : PlainBranches (s :: body)) : PlainBranches [s] :=
  h.mono fun _ ht => List.mem_cons.mpr (.inl (List.mem_singleton.mp ht))

theorem tail (h : PlainBranches (s :: body)) : PlainBranches body :=
  h.mono fun _ => List.mem_cons_of_mem s

theorem declaring {line : Nat} {bs : List (Expr × List Stmt)} {otherwise : List Stmt}
    (h : PlainBranches [.branches line bs otherwise]) :
    ∀ x ∈ bs.flatMap (·.2) ++ otherwise, ¬ x.Declaring :=
  fun x hx => h line bs otherwise (.here (List.mem_singleton.mpr rfl)) x (.here hx)

end Stmt.PlainBranches

namespace Declarations

variable {d : Declarations} {n : Text}

theorem mem_addNew {found names : List Text} : n ∈ addNew found names ↔ n ∈ found ∨ n ∈ names := by
  unfold addNew
  induction names generalizing found with
  | nil => simp
  | cons m names ih =>
    rw [List.foldl_cons, ih]
    split
    · rename_i hm
      have hmem : m ∈ found := by simpa using hm
      constructor
      · exact fun h => h.imp_right (List.mem_cons_of_mem m)
      · rintro (h | h)
        · exact .inl h
        · rcases List.mem_cons.mp h with rfl | h
          · exact .inl hmem
          · exact .inr h
    · simp [or_assoc]

theorem mem_visit {e : Expr} : n ∈ (d.visit e).undeclared ↔
    n ∈ d.undeclared ∨ (∃ m ∈ e.reads, m.text = n) ∧ n ∉ d.declared := by
  unfold visit
  rw [mem_addNew, List.mem_filter, List.mem_map]
  simp

/-- What an expression reads is known, if it is declared or found. -/
theorem allowed_of_visit {p : Policy} (hgood : ∀ t, t ∈ p.good) {K : Set Text} {e : Expr}
    (hdeclared : ∀ n ∈ d.declared, n ∈ K) (hfound : ∀ n ∈ (d.visit e).undeclared, n ∈ K) : e.Allowed p K := by
  intro x hx
  refine ⟨?_, fun _ _ _ _ _ _ _ => hgood⟩
  rintro n rfl
  have hread : n ∈ e.reads := hx.reads (List.mem_singleton.mpr rfl)
  by_cases hd : n.text ∈ d.declared
  · exact hdeclared _ hd
  · exact hfound _ (mem_visit.mpr (.inr ⟨⟨n, hread, rfl⟩, hd⟩))

/-- The declarations after parameters with their defaults. -/
def afterParams (d : Declarations) (pairs : List (Name × Option Expr)) : Declarations :=
  pairs.foldl (fun d (param, default?) => ((default?.map d.visit).getD d).declare [param.text]) d

theorem declared_default (d : Declarations) (default? : Option Expr) :
    ((default?.map d.visit).getD d).declared = d.declared := by
  cases default? <;> rfl

theorem undeclared_default (d : Declarations) (default? : Option Expr) :
    d.undeclared ⊆ ((default?.map d.visit).getD d).undeclared := by
  cases default? with
  | none => exact List.Subset.refl _
  | some e => exact fun n hn => mem_visit.mpr (.inl hn)

theorem undeclared_afterParams (pairs : List (Name × Option Expr)) (d : Declarations) :
    d.undeclared ⊆ (d.afterParams pairs).undeclared := by
  induction pairs generalizing d with
  | nil => exact List.Subset.refl _
  | cons q pairs ih =>
    have hrest := ih (((q.2.map d.visit).getD d).declare [q.1.text])
    exact fun n hn => hrest (undeclared_default d q.2 hn)

theorem declared_afterParams (pairs : List (Name × Option Expr)) (d : Declarations) :
    ∀ n ∈ (d.afterParams pairs).declared, n ∈ d.declared ∨ n ∈ pairs.map (·.1.text) := by
  induction pairs generalizing d with
  | nil => exact fun n hn => .inl hn
  | cons q pairs ih =>
    intro n hn
    rcases ih _ n hn with hn | hn
    · rcases List.mem_cons.mp hn with rfl | hn
      · exact .inr List.mem_cons_self
      · rw [declared_default] at hn
        exact .inl hn
    · exact .inr (List.mem_cons_of_mem _ hn)

theorem paramsAllowed_of_afterParams {p : Policy} (hgood : ∀ t, t ∈ p.good) {K : Set Text}
    (pairs : List (Name × Option Expr)) (d : Declarations) (hdeclared : ∀ n ∈ d.declared, n ∈ K)
    (hfound : ∀ n ∈ (d.afterParams pairs).undeclared, n ∈ K) :
    paramsAllowed p K (pairs.map fun q => (q.1.text, q.2)) := by
  induction pairs generalizing d K with
  | nil => trivial
  | cons q pairs ih =>
    obtain ⟨param, default?⟩ := q
    refine ⟨fun e he => ?_, ih _ (fun n hn => ?_) fun n hn => .inl (hfound n hn)⟩
    · cases he
      refine allowed_of_visit hgood hdeclared fun n hn => hfound n ?_
      exact undeclared_afterParams pairs _ hn
    · rcases List.mem_cons.mp hn with rfl | hn
      · exact .inr (List.mem_singleton.mpr rfl)
      · rw [declared_default] at hn
        exact .inl (hdeclared n hn)

/-! ## Scopes of their own -/

/-- The declarations in front of the filter of a loop. -/
def inLoop (d : Declarations) (target : Target) (iter : Expr) : Declarations :=
  (d.visit iter).declare (target.names.map (·.text))

/-- The declarations in front of the body of a loop. -/
def inLap (d : Declarations) (target : Target) (iter : Expr) (filter : Option Expr) : Declarations :=
  ((filter.map (d.inLoop target iter).visit).getD (d.inLoop target iter)).declare [Text.ofString "loop"]

/-- The declarations after the body of a loop. -/
def afterLaps (d : Declarations) (target : Target) (iter : Expr) (filter : Option Expr) (body : List Stmt) :
    Declarations :=
  (d.visit iter).leave (Stmt.declarations.ofList (d.inLap target iter filter) body)

/-- The declarations in front of the body of a macro. -/
def inMacro (d : Declarations) (name : Text) (params : List Name) (defaults : List Expr) : Declarations :=
  ((d.declare [name]).afterParams (params.zip (alignDefaults params.length defaults))).declare
    [Text.ofString "varargs", Text.ofString "kwargs"]

section scopes

variable {target : Target} {iter : Expr} {filter : Option Expr} {name : Text} {params : List Name} {defaults : List Expr}

theorem mem_declared_inLap : n ∈ (d.inLap target iter filter).declared ↔
    n = Text.ofString "loop" ∨ n ∈ target.names.map (·.text) ∨ n ∈ d.declared := by
  have hfilter : n ∈ (d.inLap target iter filter).declared ↔
      n = Text.ofString "loop" ∨ n ∈ ((filter.map (d.inLoop target iter).visit).getD (d.inLoop target iter)).declared :=
    List.mem_cons
  rw [hfilter, declared_default]
  exact or_congr_right List.mem_append

theorem undeclared_inLap : (d.visit iter).undeclared ⊆ (d.inLap target iter filter).undeclared :=
  undeclared_default (d.inLoop target iter) filter

theorem mem_declared_inMacro (h : n ∈ (d.inMacro name params defaults).declared) :
    (n = Text.ofString "varargs" ∨ n = Text.ofString "kwargs") ∨ (n = name ∨ n ∈ d.declared) ∨
      n ∈ params.map (·.text) := by
  rcases List.mem_append.mp h with h | h
  · exact .inl (by simpa using h)
  · refine .inr ((declared_afterParams _ _ n h).imp List.mem_cons.mp fun h => ?_)
    obtain ⟨q, hq, rfl⟩ := List.mem_map.mp h
    exact List.mem_map_of_mem (List.of_mem_zip hq).1

theorem undeclared_inMacro : d.undeclared ⊆ (d.inMacro name params defaults).undeclared :=
  undeclared_afterParams _ (d.declare [name])

end scopes

end Declarations

namespace Stmt

open Declarations

/-- What was found stays found. -/
theorem undeclared_subset : (s : Stmt) → (d : Declarations) → d.undeclared ⊆ (s.declarations d).undeclared
  | text _ _, _ => List.Subset.refl _
  | output _ _, _ | perform _ _, _ | assign _ _ _, _ => fun _ hn => mem_visit.mpr (.inl hn)
  | branches _ bs otherwise, d => List.Subset.trans (ofBranches bs d) (ofList otherwise _)
  | loop _ target iter filter body otherwise, d => by
    intro n hn
    have hlap : n ∈ (d.inLap target iter filter).undeclared := undeclared_inLap (mem_visit.mpr (.inl hn))
    exact ofList otherwise (d.afterLaps target iter filter body) (ofList body _ hlap)
  | capture _ _ body, d => ofList body d
  | define _ name params defaults body, d =>
    List.Subset.trans undeclared_inMacro (ofList body (d.inMacro name params defaults))
where
  ofList : (body : List Stmt) → (d : Declarations) → d.undeclared ⊆ (declarations.ofList d body).undeclared
    | [], _ => List.Subset.refl _
    | s :: rest, d => List.Subset.trans (undeclared_subset s d) (ofList rest _)
  ofBranches : (bs : List (Expr × List Stmt)) → (d : Declarations) →
      d.undeclared ⊆ (declarations.ofBranches d bs).undeclared
    | [], _ => List.Subset.refl _
    | (test, body) :: rest, d => by
      have htest : d.undeclared ⊆ (d.visit test).undeclared := fun _ hn => mem_visit.mpr (.inl hn)
      exact List.Subset.trans htest (List.Subset.trans (ofList body _) (ofBranches rest _))

theorem declares_eq_nil {s : Stmt} (h : ¬ s.Declaring) : s.declares = [] := by
  cases s with
  | assign _ _ _ | capture _ _ _ | define _ _ _ _ _ => exact absurd trivial h
  | _ => rfl

/-- A statement whose branches are plain declares what it declares in any case. -/
theorem declared_subset : (s : Stmt) → PlainBranches [s] → (d : Declarations) →
    ∀ n ∈ (s.declarations d).declared, n ∈ d.declared ∨ n ∈ s.declares
  | text _ _, _, _ | output _ _, _, _ | perform _ _, _, _ | loop _ _ _ _ _ _, _, _ => fun _ hn => .inl hn
  | assign _ _ _, _, _ | capture _ _ _, _, _ | define _ _ _ _ _, _, _ => fun _ hn => (List.mem_append.mp hn).symm
  | branches _ bs otherwise, h, d => by
    have hparts := h.parts (List.mem_singleton.mpr rfl)
    intro n hn
    refine .inl (ofBranches bs (fun b hb => hparts.mono fun s hs => ?_) (fun b hb s hs => h.declaring s ?_) d n
      (ofList otherwise (hparts.mono fun s hs => List.mem_append_right _ hs)
        (fun s hs => h.declaring s (List.mem_append_right _ hs)) _ n hn))
    · exact List.mem_append_left _ (List.mem_flatMap.mpr ⟨b, hb, hs⟩)
    · exact List.mem_append_left _ (List.mem_flatMap.mpr ⟨b, hb, hs⟩)
where
  ofList : (body : List Stmt) → PlainBranches body → (∀ s ∈ body, ¬ s.Declaring) → (d : Declarations) →
      ∀ n ∈ (declarations.ofList d body).declared, n ∈ d.declared
    | [], _, _, _ => fun _ hn => hn
    | s :: rest, h, hnone, d => by
      intro n hn
      have hrest := ofList rest h.tail (fun t ht => hnone t (List.mem_cons_of_mem s ht)) _ n hn
      rcases declared_subset s h.head d n hrest with hn | hn
      · exact hn
      · rw [declares_eq_nil (hnone s List.mem_cons_self)] at hn
        exact nomatch hn
  ofBranches : (bs : List (Expr × List Stmt)) → (∀ b ∈ bs, PlainBranches b.2) → (∀ b ∈ bs, ∀ s ∈ b.2, ¬ s.Declaring) →
      (d : Declarations) → ∀ n ∈ (declarations.ofBranches d bs).declared, n ∈ d.declared
    | [], _, _, _ => fun _ hn => hn
    | (test, body) :: rest, h, hnone, d => by
      intro n hn
      have hrest := ofBranches rest (fun b hb => h b (List.mem_cons_of_mem _ hb))
        (fun b hb => hnone b (List.mem_cons_of_mem _ hb)) _ n hn
      exact ofList body (h _ List.mem_cons_self) (hnone _ List.mem_cons_self) (d.visit test) n hrest

variable {p : Policy}

theorem namesOf_union {K : Set Text} {d : Declarations} {names : List Text} (hK : ∀ n ∈ d.declared, n ∈ K) :
    ∀ n ∈ (d.declare names).declared, n ∈ K ∪ namesOf names :=
  fun n hn => (List.mem_append.mp hn).symm.imp (hK n) id

/-- Where branches are plain, what is read is known, if it is declared before or found. -/
theorem allowed_of_declarations (hgood : ∀ t, t ∈ p.good) {K : Set Text} : (s : Stmt) → PlainBranches [s] →
    (d : Declarations) → (∀ n ∈ d.declared, n ∈ K) → (∀ n ∈ (s.declarations d).undeclared, n ∈ K) →
    s.Allowed p K
  | text _ t, _, _, _, _ => fun _ => hgood t
  | output _ e, _, d, hd, hu | perform _ e, _, d, hd, hu | assign _ _ e, _, d, hd, hu =>
    allowed_of_visit hgood hd hu
  | branches _ bs otherwise, h, d, hd, hu => by
    have hparts := h.parts (List.mem_singleton.mpr rfl)
    have hplain : ∀ b ∈ bs, PlainBranches b.2 := fun b hb => hparts.mono fun s hs =>
      List.mem_append_left _ (List.mem_flatMap.mpr ⟨b, hb, hs⟩)
    have hnone : ∀ b ∈ bs, ∀ s ∈ b.2, ¬ s.Declaring := fun b hb s hs => h.declaring s
      (List.mem_append_left _ (List.mem_flatMap.mpr ⟨b, hb, hs⟩))
    have hother : PlainBranches otherwise := hparts.mono fun s hs => List.mem_append_right _ hs
    refine ⟨ofBranches bs hplain hnone d hd fun n hn => hu n (undeclared_subset.ofList otherwise _ hn),
      ofList otherwise hother _ (fun n hn => ?_) hu⟩
    exact hd n (declared_subset.ofBranches bs hplain hnone d n hn)
  | loop _ target iter filter body otherwise, h, d, hd, hu => by
    have hparts := h.parts (List.mem_singleton.mpr rfl)
    have hbody : PlainBranches body := hparts.mono fun s hs => List.mem_append_left _ hs
    have hother : PlainBranches otherwise := hparts.mono fun s hs => List.mem_append_right _ hs
    have hlaps : ∀ n ∈ (d.afterLaps target iter filter body).undeclared, n ∈ K :=
      fun n hn => hu n (undeclared_subset.ofList otherwise _ hn)
    have hlap : ∀ n ∈ (d.inLap target iter filter).undeclared, n ∈ K :=
      fun n hn => hlaps n (undeclared_subset.ofList body _ hn)
    have hinner : ∀ n ∈ (d.inLoop target iter).declared, n ∈ K ∪ namesOf (target.names.map (·.text)) := namesOf_union hd
    refine ⟨allowed_of_visit hgood hd fun n hn => hlap n (undeclared_inLap hn), ?_,
      ofList body hbody (d.inLap target iter filter) (fun n hn => ?_) fun n hn => .inl (.inl (hlaps n hn)),
      ofList otherwise hother (d.afterLaps target iter filter body) hd hu⟩
    · rintro e rfl
      exact allowed_of_visit hgood hinner fun n hn => .inl (hlap n hn)
    · rcases mem_declared_inLap.mp hn with rfl | hn | hn
      · exact .inl (.inr (List.mem_singleton.mpr rfl))
      · exact .inr hn
      · exact .inl (.inl (hd n hn))
  | capture _ _ body, h, d, hd, hu => ofList body (h.parts (List.mem_singleton.mpr rfl)) d hd hu
  | define _ name params defaults body, h, d, hd, hu => by
    have hbody : PlainBranches body := h.parts (List.mem_singleton.mpr rfl)
    have hinner : ∀ n ∈ (d.inMacro name params defaults).undeclared, n ∈ K :=
      fun n hn => hu n (undeclared_subset.ofList body _ hn)
    have hpairs : (params.zip (alignDefaults params.length defaults)).map (fun q => (q.1.text, q.2)) =
        (params.map (·.text)).zip (alignDefaults (params.map (·.text)).length defaults) := by
      rw [List.length_map, List.zip_map_left]
      rfl
    refine ⟨?_, ofList body hbody (d.inMacro name params defaults) (fun n hn => ?_)
      fun n hn => .inl (.inl (.inl (.inl (hu n hn))))⟩
    · rw [← hpairs]
      exact paramsAllowed_of_afterParams hgood _ _ (namesOf_union hd) fun n hn => .inl (hinner n hn)
    · rcases mem_declared_inMacro hn with (rfl | rfl) | (rfl | hn) | hn
      · exact .inl (.inr (List.mem_singleton.mpr rfl))
      · exact .inr (List.mem_singleton.mpr rfl)
      · exact .inl (.inl (.inl (.inr (List.mem_singleton.mpr rfl))))
      · exact .inl (.inl (.inl (.inl (hd n hn))))
      · exact .inl (.inl (.inr hn))
where
  ofList {K : Set Text} : (body : List Stmt) → PlainBranches body → (d : Declarations) →
      (∀ n ∈ d.declared, n ∈ K) → (∀ n ∈ (declarations.ofList d body).undeclared, n ∈ K) →
      Allowed.ofBody p K body
    | [], _, _, _, _ => trivial
    | s :: rest, h, d, hd, hu => by
      refine ⟨allowed_of_declarations hgood s h.head d hd fun n hn => hu n (undeclared_subset.ofList rest _ hn),
        ofList rest h.tail _ (fun n hn => ?_) fun n hn => .inl (hu n hn)⟩
      exact (declared_subset s h.head d n hn).imp (hd n) id
  ofBranches {K : Set Text} : (bs : List (Expr × List Stmt)) → (∀ b ∈ bs, PlainBranches b.2) →
      (∀ b ∈ bs, ∀ s ∈ b.2, ¬ s.Declaring) → (d : Declarations) → (∀ n ∈ d.declared, n ∈ K) →
      (∀ n ∈ (declarations.ofBranches d bs).undeclared, n ∈ K) → Allowed.ofBranches p K bs
    | [], _, _, _, _, _ => trivial
    | (test, body) :: rest, h, hnone, d, hd, hu => by
      have hbody := h _ List.mem_cons_self
      have hrest : ∀ n ∈ (declarations.ofList (d.visit test) body).undeclared, n ∈ K :=
        fun n hn => hu n (undeclared_subset.ofBranches rest _ hn)
      refine ⟨allowed_of_visit hgood hd fun n hn => hrest n (undeclared_subset.ofList body _ hn),
        ofList body hbody (d.visit test) hd hrest, ofBranches rest (fun b hb => h b (List.mem_cons_of_mem _ hb))
          (fun b hb => hnone b (List.mem_cons_of_mem _ hb)) _ (fun n hn => hd n ?_) hu⟩
      exact declared_subset.ofList body hbody (hnone _ List.mem_cons_self) (d.visit test) n hn

theorem ofList_eq_foldl (body : List Stmt) (d : Declarations) :
    declarations.ofList d body = body.foldl declarations d := by
  induction body generalizing d with
  | nil => rfl
  | cons s body ih => exact ih _

end Stmt

/-- A template whose branches are plain reads only reported names before it declares them. -/
theorem bodyAllowed_of_plainBranches {p : Policy} (hgood : ∀ t, t ∈ p.good) {body : List Stmt}
    (h : Stmt.PlainBranches body) : bodyAllowed p (namesOf (undeclaredNames body)) body := by
  refine Stmt.allowed_of_declarations.ofList hgood body h ⟨[], []⟩ (fun _ hn => nomatch hn) fun n hn => ?_
  rw [Stmt.ofList_eq_foldl] at hn
  exact hn

end Stencil
