import Stencil.Proofs.Running
import Stencil.Proofs.Template.Declared
import Stencil.Proofs.Template.References
import Stencil.Proofs.Template.WellFormed

/-!
What a branch declares for the rest of its statement. A name is reported where nothing before the read declares it, and
it is not where a branch in front of the read does, though the two branches never run together.
-/
namespace Stencil

open Declarations

variable {n : Text} {d : Declarations} {dialect : Dialect}

/-- An expression reads a name. -/
def Expr.Mentions (n : Text) (e : Expr) : Prop := ∃ m ∈ e.reads, m.text = n

namespace Stmt

/-- The bodies that a statement holds, in the order of the source. -/
def bodies : Stmt → List (List Stmt)
  | text _ _ | output _ _ | perform _ _ | assign _ _ _ => []
  | branches _ bs otherwise => bs.map (·.2) ++ [otherwise]
  | loop _ _ _ _ body otherwise => [body, otherwise]
  | capture _ _ body | define _ _ _ _ body => [body]

/-- The names that a statement binds itself, in the scope it stands in or in one that it opens. -/
def binds : Stmt → List Text
  | assign _ target _ | capture _ target _ => target.names.map (·.text)
  | loop _ target _ _ _ _ => Text.ofString "loop" :: target.names.map (·.text)
  | define _ name params _ _ =>
    name :: (params.map (·.text) ++ [Text.ofString "varargs", Text.ofString "kwargs"])
  | text _ _ | output _ _ | perform _ _ | branches _ _ _ => []

/-- A body reads a name, at any depth. -/
def Mentions (n : Text) (body : List Stmt) : Prop := ∃ m ∈ reads.readsOfList body, m.text = n

/-- Nothing in a body binds a name, at any depth. -/
def Unbound (n : Text) (body : List Stmt) : Prop := ∀ s : Stmt, s.Inside body → n ∉ s.binds

/-- A statement stands in a body, at any depth, and all others there are such. -/
inductive Amid (P : Stmt → Prop) (x : Stmt) : List Stmt → Prop where
  | here {before after : List Stmt} (hbefore : ∀ s : Stmt, s.Inside before → P s)
    (hafter : ∀ s : Stmt, s.Inside after → P s) : Amid P x (before ++ x :: after)
  | within {before after : List Stmt} {s : Stmt} {earlier later : List (List Stmt)} {body : List Stmt}
    (hbefore : ∀ s : Stmt, s.Inside before → P s) (hafter : ∀ s : Stmt, s.Inside after → P s) (hs : P s)
    (hbodies : s.bodies = earlier ++ body :: later) (hearlier : ∀ b ∈ earlier, ∀ t : Stmt, t.Inside b → P t)
    (hlater : ∀ b ∈ later, ∀ t : Stmt, t.Inside b → P t) (hbody : Amid P x body) : Amid P x (before ++ s :: after)

theorem parts_eq (s : Stmt) : s.parts = s.bodies.flatten := by
  cases s <;> simp [parts, bodies, List.flatMap_def]

theorem Amid.inside {P : Stmt → Prop} {x : Stmt} {body : List Stmt} (h : Amid P x body) : x.Inside body := by
  induction h with
  | here _ _ => exact .here (List.mem_append_right _ List.mem_cons_self)
  | within _ _ _ hbodies _ _ _ ih =>
    refine .part (List.mem_append_right _ List.mem_cons_self) (ih.mono fun t ht => ?_)
    rw [parts_eq, hbodies, List.flatten_append]
    exact List.mem_append_right _ (List.mem_append_left _ ht)

/-! ## Bodies without a declaration of the name -/

theorem Unbound.mono {body body' : List Stmt} (h : Unbound n body) (hsub : ∀ s ∈ body', s ∈ body) : Unbound n body' :=
  fun s hs => h s (hs.mono hsub)

theorem Unbound.parts {s : Stmt} {body : List Stmt} (h : Unbound n body) (hs : s ∈ body) : Unbound n s.parts :=
  fun t ht => h t (.part hs ht)

theorem Unbound.head {s : Stmt} {body : List Stmt} (h : Unbound n (s :: body)) : Unbound n [s] :=
  h.mono fun _ ht => List.mem_cons.mpr (.inl (List.mem_singleton.mp ht))

theorem Unbound.tail {s : Stmt} {body : List Stmt} (h : Unbound n (s :: body)) : Unbound n body :=
  h.mono fun _ => List.mem_cons_of_mem s

/-- Declarations of other names leave a name undeclared. -/
theorem not_declared_declare {names : List Text} (hd : n ∉ d.declared) (hnames : n ∉ names) :
    n ∉ (d.declare names).declared :=
  fun h => (List.mem_append.mp h).elim hnames hd

/-- What binds nothing of a name declares nothing of it. -/
theorem not_declared : (s : Stmt) → Unbound n [s] → (d : Declarations) → n ∉ d.declared →
    n ∉ (s.declarations d).declared
  | text _ _, _, _, hd | output _ _, _, _, hd | perform _ _, _, _, hd | loop _ _ _ _ _ _, _, _, hd => hd
  | assign _ _ _, h, _, hd | capture _ _ _, h, _, hd =>
    not_declared_declare hd (h _ (.here List.mem_cons_self))
  | define _ name _ _ _, h, _, hd =>
    not_declared_declare hd fun hname =>
      h _ (.here List.mem_cons_self) (List.mem_cons.mpr (.inl (List.mem_singleton.mp hname)))
  | branches _ bs otherwise, h, d, hd => by
    have hparts := h.parts List.mem_cons_self
    refine ofList otherwise (hparts.mono fun s hs => List.mem_append_right _ hs) _ ?_
    exact ofBranches bs (fun b hb => hparts.mono fun s hs =>
      List.mem_append_left _ (List.mem_flatMap.mpr ⟨b, hb, hs⟩)) d hd
where
  ofList : (body : List Stmt) → Unbound n body → (d : Declarations) → n ∉ d.declared →
      n ∉ (declarations.ofList d body).declared
    | [], _, _, hd => hd
    | s :: rest, h, d, hd => ofList rest h.tail _ (not_declared s h.head d hd)
  ofBranches : (bs : List (Expr × List Stmt)) → (∀ b ∈ bs, Unbound n b.2) → (d : Declarations) → n ∉ d.declared →
      n ∉ (declarations.ofBranches d bs).declared
    | [], _, _, hd => hd
    | (test, body) :: rest, h, d, hd =>
      ofBranches rest (fun b hb => h b (List.mem_cons_of_mem _ hb)) _
        (ofList body (h _ List.mem_cons_self) (d.visit test) hd)

/-- A read of a name that is not declared is found. -/
theorem found_of_mentions {e : Expr} (h : e.Mentions n) (hd : n ∉ d.declared) : n ∈ (d.visit e).undeclared :=
  mem_visit.mpr (.inr ⟨h, hd⟩)

/-- The default of a parameter is read where no parameter of the name stands before it. -/
theorem found_of_default {e : Expr} (he : e.Mentions n) (pairs : List (Name × Option Expr)) (d : Declarations)
    (hd : n ∉ d.declared) (hparams : ∀ q ∈ pairs, n ≠ q.1.text) (hmem : some e ∈ pairs.map (·.2)) :
    n ∈ (d.afterParams pairs).undeclared := by
  induction pairs generalizing d with
  | nil => exact nomatch hmem
  | cons q pairs ih =>
    obtain ⟨param, default?⟩ := q
    rcases List.mem_cons.mp hmem with hq | hmem
    · cases hq
      exact undeclared_afterParams pairs _ (found_of_mentions he hd)
    · refine ih _ ?_ (fun q hq => hparams q (List.mem_cons_of_mem _ hq)) hmem
      refine not_declared_declare ?_ fun h => hparams _ List.mem_cons_self (List.mem_singleton.mp h)
      rwa [declared_default]

theorem not_declared_inLap {line : Nat} {target : Target} {iter : Expr} {filter : Option Expr}
    {body otherwise : List Stmt} (hs : n ∉ (Stmt.loop line target iter filter body otherwise).binds)
    (hd : n ∉ d.declared) : n ∉ (d.inLap target iter filter).declared := by
  intro hn
  rcases mem_declared_inLap.mp hn with rfl | hn | hn
  · exact hs List.mem_cons_self
  · exact hs (List.mem_cons_of_mem _ hn)
  · exact hd hn

theorem not_declared_inMacro {line : Nat} {name : Text} {params : List Name} {defaults : List Expr} {body : List Stmt}
    (hs : n ∉ (Stmt.define line name params defaults body).binds) (hd : n ∉ d.declared) :
    n ∉ (d.inMacro name params defaults).declared := by
  obtain ⟨hname, hrest⟩ := not_or.mp (mt List.mem_cons.mpr hs)
  obtain ⟨hparams, hothers⟩ := not_or.mp (mt List.mem_append.mpr hrest)
  intro hn
  rcases mem_declared_inMacro hn with hn | (hn | hn) | hn
  · exact hothers (by simpa using hn)
  · exact hname hn
  · exact hd hn
  · exact hparams hn

/-- As many defaults as parameters at most, each of which belongs to one. -/
theorem mem_zip_alignDefaults {params : List Name} {defaults : List Expr} {e : Expr}
    (hle : defaults.length ≤ params.length) (he : e ∈ defaults) :
    some e ∈ (params.zip (alignDefaults params.length defaults)).map (·.2) := by
  have hlength : (alignDefaults params.length defaults).length = params.length := by
    simp only [alignDefaults, List.length_append, List.length_replicate, List.length_map]
    omega
  rw [List.map_snd_zip hlength.le]
  exact List.mem_append_right _ (List.mem_map_of_mem he)

theorem mentions_append {l l' : List Name} :
    (∃ m ∈ l ++ l', m.text = n) ↔ (∃ m ∈ l, m.text = n) ∨ ∃ m ∈ l', m.text = n := by
  simp only [List.mem_append, or_and_right, exists_or]

/-- What is read where nothing binds it is found. -/
theorem found_of_unbound : (s : Stmt) → Unbound n [s] → (∀ t : Stmt, t.Inside [s] → t.Formed dialect) →
    (d : Declarations) → n ∉ d.declared → (∃ m ∈ s.reads, m.text = n) → n ∈ (s.declarations d).undeclared
  | text _ _, _, _, _, _, hread => nomatch hread.choose_spec.1
  | output _ e, _, _, d, hd, hread | perform _ e, _, _, d, hd, hread | assign _ _ e, _, _, d, hd, hread =>
    found_of_mentions (e := e) hread hd
  | branches _ bs otherwise, h, hf, d, hd, hread => by
    have hparts := h.parts List.mem_cons_self
    have hbs : ∀ b ∈ bs, Unbound n b.2 := fun b hb => hparts.mono fun s hs =>
      List.mem_append_left _ (List.mem_flatMap.mpr ⟨b, hb, hs⟩)
    have hother : Unbound n otherwise := hparts.mono fun s hs => List.mem_append_right _ hs
    rcases mentions_append.mp hread with hread | hread
    · refine undeclared_subset.ofList otherwise _ (ofBranches bs hbs (fun b hb t ht => hf t ?_) d hd hread)
      exact .part List.mem_cons_self (ht.mono fun s hs => List.mem_append_left _ (List.mem_flatMap.mpr ⟨b, hb, hs⟩))
    · refine ofList otherwise hother (fun t ht => hf t ?_) _ (not_declared.ofBranches bs hbs d hd) hread
      exact .part List.mem_cons_self (ht.mono fun s hs => List.mem_append_right _ hs)
  | loop _ target iter filter body otherwise, h, hf, d, hd, hread => by
    have hparts := h.parts List.mem_cons_self
    have hbody : Unbound n body := hparts.mono fun s hs => List.mem_append_left _ hs
    have hother : Unbound n otherwise := hparts.mono fun s hs => List.mem_append_right _ hs
    have hnot := h _ (.here List.mem_cons_self)
    rcases mentions_append.mp hread with hread | hread
    · refine undeclared_subset.ofList otherwise (d.afterLaps target iter filter body) ?_
      rcases mentions_append.mp hread with hread | hread
      · refine undeclared_subset.ofList body (d.inLap target iter filter) ?_
        rcases mentions_append.mp hread with hread | hread
        · exact undeclared_inLap (found_of_mentions hread hd)
        · cases filter with
          | none => exact nomatch hread.choose_spec.1
          | some e =>
            have hinner : n ∉ (d.inLoop target iter).declared :=
              not_declared_declare hd fun hn => hnot (List.mem_cons_of_mem _ hn)
            exact found_of_mentions (e := e) hread hinner
      · refine ofList body hbody (fun t ht => hf t ?_) (d.inLap target iter filter) (not_declared_inLap hnot hd) hread
        exact .part List.mem_cons_self (ht.mono fun s hs => List.mem_append_left _ hs)
    · refine ofList otherwise hother (fun t ht => hf t ?_) (d.afterLaps target iter filter body) hd hread
      exact .part List.mem_cons_self (ht.mono fun s hs => List.mem_append_right _ hs)
  | capture _ _ body, h, hf, d, hd, hread =>
    ofList body (h.parts List.mem_cons_self) (fun t ht => hf t (.part List.mem_cons_self ht)) d hd hread
  | define _ name params defaults body, h, hf, d, hd, hread => by
    have hnot := h _ (.here List.mem_cons_self)
    rcases mentions_append.mp hread with ⟨m, hm, hmn⟩ | hread
    · obtain ⟨e, he, hm⟩ := List.mem_flatMap.mp hm
      have hle : defaults.length ≤ params.length := hf _ (.here List.mem_cons_self)
      have hstart : n ∉ (d.declare [name]).declared :=
        not_declared_declare hd fun hn => hnot (List.mem_cons.mpr (.inl (List.mem_singleton.mp hn)))
      have hparams : ∀ q ∈ params.zip (alignDefaults params.length defaults), n ≠ q.1.text := fun q hq hn =>
        hnot (List.mem_cons_of_mem _ (List.mem_append_left _ (hn ▸ List.mem_map_of_mem (List.of_mem_zip hq).1)))
      refine undeclared_subset.ofList body (d.inMacro name params defaults) ?_
      exact found_of_default ⟨m, hm, hmn⟩ _ _ hstart hparams (mem_zip_alignDefaults hle he)
    · exact ofList body (h.parts List.mem_cons_self) (fun t ht => hf t (.part List.mem_cons_self ht)) _
        (not_declared_inMacro hnot hd) hread
where
  ofList : (body : List Stmt) → Unbound n body → (∀ t : Stmt, t.Inside body → t.Formed dialect) →
      (d : Declarations) → n ∉ d.declared → Mentions n body → n ∈ (declarations.ofList d body).undeclared
    | [], _, _, _, _, hread => nomatch hread.choose_spec.1
    | s :: rest, h, hf, d, hd, hread => by
      rcases mentions_append.mp hread with hread | hread
      · refine undeclared_subset.ofList rest _ (found_of_unbound s h.head (fun t ht => hf t ?_) d hd hread)
        exact ht.mono fun x hx => List.mem_cons.mpr (.inl (List.mem_singleton.mp hx))
      · refine ofList rest h.tail (fun t ht => hf t ?_) _ (not_declared s h.head d hd) hread
        exact ht.mono fun x => List.mem_cons_of_mem s
  ofBranches : (bs : List (Expr × List Stmt)) → (∀ b ∈ bs, Unbound n b.2) →
      (∀ b ∈ bs, ∀ t : Stmt, t.Inside b.2 → t.Formed dialect) → (d : Declarations) → n ∉ d.declared →
      (∃ m ∈ reads.readsOfBranches bs, m.text = n) → n ∈ (declarations.ofBranches d bs).undeclared
    | [], _, _, _, _, hread => nomatch hread.choose_spec.1
    | (test, body) :: rest, h, hf, d, hd, hread => by
      have hbody := h _ List.mem_cons_self
      have hforms := hf _ List.mem_cons_self
      rcases mentions_append.mp hread with hread | hread
      · refine undeclared_subset.ofBranches rest _ ?_
        rcases mentions_append.mp hread with hread | hread
        · exact undeclared_subset.ofList body _ (found_of_mentions (e := test) hread hd)
        · exact ofList body hbody hforms (d.visit test) hd hread
      · exact ofBranches rest (fun b hb => h b (List.mem_cons_of_mem _ hb))
          (fun b hb => hf b (List.mem_cons_of_mem _ hb)) _ (not_declared.ofList body hbody (d.visit test) hd) hread

/-! ## Names that are declared -/

/-- A name is declared, and has not been found since. -/
def Hides (n : Text) (d d' : Declarations) : Prop := n ∈ d'.declared ∧ (n ∈ d'.undeclared → n ∈ d.undeclared)

theorem Hides.refl (hd : n ∈ d.declared) : Hides n d d := ⟨hd, id⟩

theorem Hides.trans {d' d'' : Declarations} (h : Hides n d d') (h' : Hides n d' d'') : Hides n d d'' :=
  ⟨h'.1, fun hn => h.2 (h'.2 hn)⟩

theorem Hides.declare {d' : Declarations} (h : Hides n d d') (names : List Text) : Hides n d (d'.declare names) :=
  ⟨List.mem_append_right _ h.1, h.2⟩

/-- What an inner scope declares is dropped. -/
theorem Hides.leave {d' outer : Declarations} (h : Hides n d d') (houter : n ∈ outer.declared) :
    Hides n d (outer.leave d') := ⟨houter, h.2⟩

theorem hides_visit (e : Expr) (hd : n ∈ d.declared) : Hides n d (d.visit e) :=
  ⟨hd, fun hn => (mem_visit.mp hn).resolve_right fun h => h.2 hd⟩

theorem hides_default (default? : Option Expr) (hd : n ∈ d.declared) : Hides n d ((default?.map d.visit).getD d) := by
  cases default? with
  | none => exact .refl hd
  | some e => exact hides_visit e hd

theorem hides_afterParams (pairs : List (Name × Option Expr)) (d : Declarations) (hd : n ∈ d.declared) :
    Hides n d (d.afterParams pairs) := by
  induction pairs generalizing d with
  | nil => exact .refl hd
  | cons q pairs ih =>
    have hq : Hides n d (((q.2.map d.visit).getD d).declare [q.1.text]) := (hides_default q.2 hd).declare _
    exact hq.trans (ih _ hq.1)

/-- What is declared stays declared, and no read of it is found. -/
theorem hides : (s : Stmt) → (d : Declarations) → n ∈ d.declared → Hides n d (s.declarations d)
  | text _ _, _, hd => .refl hd
  | output _ e, _, hd | perform _ e, _, hd => hides_visit e hd
  | assign _ _ e, _, hd => (hides_visit e hd).declare _
  | branches _ bs otherwise, d, hd => by
    have hbs := ofBranches bs d hd
    exact hbs.trans (ofList otherwise _ hbs.1)
  | loop _ target iter filter body otherwise, d, hd => by
    have hinner : Hides n d (d.inLoop target iter) := (hides_visit iter hd).declare _
    have hlap : Hides n d (d.inLap target iter filter) := (hinner.trans (hides_default filter hinner.1)).declare _
    have hlaps : Hides n d (d.afterLaps target iter filter body) := (hlap.trans (ofList body _ hlap.1)).leave hd
    exact (hlaps.trans (ofList otherwise _ hd)).leave hd
  | capture _ target body, d, hd => ((ofList body d hd).leave hd).declare _
  | define _ name params defaults body, d, hd => by
    have hname : Hides n d (d.declare [name]) := (Hides.refl hd).declare [name]
    have hparams : Hides n d (d.inMacro name params defaults) :=
      (hname.trans (hides_afterParams _ _ hname.1)).declare _
    exact (hparams.trans (ofList body _ hparams.1)).leave hname.1
where
  ofList : (body : List Stmt) → (d : Declarations) → n ∈ d.declared → Hides n d (declarations.ofList d body)
    | [], _, hd => .refl hd
    | s :: rest, d, hd => by
      have hs := hides s d hd
      exact hs.trans (ofList rest _ hs.1)
  ofBranches : (bs : List (Expr × List Stmt)) → (d : Declarations) → n ∈ d.declared →
      Hides n d (declarations.ofBranches d bs)
    | [], _, hd => .refl hd
    | (test, body) :: rest, d, hd => by
      have htest := hides_visit test hd
      have hbody := htest.trans (ofList body _ htest.1)
      exact hbody.trans (ofBranches rest _ hbody.1)

/-- A body declares what a statement directly in it declares. -/
theorem declared_of_declares {s : Stmt} {names : List Text} (hs : s.declares = names) (hn : n ∈ names) :
    n ∈ (s.declarations d).declared := by
  subst hs
  cases s with
  | assign line target e => exact List.mem_append_left _ hn
  | capture line target body => exact List.mem_append_left _ hn
  | define line name params defaults body => exact List.mem_append_left _ hn
  | _ => exact nomatch hn

/-! ## Where a body is entered -/

theorem mem_of_visit {e : Expr} (he : ¬ e.Mentions n) (h : n ∈ (d.visit e).undeclared) : n ∈ d.undeclared :=
  (mem_visit.mp h).resolve_right fun h => he h.1

theorem mem_of_default {default? : Option Expr} (he : ∀ e ∈ default?, ¬ e.Mentions n)
    (h : n ∈ ((default?.map d.visit).getD d).undeclared) : n ∈ d.undeclared := by
  cases default? with
  | none => exact h
  | some e => exact mem_of_visit (he e rfl) h

/-- What is not read in a body is not found in it. -/
theorem mem_of_ofList {body : List Stmt} (hbody : ¬ Mentions n body)
    (h : n ∈ (declarations.ofList d body).undeclared) : n ∈ d.undeclared :=
  (undeclared_read.ofList body d n h).resolve_right fun h => hbody (List.mem_map.mp h)

theorem mem_of_ofBranches {bs : List (Expr × List Stmt)} (hbs : ∀ b ∈ bs, ¬ b.1.Mentions n ∧ ¬ Mentions n b.2)
    (h : n ∈ (declarations.ofBranches d bs).undeclared) : n ∈ d.undeclared := by
  induction bs generalizing d with
  | nil => exact h
  | cons b bs ih =>
    obtain ⟨htest, hbody⟩ := hbs b List.mem_cons_self
    exact mem_of_visit htest (mem_of_ofList hbody (ih (fun b hb => hbs b (List.mem_cons_of_mem _ hb)) h))

/-- A walk comes to a body with a name undeclared. What is found there is found in the end, and where nothing else
reads the name, it is found nowhere else. -/
structure Entry (n : Text) (d d' : Declarations) (body : List Stmt) (last : Declarations) (silent : Prop) : Prop where
  declared : n ∉ d'.declared
  kept : (declarations.ofList d' body).undeclared ⊆ last.undeclared
  before (h : silent) : n ∈ d'.undeclared → n ∈ d.undeclared
  after (h : silent) : n ∈ last.undeclared → n ∈ (declarations.ofList d' body).undeclared

theorem exists_entry_branches {otherwise body : List Stmt} {bs : List (Expr × List Stmt)}
    {earlier later : List (List Stmt)} (hbodies : bs.map (·.2) ++ [otherwise] = earlier ++ body :: later)
    (hearlier : ∀ b ∈ earlier, Unbound n b) (hd : n ∉ d.declared) :
    ∃ d', Entry n d d' body (declarations.ofList (declarations.ofBranches d bs) otherwise)
      ((∀ b ∈ bs, ¬ b.1.Mentions n) ∧ ∀ b ∈ earlier ++ later, ¬ Mentions n b) := by
  induction bs generalizing d earlier with
  | nil =>
    cases earlier with
    | nil =>
      cases hbodies
      exact ⟨d, hd, List.Subset.refl _, fun _ => id, fun _ => id⟩
    | cons b earlier => simp at hbodies
  | cons b bs ih =>
    obtain ⟨test, first⟩ := b
    cases earlier with
    | nil =>
      cases hbodies
      refine ⟨d.visit test, hd, ?_, fun h => mem_of_visit (h.1 _ List.mem_cons_self), fun h hn => ?_⟩
      · exact List.Subset.trans (undeclared_subset.ofBranches bs _) (undeclared_subset.ofList otherwise _)
      · have hothers : ∀ b ∈ bs.map (·.2) ++ [otherwise], ¬ Mentions n b := h.2
        obtain ⟨hbs, hother⟩ := List.forall_mem_append.mp hothers
        refine mem_of_ofBranches (fun b hb => ⟨h.1 b (List.mem_cons_of_mem _ hb), ?_⟩)
          (mem_of_ofList (hother otherwise List.mem_cons_self) hn)
        exact hbs b.2 (List.mem_map_of_mem hb)
    | cons b earlier =>
      obtain ⟨rfl, hrest⟩ := List.cons_eq_cons.mp hbodies
      have hfirst : n ∉ (declarations.ofList (d.visit test) first).declared :=
        not_declared.ofList first (hearlier first List.mem_cons_self) _ hd
      obtain ⟨d', hentry⟩ := ih hrest (fun b hb => hearlier b (List.mem_cons_of_mem _ hb)) hfirst
      have hsilent : ∀ {P : Prop}, (∀ b ∈ (test, first) :: bs, ¬ b.1.Mentions n) ∧
          (∀ b ∈ first :: earlier ++ later, ¬ Mentions n b) →
          (((∀ b ∈ bs, ¬ b.1.Mentions n) ∧ ∀ b ∈ earlier ++ later, ¬ Mentions n b) → P) → P :=
        fun h hP => hP ⟨fun b hb => h.1 b (List.mem_cons_of_mem _ hb), fun b hb => h.2 b (List.mem_cons_of_mem _ hb)⟩
      refine ⟨d', hentry.declared, hentry.kept, fun h hn => ?_, fun h => hsilent h hentry.after⟩
      exact mem_of_visit (h.1 _ List.mem_cons_self) (mem_of_ofList (h.2 first List.mem_cons_self)
        (hsilent h hentry.before hn))

/-- Every body of a statement is entered so, if nothing binds the name in the bodies before it. -/
theorem exists_entry {s : Stmt} {body : List Stmt} {earlier later : List (List Stmt)}
    (hbodies : s.bodies = earlier ++ body :: later) (hs : n ∉ s.binds) (hearlier : ∀ b ∈ earlier, Unbound n b)
    (hd : n ∉ d.declared) :
    ∃ d', Entry n d d' body (s.declarations d)
      ((∀ e ∈ s.roots, ¬ e.Mentions n) ∧ ∀ b ∈ earlier ++ later, ¬ Mentions n b) := by
  cases s with
  | text | output | perform | assign => simp [bodies] at hbodies
  | branches line bs otherwise =>
    obtain ⟨d', hentry⟩ := exists_entry_branches hbodies hearlier hd
    exact ⟨d', hentry.declared, hentry.kept, fun h => hentry.before ⟨fun b hb => h.1 _ (List.mem_map_of_mem hb), h.2⟩,
      fun h => hentry.after ⟨fun b hb => h.1 _ (List.mem_map_of_mem hb), h.2⟩⟩
  | loop line target iter filter inner otherwise =>
    have hfound : (∀ e ∈ iter :: filter.toList, ¬ e.Mentions n) → n ∈ (d.inLap target iter filter).undeclared →
        n ∈ d.undeclared := by
      intro h hn
      have hfilter : n ∈ (d.inLoop target iter).undeclared :=
        mem_of_default (fun e he => h e (List.mem_cons_of_mem _ (Option.mem_toList.mpr he))) hn
      exact mem_of_visit (h _ List.mem_cons_self) hfilter
    cases earlier with
    | nil =>
      cases hbodies
      refine ⟨d.inLap target iter filter, not_declared_inLap hs hd, ?_, fun h => hfound h.1, fun h hn => ?_⟩
      · exact undeclared_subset.ofList otherwise (d.afterLaps target iter filter body)
      · exact mem_of_ofList (d := d.afterLaps target iter filter body) (h.2 otherwise (by simp)) hn
    | cons b earlier =>
      obtain ⟨rfl, hrest⟩ := List.cons_eq_cons.mp hbodies
      cases earlier with
      | nil =>
        cases hrest
        refine ⟨d.afterLaps target iter filter inner, hd, List.Subset.refl _, fun h hn => hfound h.1 ?_, fun _ => id⟩
        exact mem_of_ofList (d := d.inLap target iter filter) (h.2 inner (by simp)) hn
      | cons b earlier => simp at hrest
  | capture line target inner =>
    obtain ⟨rfl, rfl, rfl⟩ : earlier = [] ∧ body = inner ∧ later = [] := by
      cases earlier <;> simp_all [bodies]
    exact ⟨d, hd, List.Subset.refl _, fun _ => id, fun _ => id⟩
  | define line name params defaults inner =>
    obtain ⟨rfl, rfl, rfl⟩ : earlier = [] ∧ body = inner ∧ later = [] := by
      cases earlier <;> simp_all [bodies]
    refine ⟨d.inMacro name params defaults, not_declared_inMacro hs hd, List.Subset.refl _, fun h hn => ?_, fun _ => id⟩
    refine (undeclared_params _ (d.declare [name]) n hn).resolve_right fun ⟨e, he, hn⟩ => ?_
    exact h.1 e (mem_alignDefaults he) (List.mem_map.mp hn)

theorem ofList_append (before after : List Stmt) (d : Declarations) :
    declarations.ofList d (before ++ after) = declarations.ofList (declarations.ofList d before) after := by
  simp only [ofList_eq_foldl, List.foldl_append]

theorem ofBranches_append (before after : List (Expr × List Stmt)) (d : Declarations) :
    declarations.ofBranches d (before ++ after) = declarations.ofBranches (declarations.ofBranches d before) after := by
  induction before generalizing d with
  | nil => rfl
  | cons b before ih => exact ih _

/-- What one statement finds is found in the whole, if nothing else there binds the name. -/
theorem Amid.found {x : Stmt} {body : List Stmt} (h : Amid (n ∉ ·.binds) x body)
    (hx : ∀ d : Declarations, n ∉ d.declared → n ∈ (x.declarations d).undeclared) (hd : n ∉ d.declared) :
    n ∈ (declarations.ofList d body).undeclared := by
  induction h generalizing d with
  | @here before after hbefore hafter =>
    rw [ofList_append]
    exact undeclared_subset.ofList after _ (hx _ (not_declared.ofList before hbefore d hd))
  | @within before after s earlier later inner hbefore hafter hs hbodies hearlier hlater _ ih =>
    rw [ofList_append]
    refine undeclared_subset.ofList after _ ?_
    obtain ⟨d', hentry⟩ := exists_entry hbodies hs hearlier (not_declared.ofList before hbefore d hd)
    exact hentry.kept (ih hentry.declared)

/-- A statement neither binds a name nor reads it in its own expressions. -/
def Silent (n : Text) (s : Stmt) : Prop := n ∉ s.binds ∧ ∀ e ∈ s.roots, ¬ e.Mentions n

theorem not_mentions_of_silent {body : List Stmt} (h : ∀ s : Stmt, s.Inside body → s.Silent n) : ¬ Mentions n body := by
  rintro ⟨m, hm, hmn⟩
  rw [readsOfList_eq_flatMap, mem_flatMap_reads_iff] at hm
  obtain ⟨s, hs, e, he, hin⟩ := hm
  exact (h s hs).2 e he ⟨m, e.mem_reads_iff.mpr hin, hmn⟩

/-- What one statement does not find is not found in the whole, if the name stands nowhere else there. -/
theorem Amid.not_found {x : Stmt} {body : List Stmt} (h : Amid (Silent n) x body)
    (hx : ∀ d : Declarations, n ∉ d.undeclared → n ∉ (x.declarations d).undeclared) (hd : n ∉ d.declared)
    (hnone : n ∉ d.undeclared) : n ∉ (declarations.ofList d body).undeclared := by
  have hpast : ∀ {l : List Stmt} {d : Declarations}, (∀ s : Stmt, s.Inside l → s.Silent n) →
      n ∉ d.undeclared → n ∉ (declarations.ofList d l).undeclared :=
    fun hl => mt (mem_of_ofList (not_mentions_of_silent hl))
  induction h generalizing d with
  | @here before after hbefore hafter =>
    rw [ofList_append, declarations.ofList]
    exact hpast hafter (hx _ (hpast hbefore hnone))
  | @within before after s earlier later inner hbefore hafter hs hbodies hearlier hlater _ ih =>
    rw [ofList_append, declarations.ofList]
    refine hpast hafter fun hn => ?_
    obtain ⟨d', hentry⟩ := exists_entry hbodies hs.1 (fun b hb t ht => (hearlier b hb t ht).1)
      (not_declared.ofList before (fun t ht => (hbefore t ht).1) d hd)
    have hsilent : (∀ e ∈ s.roots, ¬ e.Mentions n) ∧ ∀ b ∈ earlier ++ later, ¬ Mentions n b := by
      refine ⟨hs.2, List.forall_mem_append.mpr ⟨fun b hb => ?_, fun b hb => ?_⟩⟩
      · exact not_mentions_of_silent (hearlier b hb)
      · exact not_mentions_of_silent (hlater b hb)
    exact ih hentry.declared (mt (hentry.before hsilent) (hpast hbefore hnone)) (hentry.after hsilent hn)

/-! ## One branch for another -/

section branches

variable {line : Nat} {before after : List (Expr × List Stmt)} {test : Expr} {body otherwise : List Stmt}

theorem declared_ofList {s : Stmt} (hs : s ∈ body) (hn : n ∈ s.declares) (d : Declarations) :
    n ∈ (declarations.ofList d body).declared := by
  obtain ⟨first, rest, rfl⟩ := List.append_of_mem hs
  rw [ofList_append]
  exact (hides.ofList rest _ (declared_of_declares rfl hn)).1

/-- A test and what stands before it are walked through before any branch behind them. -/
theorem found_in_branches (hbefore : ∀ b ∈ before, Unbound n b.2)
    (hforms : ∀ b ∈ before, ∀ t : Stmt, t.Inside b.2 → t.Formed dialect) (hd : n ∉ d.declared)
    (hread : (∃ b ∈ before, b.1.Mentions n ∨ Mentions n b.2) ∨ test.Mentions n) :
    n ∈ ((branches line (before ++ (test, body) :: after) otherwise).declarations d).undeclared := by
  refine undeclared_subset.ofList otherwise _ ?_
  rw [ofBranches_append]
  refine undeclared_subset.ofBranches after _ (undeclared_subset.ofList body _ ?_)
  rcases hread with ⟨b, hb, hread⟩ | hread
  · refine mem_visit.mpr (.inl (found_of_unbound.ofBranches before hbefore hforms d hd ?_))
    rw [readsOfBranches_eq_flatMap]
    have hmem : ∃ m ∈ b.1.reads ++ b.2.flatMap reads, m.text = n := by
      rw [mentions_append, ← readsOfList_eq_flatMap]
      exact hread
    obtain ⟨m, hm, hmn⟩ := hmem
    exact ⟨m, List.mem_flatMap.mpr ⟨b, hb, hm⟩, hmn⟩
  · exact found_of_mentions hread (not_declared.ofBranches before hbefore d hd)

/-- What a branch declares is not found behind it. -/
theorem not_found_in_branches (hbody : ∃ s ∈ body, n ∈ s.declares)
    (hbefore : ∀ b ∈ before, ¬ b.1.Mentions n ∧ ¬ Mentions n b.2) (htest : ¬ test.Mentions n)
    (hread : ¬ Mentions n body) (hnone : n ∉ d.undeclared) :
    n ∉ ((branches line (before ++ (test, body) :: after) otherwise).declarations d).undeclared := by
  obtain ⟨s, hs, hn⟩ := hbody
  let d' := declarations.ofList ((declarations.ofBranches d before).visit test) body
  have hdeclared : n ∈ d'.declared := declared_ofList hs hn _
  have hafter := hides.ofBranches after d' hdeclared
  have hrest := hafter.trans (hides.ofList otherwise _ hafter.1)
  intro hfound
  have hmem : n ∈ (declarations.ofList (declarations.ofBranches d' after) otherwise).undeclared := by
    have happend : declarations.ofBranches d (before ++ (test, body) :: after) = declarations.ofBranches d' after :=
      ofBranches_append before ((test, body) :: after) d
    rw [← happend]
    exact hfound
  exact hnone (mem_of_ofBranches hbefore (mem_of_visit htest (mem_of_ofList hread (hrest.2 hmem))))

end branches

end Stmt

/-- A name that only the branches of one statement declare, a certain branch first, is reported if it is read in a
branch before that one or in a test up to it. If it stands nowhere but behind that branch, it is not reported, though a
render that reads it there has bound it nowhere. -/
theorem undeclaredNames_branches {env : Environment} {source : Text} {template : List Stmt} {line : Nat}
    {before after : List (Expr × List Stmt)} {test : Expr} {body otherwise : List Stmt}
    (hparse : env.parse source = .ok template)
    (htemplate : Stmt.Amid (n ∉ ·.binds) (.branches line (before ++ (test, body) :: after) otherwise) template)
    (hbefore : ∀ b ∈ before, Stmt.Unbound n b.2) :
    ((∃ b ∈ before, b.1.Mentions n ∨ Stmt.Mentions n b.2) ∨ test.Mentions n → n ∈ undeclaredNames template) ∧
    ((∃ s ∈ body, n ∈ s.declares) → (∀ b ∈ before, ¬ b.1.Mentions n ∧ ¬ Stmt.Mentions n b.2) → ¬ test.Mentions n →
      ¬ Stmt.Mentions n body →
      Stmt.Amid (Stmt.Silent n) (.branches line (before ++ (test, body) :: after) otherwise) template →
      n ∉ undeclaredNames template) := by
  have hnone : n ∉ (⟨[], []⟩ : Declarations).declared := List.not_mem_nil
  have hwhole : undeclaredNames template = (Stmt.declarations.ofList ⟨[], []⟩ template).undeclared := by
    rw [Stmt.ofList_eq_foldl]
    rfl
  rw [hwhole]
  refine ⟨fun hread => htemplate.found (fun d hd => ?_) hnone, fun hbody hsilent htest hown hothers => ?_⟩
  · have hforms : ∀ b ∈ before, ∀ t : Stmt, t.Inside b.2 → t.Formed env.dialect := by
      intro b hb t ht
      refine (wellFormed_parse hparse).stmt (Stmt.Inside.trans (.part List.mem_cons_self (ht.mono fun s hs => ?_))
        htemplate.inside)
      exact List.mem_append_left _ (List.mem_flatMap.mpr ⟨b, List.mem_append_left _ hb, hs⟩)
    exact Stmt.found_in_branches hbefore hforms hd hread
  · exact hothers.not_found (fun d => Stmt.not_found_in_branches hbody hsilent htest hown) hnone List.not_mem_nil

namespace OtherBranch

/-- Contexts with and without a value for `y`. -/
def setting : Environment × Store :=
  Environment.create true false false { Store.empty with
    mappings := #[[("x", .data (.bool false))], [("x", .data (.bool false)), ("y", .data (.text "d"))]] }

/-- The first branch reads `x` in its test and sets both names, and the rest reads `y`. -/
def source : Text :=
  "\x7b% if x %\x7d\x7b% set x = 'b' %\x7d\x7b% set y = 'c' %\x7d\x7b% else %\x7d\x7b\x7b y \x7d\x7d\x7b% endif %\x7d"

def test : Expr := .name ⟨"x", 1, 6⟩

def taken : List Stmt :=
  [.assign 1 (.name ⟨"x", 1, 17⟩) (.const 1 (.text "b")), .assign 1 (.name ⟨"y", 1, 34⟩) (.const 1 (.text "c"))]

def otherwise : List Stmt := [.output 1 (.name ⟨"y", 1, 57⟩)]

def template : List Stmt := [.branches 1 ([] ++ (test, taken) :: []) otherwise]

/-- Whether a body is that template, where trees cannot be compared. -/
def isTemplate : List Stmt → Bool
  | [.branches 1 [(.name test, [.assign 1 (.name x) (.const 1 (.text b)), .assign 1 (.name y) (.const 1 (.text c))])]
      [.output 1 (.name read)]] =>
    [test, x, y, read] == [⟨"x", 1, 6⟩, ⟨"x", 1, 17⟩, ⟨"y", 1, 34⟩, ⟨"y", 1, 57⟩] && [b, c] == ["b", "c"]
  | _ => false

theorem eq_template {body : List Stmt} (h : isTemplate body = true) : body = template := by
  unfold isTemplate at h
  split at h
  · simp only [Bool.and_eq_true, beq_iff_eq, List.cons.injEq, and_true] at h
    obtain ⟨⟨rfl, rfl, rfl, rfl⟩, rfl, rfl⟩ := h
    rfl
  · cases h

theorem parse_source : setting.1.parse source = .ok template := by
  have hparse : (setting.1.parse source).toOption.any isTemplate = true := by decide +kernel
  generalize setting.1.parse source = parsed at hparse ⊢
  cases parsed with
  | error e => cases hparse
  | ok body => exact congrArg Except.ok (eq_template hparse)

/-- The statement is the whole of the template. -/
theorem amid (P : Stmt → Prop) : Stmt.Amid P (.branches 1 ([] ++ (test, taken) :: []) otherwise) template :=
  Stmt.Amid.here (fun _ h => (Stmt.inside_nil h).elim) fun _ h => (Stmt.inside_nil h).elim

end OtherBranch

/-- The test stands in front of both declarations, and the rest behind them. -/
theorem undeclaredNames_branches_of_test :
    Text.ofString "x" ∈ undeclaredNames OtherBranch.template ∧
      Text.ofString "y" ∉ undeclaredNames OtherBranch.template := by
  have hnone : ∀ n : Text, ∀ b ∈ ([] : List (Expr × List Stmt)), Stmt.Unbound n b.2 := fun _ _ h => nomatch h
  obtain ⟨hx, -⟩ := undeclaredNames_branches OtherBranch.parse_source (OtherBranch.amid (Text.ofString "x" ∉ ·.binds))
    (hnone _)
  obtain ⟨-, hy⟩ := undeclaredNames_branches OtherBranch.parse_source (OtherBranch.amid (Text.ofString "y" ∉ ·.binds))
    (hnone _)
  refine ⟨hx (.inr ⟨⟨"x", 1, 6⟩, List.mem_singleton.mpr rfl, rfl⟩), hy ?_ (fun _ h => nomatch h) ?_ ?_ ?_⟩
  · exact ⟨_, List.mem_cons_of_mem _ List.mem_cons_self, List.mem_singleton.mpr rfl⟩
  · rintro ⟨m, hm, hmy⟩
    cases List.mem_singleton.mp hm
    revert hmy
    decide
  · rintro ⟨m, hm, -⟩
    cases hm
  · exact OtherBranch.amid _

/-- The rest reads a name that only the branch sets, directly in its body, and the two never run together: the text
depends on the value that the context gives, but the name is not reported. -/
theorem undeclaredNames_miss_otherwise :
    OtherBranch.setting.1.parse OtherBranch.source = .ok OtherBranch.template ∧
      Stmt.Amid (Text.ofString "y" ∉ ·.binds)
        (.branches 1 [(OtherBranch.test, OtherBranch.taken)] OtherBranch.otherwise) OtherBranch.template ∧
      (∀ s ∈ OtherBranch.taken, ∃ line target e, s = .assign line target e) ∧
      Stmt.Mentions "y" OtherBranch.otherwise ∧ Stmt.Unbound "y" OtherBranch.otherwise ∧
      Text.ofString "y" ∉ undeclaredNames OtherBranch.template ∧
      outcome (Eval.renderTemplate OtherBranch.setting.1 OtherBranch.template (.mapping 0)) OtherBranch.setting.2 =
        .ok [] ∧
      outcome (Eval.renderTemplate OtherBranch.setting.1 OtherBranch.template (.mapping 1)) OtherBranch.setting.2 =
        .ok "d" := by
  refine ⟨OtherBranch.parse_source, OtherBranch.amid _, ?_, ⟨⟨"y", 1, 57⟩, List.mem_singleton.mpr rfl, rfl⟩, ?_,
    by decide +kernel, by decide +kernel, by decide +kernel⟩
  · simp [OtherBranch.taken]
  · intro s hs
    simp [OtherBranch.otherwise, Stmt.inside_cons, Stmt.inside_nil, Stmt.parts] at hs
    subst hs
    exact List.not_mem_nil

end Stencil
