import Stencil.Proofs.Template.Parts
import Stencil.Render.Evaluate

/-! What templates may contain: names that are known where they are read, and text that is good. -/
namespace Stencil

/-- The features of a template, and the texts that may be written as they stand. -/
structure Policy where
  features : Features
  good : Set Text
  good_nil : [] ∈ good
  good_append {t u : Text} : t ∈ good → u ∈ good → t ++ u ∈ good
  good_escape (t : Text) : escapeMarkup t ∈ good

namespace Policy

/-- The policy under which every text is good. -/
def free (features : Features) : Policy where
  features := features
  good := Set.univ
  good_nil := trivial
  good_append _ _ := trivial
  good_escape _ := trivial

/-- A filter that marks any text as safe is permitted only where all texts are good. -/
def Permits (p : Policy) (filter : Text) : Prop :=
  p.features.filters.lookup filter = some .safe → ∀ t, t ∈ p.good

end Policy

/-- The names in a list. -/
def namesOf (names : List Text) : Set Text := {n | n ∈ names}

/-- All names in an expression are known, and its filters are permitted. -/
def Expr.Allowed (p : Policy) (known : Set Text) (e : Expr) : Prop :=
  ∀ x, Expr.Within x e → (∀ n, x = .name n → n.text ∈ known) ∧
    ∀ line target filter args named, x = .filter line target filter args named → p.Permits filter

namespace Expr.Allowed

variable {p : Policy} {known : Set Text} {e x : Expr}

theorem part (h : e.Allowed p known) (hx : x ∈ e.parts) : x.Allowed p known :=
  fun y hy => h y (.part hx hy)

theorem name {n : Name} (h : (Expr.name n).Allowed p known) : n.text ∈ known := (h _ .whole).1 n rfl

theorem filter {line : Nat} {target : Expr} {name : Text} {args : List Expr} {named : List (Text × Expr)}
    (h : (Expr.filter line target name args named).Allowed p known) : p.Permits name :=
  (h _ .whole).2 _ _ _ _ _ rfl

end Expr.Allowed

/-- Every default may read the names that are known and the parameters before it. -/
def paramsAllowed (p : Policy) (known : Set Text) : List (Text × Option Expr) → Prop
  | [] => True
  | (param, default?) :: rest =>
    (∀ e ∈ default?, e.Allowed p known) ∧ paramsAllowed p (known ∪ namesOf [param]) rest

namespace Stmt

/-- What a statement may contain where some names are known. -/
def Allowed (p : Policy) (known : Set Text) : Stmt → Prop
  | text _ value => p.features.autoescape = true → value ∈ p.good
  | output _ e | perform _ e => e.Allowed p known
  | branches _ bs otherwise => ofBranches known bs ∧ ofBody known otherwise
  | loop _ target iter filter body otherwise =>
    iter.Allowed p known ∧ (∀ e ∈ filter, e.Allowed p (known ∪ namesOf (target.names.map (·.text)))) ∧
    ofBody (known ∪ namesOf [Text.ofString "loop"] ∪ namesOf (target.names.map (·.text))) body ∧
    ofBody known otherwise
  | assign _ _ value => value.Allowed p known
  | capture _ _ body => ofBody known body
  | define _ name params defaults body =>
    paramsAllowed p (known ∪ namesOf [name])
      ((params.map (·.text)).zip (alignDefaults (params.map (·.text)).length defaults)) ∧
    ofBody (known ∪ namesOf [name] ∪ namesOf (params.map (·.text)) ∪ namesOf [Text.ofString "varargs"] ∪
      namesOf [Text.ofString "kwargs"]) body
where
  ofBody (known : Set Text) : List Stmt → Prop
    | [] => True
    | s :: rest => s.Allowed p known ∧ ofBody (known ∪ namesOf s.declares) rest
  ofBranches (known : Set Text) : List (Expr × List Stmt) → Prop
    | [] => True
    | (test, body) :: rest => test.Allowed p known ∧ ofBody known body ∧ ofBranches known rest

end Stmt

/-- A body whose statements may read the names that are known and those that come before them. -/
abbrev bodyAllowed (p : Policy) (known : Set Text) (body : List Stmt) : Prop := Stmt.Allowed.ofBody p known body

/-- What a macro may contain where some names are known. -/
def Macro.Allowed (p : Policy) (known : Set Text) (m : Macro) : Prop :=
  paramsAllowed p known (m.params.zip (alignDefaults m.params.length m.defaults)) ∧
  bodyAllowed p (known ∪ namesOf m.params ∪ namesOf [Text.ofString "varargs"] ∪
    namesOf [Text.ofString "kwargs"]) m.body

theorem Stmt.Allowed.branch {p : Policy} {known : Set Text} {bs : List (Expr × List Stmt)}
    (h : Stmt.Allowed.ofBranches p known bs) :
    ∀ b ∈ bs, b.1.Allowed p known ∧ bodyAllowed p known b.2 := by
  induction bs with
  | nil => simp
  | cons b bs ih => exact List.forall_mem_cons.mpr ⟨⟨h.1, h.2.1⟩, ih h.2.2⟩

/-- The texts of a body are good, and its filters are permitted. -/
structure Policy.Admits (p : Policy) (body : List Stmt) : Prop where
  texts : ∀ line t, Stmt.Inside (.text line t) body → p.features.autoescape = true → t ∈ p.good
  filters : ∀ line target name args named,
    Expr.Inside (.filter line target name args named) body → p.Permits name

namespace Policy.Admits

variable {p : Policy} {K : Set Text} {body body' : List Stmt} {s : Stmt}

theorem mono (h : p.Admits body) (hsub : ∀ s ∈ body', s ∈ body) : p.Admits body' where
  texts line t ht := h.texts line t (ht.mono hsub)
  filters line target name args named := by
    rintro ⟨s, hs, he⟩
    exact h.filters line target name args named ⟨s, hs.mono hsub, he⟩

theorem parts (h : p.Admits body) (hs : s ∈ body) : p.Admits s.parts where
  texts line t ht := h.texts line t (.part hs ht)
  filters line target name args named := by
    rintro ⟨t, ht, he⟩
    exact h.filters line target name args named ⟨t, .part hs ht, he⟩

theorem root (h : p.Admits body) (hs : s ∈ body) {e : Expr} (he : e ∈ s.roots) (hK : ∀ n ∈ e.reads, n.text ∈ K) :
    e.Allowed p K := by
  refine fun x hx => ⟨?_, ?_⟩
  · rintro n rfl
    exact hK n (hx.reads (List.mem_singleton.mpr rfl))
  · rintro line target name args named rfl
    exact h.filters line target name args named ⟨s, .here hs, e, he, hx⟩

end Policy.Admits

theorem paramsAllowed_of_mem {p : Policy} {K : Set Text} {pairs : List (Text × Option Expr)}
    (h : ∀ q ∈ pairs, ∀ e ∈ q.2, ∀ L ⊇ K, e.Allowed p L) : paramsAllowed p K pairs := by
  induction pairs generalizing K with
  | nil => trivial
  | cons q pairs ih =>
    obtain ⟨hq, hpairs⟩ := List.forall_mem_cons.mp h
    refine ⟨fun e he => hq e he K subset_rfl, ih fun r hr e he L hL => ?_⟩
    exact hpairs r hr e he L (Set.subset_union_left.trans hL)

theorem mem_of_mem_alignDefaults {count : Nat} {defaults : List Expr} {e : Expr}
    (h : some e ∈ alignDefaults count defaults) : e ∈ defaults := by
  rcases List.mem_append.mp h with h | h
  · exact nomatch List.eq_of_mem_replicate h
  · obtain ⟨e', he', heq⟩ := List.mem_map.mp h
    cases heq
    exact he'

/-- Where all names that are read are known, what is admitted is allowed. -/
theorem Stmt.allowed_of_reads {p : Policy} {K : Set Text} :
    (s : Stmt) → p.Admits [s] → (∀ n ∈ s.reads, n.text ∈ K) → s.Allowed p K
  | text line t, h, _ => h.texts line t (.here (List.mem_singleton.mpr rfl))
  | output _ e, h, hK => h.root (List.mem_singleton.mpr rfl) (List.mem_singleton.mpr rfl) hK
  | perform _ e, h, hK => h.root (List.mem_singleton.mpr rfl) (List.mem_singleton.mpr rfl) hK
  | assign _ _ e, h, hK => h.root (List.mem_singleton.mpr rfl) (List.mem_singleton.mpr rfl) hK
  | branches line bs otherwise, h, hK => by
    have hparts : p.Admits (bs.flatMap (·.2) ++ otherwise) := h.parts (List.mem_singleton.mpr rfl)
    refine ⟨ofBranches bs (fun b hb => ?_) (fun b hb => ?_) (fun b hb s hs n hn => ?_),
      ofBody otherwise ?_ fun s hs n hn => ?_⟩
    · exact h.root (List.mem_singleton.mpr rfl) (List.mem_map_of_mem hb)
        fun n hn => hK n (mem_reads_of_root (List.mem_map_of_mem hb) hn)
    · exact hparts.mono fun s hs => List.mem_append_left _ (List.mem_flatMap.mpr ⟨b, hb, hs⟩)
    · exact hK n (mem_reads_of_part (List.mem_append_left _ (List.mem_flatMap.mpr ⟨b, hb, hs⟩)) hn)
    · exact hparts.mono fun s hs => List.mem_append_right _ hs
    · exact hK n (mem_reads_of_part (List.mem_append_right _ hs) hn)
  | loop line target iter filter body otherwise, h, hK => by
    have hparts : p.Admits (body ++ otherwise) := h.parts (List.mem_singleton.mpr rfl)
    have hroot : ∀ e ∈ iter :: filter.toList, ∀ n ∈ e.reads, n.text ∈ K :=
      fun e he n hn => hK n (mem_reads_of_root he hn)
    refine ⟨?_, fun e he => ?_, ofBody body ?_ fun s hs n hn => .inl (.inl ?_), ofBody otherwise ?_ fun s hs n hn => ?_⟩
    · exact h.root (List.mem_singleton.mpr rfl) List.mem_cons_self (hroot _ List.mem_cons_self)
    · have hmem : e ∈ iter :: filter.toList := List.mem_cons_of_mem _ (Option.mem_toList.mpr he)
      exact h.root (List.mem_singleton.mpr rfl) hmem fun n hn => .inl (hroot e hmem n hn)
    · exact hparts.mono fun s hs => List.mem_append_left _ hs
    · exact hK n (mem_reads_of_part (List.mem_append_left _ hs) hn)
    · exact hparts.mono fun s hs => List.mem_append_right _ hs
    · exact hK n (mem_reads_of_part (List.mem_append_right _ hs) hn)
  | capture line target body, h, hK =>
    ofBody body (h.parts (List.mem_singleton.mpr rfl)) fun _ hs n hn => hK n (mem_reads_of_part hs hn)
  | define line name params defaults body, h, hK => by
    refine ⟨paramsAllowed_of_mem fun q hq e he L hL => ?_, ofBody body (h.parts (List.mem_singleton.mpr rfl))
      fun s hs n hn => .inl (.inl (.inl (.inl (hK n (mem_reads_of_part hs hn)))))⟩
    obtain ⟨param, default?⟩ := q
    cases he
    have hdefault : e ∈ defaults := mem_of_mem_alignDefaults (List.of_mem_zip hq).2
    exact h.root (List.mem_singleton.mpr rfl) hdefault fun n hn => hL (.inl (hK n (mem_reads_of_root hdefault hn)))
where
  ofBody {K : Set Text} : (body : List Stmt) → p.Admits body → (∀ s ∈ body, ∀ n ∈ s.reads, n.text ∈ K) →
      Allowed.ofBody p K body
    | [], _, _ => trivial
    | s :: rest, h, hK =>
      ⟨allowed_of_reads s (h.mono fun t ht => List.mem_cons.mpr (.inl (List.mem_singleton.mp ht)))
          (hK s List.mem_cons_self),
        ofBody rest (h.mono fun t ht => List.mem_cons_of_mem s ht)
          fun t ht n hn => .inl (hK t (List.mem_cons_of_mem s ht) n hn)⟩
  ofBranches {K : Set Text} : (bs : List (Expr × List Stmt)) → (∀ b ∈ bs, b.1.Allowed p K) →
      (∀ b ∈ bs, p.Admits b.2) → (∀ b ∈ bs, ∀ s ∈ b.2, ∀ n ∈ s.reads, n.text ∈ K) → Allowed.ofBranches p K bs
    | [], _, _, _ => trivial
    | (test, body) :: rest, htests, hbodies, hK =>
      ⟨htests _ List.mem_cons_self, ofBody body (hbodies _ List.mem_cons_self) (hK _ List.mem_cons_self),
        ofBranches rest (fun b hb => htests b (List.mem_cons_of_mem _ hb))
          (fun b hb => hbodies b (List.mem_cons_of_mem _ hb)) fun b hb => hK b (List.mem_cons_of_mem _ hb)⟩

theorem bodyAllowed_of_reads {p : Policy} {K : Set Text} {body : List Stmt} (h : p.Admits body)
    (hK : ∀ s ∈ body, ∀ n ∈ s.reads, n.text ∈ K) : bodyAllowed p K body :=
  Stmt.allowed_of_reads.ofBody body h hK

theorem bodyAllowed_of_admits {p : Policy} {body : List Stmt} (h : p.Admits body) :
    bodyAllowed p Set.univ body :=
  bodyAllowed_of_reads h fun _ _ _ _ => trivial

theorem Policy.Admits.free (features : Features) (body : List Stmt) : (Policy.free features).Admits body where
  texts _ _ _ _ := trivial
  filters _ _ _ _ _ _ _ _ := trivial

/-- Where every text is good, a macro is allowed that reads known names only. -/
theorem Macro.allowed_of_reads (features : Features) {K : Set Text} (m : Macro)
    (hdefaults : ∀ e ∈ m.defaults, ∀ n ∈ e.reads, n.text ∈ K) (hbody : ∀ s ∈ m.body, ∀ n ∈ s.reads, n.text ∈ K) :
    m.Allowed (.free features) K := by
  refine ⟨paramsAllowed_of_mem fun q hq e he L hL x hx => ⟨?_, fun _ _ _ _ _ _ _ _ => trivial⟩, ?_⟩
  · rintro n rfl
    obtain ⟨param, default?⟩ := q
    cases he
    have hdefault : e ∈ m.defaults := mem_of_mem_alignDefaults (List.of_mem_zip hq).2
    exact hL (hdefaults e hdefault n (hx.reads (List.mem_singleton.mpr rfl)))
  · exact bodyAllowed_of_reads (.free features m.body) fun s hs n hn => .inl (.inl (.inl (hbody s hs n hn)))

theorem Macro.allowed_free (features : Features) (m : Macro) : m.Allowed (.free features) Set.univ :=
  m.allowed_of_reads features (fun _ _ _ _ => trivial) fun _ _ _ _ => trivial

end Stencil
