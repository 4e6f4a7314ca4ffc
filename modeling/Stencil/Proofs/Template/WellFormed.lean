import Stencil.Proofs.Template.ParsedTree
import Stencil.Proofs.Template.TokenPlaces
import Stencil.Render.Environment

/-!
What every parsed tree satisfies, node by node: no comparison without a comparand, no filter or test that the dialect
does not know, no macro with more defaults than parameters.
-/

namespace Stencil

/-- The lines that a statement records itself: its own and those of the names it binds. -/
def Stmt.lines : Stmt → List Nat
  | text l _ | output l _ | branches l _ _ | perform l _ => [l]
  | loop l target _ _ _ _ | assign l target _ | capture l target _ => l :: target.lines
  | define l _ params _ _ => l :: params.map (·.line)

/-- What an expression satisfies by itself. -/
def Expr.Formed (dialect : Dialect) : Expr → Prop
  | compare _ _ rest => rest ≠ []
  | filter _ _ f _ _ => f ∈ dialect.filters
  | test _ _ t _ _ _ => t ∈ dialect.tests
  | _ => True

/-- What a statement satisfies by itself. -/
def Stmt.Formed (dialect : Dialect) : Stmt → Prop
  | branches _ bs _ => bs ≠ []
  | define _ _ params defaults _ => defaults.length ≤ params.length
  | perform _ _ => dialect.performs
  | _ => True

section everywhere

variable {dialect : Dialect} {G : Nat → Prop} {P : Expr → Prop} {Q : Stmt → Prop} {e : Expr} {s : Stmt}

/-- Being such in all parts, and as a whole. -/
def Expr.All (P : Expr → Prop) (e : Expr) : Prop := ∀ x : Expr, x.Within e → P x

def Stmt.All (P : Expr → Prop) (Q : Stmt → Prop) (s : Stmt) : Prop :=
  (∀ t : Stmt, t.Inside [s] → Q t) ∧ ∀ x : Expr, x.Inside [s] → P x

theorem Expr.All.of_parts (he : P e) (hp : ∀ p ∈ e.parts, p.All P) : e.All P := by
  intro x hx
  rcases Expr.within_iff.mp hx with rfl | ⟨y, hy, hx⟩
  · exact he
  · exact hp y hy x hx

theorem Expr.All.part (h : e.All P) {p : Expr} (hp : p ∈ e.parts) : p.All P := fun x hx => h x (.part hp hx)

/-- What stands in a body stands in one of its statements. -/
theorem Stmt.Inside.of_mem {x : Stmt} {body : List Stmt} (h : x.Inside body) : ∃ s ∈ body, x.Inside [s] := by
  cases h with
  | here hx => exact ⟨x, hx, .here List.mem_cons_self⟩
  | part hs hx => exact ⟨_, hs, .part List.mem_cons_self hx⟩

theorem Stmt.All.of_parts (hs : Q s) (hr : ∀ e ∈ s.roots, e.All P) (hp : ∀ t ∈ s.parts, t.All P Q) : s.All P Q := by
  constructor
  · intro t ht
    rcases Stmt.inside_cons.mp ht with rfl | ht | ht
    · exact hs
    · obtain ⟨part, hpart, ht⟩ := ht.of_mem
      exact (hp part hpart).1 t ht
    · exact (Stmt.inside_nil ht).elim
  · rintro x ⟨t, ht, root, hroot, hx⟩
    rcases Stmt.inside_cons.mp ht with rfl | ht | ht
    · exact hr root hroot x hx
    · obtain ⟨part, hpart, ht⟩ := ht.of_mem
      exact (hp part hpart).2 x ⟨t, ht, root, hroot, hx⟩
    · exact (Stmt.inside_nil ht).elim

/-- What follows for each node from its lines and its form is true of all nodes of a tree. -/
theorem Parser.construction_all (hfirst : G 1) (hline : ∀ e, P e → G e.line)
    (hexpr : ∀ e : Expr, G e.line → e.Formed dialect → P e)
    (hstmt : ∀ s : Stmt, (∀ l ∈ s.lines, G l) → s.Formed dialect → Q s) :
    Construction dialect G (Expr.All P) (Stmt.All P Q) where
  first := hfirst
  line he := hline _ (he _ .whole)
  items h e he := h.part he
  name hl := .of_parts (hexpr _ hl trivial) (by simp [Expr.parts])
  const hl := .of_parts (hexpr _ hl trivial) (by simp [Expr.parts])
  list hl hes := .of_parts (hexpr _ hl trivial) hes
  tuple hl hes := .of_parts (hexpr _ hl trivial) hes
  dict hl hps := .of_parts (hexpr _ hl trivial) (by
    simp only [Expr.parts, List.mem_flatMap]
    rintro x ⟨p, hp, hx⟩
    rcases List.mem_pair.mp hx with rfl | rfl
    · exact (hps p hp).1
    · exact (hps p hp).2)
  member hl ht := .of_parts (hexpr _ hl trivial) (by simpa [Expr.parts] using ht)
  item hl ht hk := .of_parts (hexpr _ hl trivial) (by simp [Expr.parts, ht, hk])
  slice hl ht h₁ h₂ h₃ := .of_parts (hexpr _ hl trivial) (by
    simp only [Expr.parts, List.mem_cons, List.mem_append, Option.mem_toList]
    rintro x (rfl | (hx | hx) | hx)
    · exact ht
    · exact h₁ x hx
    · exact h₂ x hx
    · exact h₃ x hx)
  call hl hc ha hn := .of_parts (hexpr _ hl trivial) (called hc ha hn)
  filter hf hl ht ha hn := .of_parts (hexpr _ hl (List.contains_iff_mem.mp hf)) (called ht ha hn)
  test hf hl ht ha hn := .of_parts (hexpr _ hl (List.contains_iff_mem.mp hf)) (called ht ha hn)
  not hl he := .of_parts (hexpr _ hl trivial) (by simpa [Expr.parts] using he)
  signed hl he := .of_parts (hexpr _ hl trivial) (by simpa [Expr.parts] using he)
  binary hl ha hb := .of_parts (hexpr _ hl trivial) (by simp [Expr.parts, ha, hb])
  logical hl ha hb := .of_parts (hexpr _ hl trivial) (by simp [Expr.parts, ha, hb])
  compare hl he hne hr := .of_parts (hexpr _ hl hne) (by
    simp only [Expr.parts, List.mem_cons, List.mem_map]
    rintro x (rfl | ⟨p, hp, rfl⟩)
    · exact he
    · exact hr p hp)
  cond hl hv ht ho := .of_parts (hexpr _ hl trivial) (by
    simp only [Expr.parts, List.mem_cons, Option.mem_toList]
    rintro x (rfl | rfl | hx)
    · exact hv
    · exact ht
    · exact ho x hx)
  text hl := .of_parts (hstmt _ (by simpa [Stmt.lines] using hl) trivial) (by simp [Stmt.roots]) (by simp [Stmt.parts])
  output hl he := .of_parts (hstmt _ (by simpa [Stmt.lines] using hl) trivial) (by simpa [Stmt.roots] using he)
    (by simp [Stmt.parts])
  branches hl hne hbs ho := .of_parts (hstmt _ (by simpa [Stmt.lines] using hl) hne)
    (by
      simp only [Stmt.roots, List.mem_map]
      rintro e ⟨b, hb, rfl⟩
      exact (hbs b hb).1)
    (by
      simp only [Stmt.parts, List.mem_append, List.mem_flatMap]
      rintro t (⟨b, hb, ht⟩ | ht)
      · exact (hbs b hb).2 t ht
      · exact ho t ht)
  loop hl ht hi hf hb ho := .of_parts (hstmt _ (List.forall_mem_cons.mpr ⟨hl, ht⟩) trivial)
    (List.forall_mem_cons.mpr ⟨hi, fun e he => hf e (Option.mem_toList.mp he)⟩) (List.forall_mem_append.mpr ⟨hb, ho⟩)
  assign hl ht he := .of_parts (hstmt _ (List.forall_mem_cons.mpr ⟨hl, ht⟩) trivial) (by simpa [Stmt.roots] using he)
    (by simp [Stmt.parts])
  capture hl ht hb := .of_parts (hstmt _ (List.forall_mem_cons.mpr ⟨hl, ht⟩) trivial) (by simp [Stmt.roots]) hb
  define hl hp hle hd hb := .of_parts (hstmt _ (List.forall_mem_cons.mpr ⟨hl, by simpa using hp⟩) hle) hd hb
  perform hp hl he := .of_parts (hstmt _ (by simpa [Stmt.lines] using hl) hp) (by simpa [Stmt.roots] using he)
    (by simp [Stmt.parts])
where
  called {t : Expr} {args : List Expr} {named : List (Text × Expr)} (ht : t.All P) (ha : ∀ e ∈ args, e.All P)
      (hn : ∀ p ∈ named, p.2.All P) : ∀ e ∈ t :: (args ++ named.map (·.2)), e.All P := by
    simp only [List.mem_cons, List.mem_append, List.mem_map]
    rintro x (rfl | hx | ⟨p, hp, rfl⟩)
    · exact ht
    · exact ha x hx
    · exact hn p hp

end everywhere

/-! ## Well-formed templates -/

/-- What a name is for where it stands. -/
inductive NameContext where
  | load | store | param
deriving DecidableEq, Repr

namespace Stmt

/-- What a statement assigns to. -/
def target? : Stmt → Option Target
  | loop _ target _ _ _ _ | assign _ target _ | capture _ target _ => some target
  | _ => none

def params : Stmt → List Name
  | define _ _ params _ _ => params
  | _ => []

/-- The names that stand in a statement itself, each with what it is for. -/
def occurrences (s : Stmt) : List (Name × NameContext) :=
  s.target?.toList.flatMap (·.names.map (·, .store)) ++ s.params.map (·, .param) ++
    s.roots.flatMap (·.reads.map (·, .load))

/-- The names of targets are stored, parameters are parameters, and all other names are read. -/
structure Uses (s : Stmt) : Prop where
  store {n : Name} : (n, .store) ∈ s.occurrences ↔ ∃ target ∈ s.target?, n ∈ target.names
  param {n : Name} : (n, .param) ∈ s.occurrences ↔ n ∈ s.params
  load {n : Name} : (n, .load) ∈ s.occurrences ↔ ∃ e ∈ s.roots, (Expr.name n).Within e

theorem uses (s : Stmt) : s.Uses where
  store := by simp [occurrences]
  param := by simp [occurrences]
  load := by simp [occurrences, Expr.mem_reads_iff]

/-- A template in which each node is formed as a dialect has it. -/
structure WellFormed (dialect : Dialect) (body : List Stmt) : Prop where
  uses {s : Stmt} (h : s.Inside body) : s.Uses
  stmt {s : Stmt} (h : s.Inside body) : s.Formed dialect
  expr {e : Expr} (h : e.Inside body) : e.Formed dialect

end Stmt

theorem wellFormed_parse {env : Environment} {source : Text} {body : List Stmt} (h : env.parse source = .ok body) :
    Stmt.WellFormed env.dialect body := by
  obtain ⟨tokens, _, hparse⟩ := Lexer.bind_eq_ok h
  have hconstruction : Parser.Construction env.dialect (fun _ => True) (Expr.All (Expr.Formed env.dialect))
      (Stmt.All (Expr.Formed env.dialect) (Stmt.Formed env.dialect)) :=
    Parser.construction_all trivial (fun _ _ => trivial) (fun _ _ he => he) fun _ _ hs => hs
  have hall := Parser.parse_of_construction hconstruction (fun k (_ : k ∈ tokens) => trivial)
  rw [hparse] at hall
  have hstmt : ∀ {s : Stmt}, s.Inside body → s.All (Expr.Formed env.dialect) (Stmt.Formed env.dialect) := by
    intro s hs
    obtain ⟨t, ht, hin⟩ := hs.of_mem
    obtain ⟨hstmts, hexprs⟩ := hall t ht
    exact ⟨fun _ hx => hstmts _ (hx.trans hin), fun _ hx => hexprs _ (hx.of_inside hin)⟩
  refine ⟨fun _ => Stmt.uses _, fun hs => (hstmt hs).1 _ (.here List.mem_cons_self), ?_⟩
  rintro e ⟨s, hs, root, hroot, he⟩
  exact (hstmt hs).2 e (.of_root hroot he)

end Stencil
