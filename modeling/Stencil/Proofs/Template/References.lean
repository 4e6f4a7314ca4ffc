import Stencil.Proofs.Template.Declared
import Stencil.Proofs.Template.ReadOrder
import Stencil.Proofs.Template.TokenPlaces

/-!
The references to names: the walk with a stack finds what the tree reads, in the order of the source, and
misses no name that is read undeclared.
-/

namespace Stencil

namespace Node

/-- The names that are read at a node and below it. -/
def reads : Node → List Name
  | template body => body.flatMap Stmt.reads
  | stmt s => s.reads
  | expr e => e.reads
  | target _ | bound _ => []

theorem flatMap_reads_stmt (body : List Stmt) : (body.map stmt).flatMap reads = body.flatMap Stmt.reads := by
  rw [List.flatMap_map]
  rfl

theorem flatMap_reads_expr (es : List Expr) : (es.map expr).flatMap reads = es.flatMap Expr.reads := by
  rw [List.flatMap_map]
  rfl

theorem flatMap_reads_bound (ns : List Name) : (ns.map bound).flatMap reads = [] := by
  rw [List.flatMap_map]
  exact List.flatMap_eq_nil_iff.mpr fun _ _ => rfl

theorem flatMap_reads_branches (bs : List (Expr × List Stmt)) :
    (bs.flatMap fun b => expr b.1 :: b.2.map stmt).flatMap reads = Stmt.reads.readsOfBranches bs := by
  rw [Stmt.readsOfBranches_eq_flatMap, List.flatMap_assoc]
  exact List.flatMap_congr fun b _ => congrArg (b.1.reads ++ ·) (flatMap_reads_stmt b.2)

theorem reads_stmt (s : Stmt) : s.reads = s.children.flatMap reads := by
  cases s with
  | loop l target iter filter body otherwise =>
    have hfilter : (filter.map Expr.reads).getD [] = filter.toList.flatMap Expr.reads := by cases filter <;> simp
    simp only [Stmt.reads, Stmt.children, Stmt.readsOfList_eq_flatMap, List.flatMap_cons, List.flatMap_append,
      flatMap_reads_stmt, flatMap_reads_expr, hfilter, reads, List.nil_append, List.append_assoc]
  | branches l bs otherwise =>
    simp only [Stmt.reads, Stmt.children, Stmt.readsOfList_eq_flatMap, List.flatMap_append, flatMap_reads_stmt,
      flatMap_reads_branches]
  | _ =>
    simp [Stmt.reads, Stmt.children, Stmt.readsOfList_eq_flatMap, flatMap_reads_stmt, flatMap_reads_expr,
      flatMap_reads_bound, reads]

/-- A node reads its own name, and then what its children read, one after the other. -/
theorem reads_eq (node : Node) : node.reads = node.read?.toList ++ node.children.flatMap reads := by
  cases node with
  | template body => simp [reads, read?, children, flatMap_reads_stmt]
  | stmt s => simpa [reads, read?, children] using reads_stmt s
  | expr e => rw [children, flatMap_reads_expr, reads, e.reads_eq]
  | target t => cases t <;> simp [reads, read?, children, flatMap_reads_bound]
  | bound n => rfl

end Node

/-- The walk finds what the nodes on its stack read, from the top on. -/
theorem referencesFrom_eq (names : List Text) (stack : List Node) :
    referencesFrom names stack = (stack.flatMap Node.reads).filter (names.contains ·.text) := by
  fun_induction referencesFrom names stack with
  | case1 => rfl
  | case2 node rest found ih =>
    rw [ih, List.flatMap_append, List.flatMap_cons, node.reads_eq, List.append_assoc]
    exact (List.filter_append _ _).symm

theorem nameReferences_eq (body : List Stmt) (names : List Text) :
    nameReferences body names = (body.flatMap Stmt.reads).filter (names.contains ·.text) := by
  rw [nameReferences, referencesFrom_eq]
  simp [Node.reads]

namespace Declarations

variable {d : Declarations} {x : Text}

theorem undeclared_visit {e : Expr} (hx : x ∈ (d.visit e).undeclared) :
    x ∈ d.undeclared ∨ x ∈ e.reads.map (·.text) :=
  (mem_visit.mp hx).imp_right fun ⟨⟨n, hn, htext⟩, _⟩ => List.mem_map.mpr ⟨n, hn, htext⟩

/-- Parameters add what their defaults read. -/
theorem undeclared_params (pairs : List (Name × Option Expr)) (d : Declarations) :
    ∀ x ∈ (d.afterParams pairs).undeclared,
      x ∈ d.undeclared ∨ ∃ e, some e ∈ pairs.map (·.2) ∧ x ∈ e.reads.map (·.text) := by
  induction pairs generalizing d with
  | nil => exact fun x hx => .inl hx
  | cons q pairs ih =>
    intro x hx
    rcases ih _ x hx with hx | ⟨e, he, hx⟩
    · obtain ⟨param, default?⟩ := q
      cases default? with
      | none => exact .inl hx
      | some e => exact (undeclared_visit hx).imp_right fun hx => ⟨e, List.mem_cons_self, hx⟩
    · exact .inr ⟨e, List.mem_cons_of_mem _ he, hx⟩

/-- What a parameter has as its default is one of the defaults. -/
theorem mem_alignDefaults {params : List Name} {count : Nat} {defaults : List Expr} {e : Expr}
    (he : some e ∈ (params.zip (alignDefaults count defaults)).map (·.2)) : e ∈ defaults := by
  obtain ⟨q, hq, hsome⟩ := List.mem_map.mp he
  have hmem : some e ∈ alignDefaults count defaults := hsome ▸ (List.of_mem_zip hq).2
  simpa [alignDefaults] using hmem

end Declarations

namespace Stmt

variable {n : Name} {body : List Stmt}

/-- What a statement reads, an expression of its own reads or one of its parts. -/
theorem mem_reads_stmt (s : Stmt) :
    n ∈ s.reads ↔ (∃ e ∈ s.roots, n ∈ e.reads) ∨ ∃ t ∈ s.parts, n ∈ t.reads := by
  rw [Node.reads_stmt]
  cases s with
  | branches l bs otherwise =>
    simp only [children, roots, parts, List.mem_flatMap, List.mem_append, List.mem_cons, List.mem_map]
    constructor
    · rintro ⟨node, ⟨b, hb, rfl | ⟨t, ht, rfl⟩⟩ | ⟨t, ht, rfl⟩, hn⟩
      · exact .inl ⟨b.1, ⟨b, hb, rfl⟩, hn⟩
      · exact .inr ⟨t, .inl ⟨b, hb, ht⟩, hn⟩
      · exact .inr ⟨t, .inr ht, hn⟩
    · rintro (⟨_, ⟨b, hb, rfl⟩, hn⟩ | ⟨t, ⟨b, hb, ht⟩ | ht, hn⟩)
      · exact ⟨_, .inl ⟨b, hb, .inl rfl⟩, hn⟩
      · exact ⟨_, .inl ⟨b, hb, .inr ⟨t, ht, rfl⟩⟩, hn⟩
      · exact ⟨_, .inr ⟨t, ht, rfl⟩, hn⟩
  | loop l target iter filter body otherwise =>
    simp only [children, roots, parts, List.flatMap_cons, List.flatMap_append, Node.flatMap_reads_stmt,
      Node.flatMap_reads_expr, Node.reads, List.nil_append, List.mem_append, List.mem_flatMap, List.mem_cons]
    grind
  | define l name params defaults body =>
    simp only [children, roots, parts, List.flatMap_append, Node.flatMap_reads_stmt, Node.flatMap_reads_expr,
      Node.flatMap_reads_bound, List.nil_append, List.mem_append, List.mem_flatMap]
  | _ => simp [children, roots, parts, Node.flatMap_reads_stmt, Node.reads]

/-- What a body reads are the name nodes of its expressions, at any depth. -/
theorem mem_flatMap_reads_iff (body : List Stmt) :
    n ∈ body.flatMap reads ↔ (Expr.name n).Inside body := by
  constructor
  · intro h
    obtain ⟨s, hs, hn⟩ := List.mem_flatMap.mp h
    exact inside s hs hn
  · rintro ⟨s, hs, e, he, hn⟩
    have hreads : n ∈ s.reads := (mem_reads_stmt s).mpr (.inl ⟨e, he, e.mem_reads_iff.mpr hn⟩)
    clear he hn
    induction hs with
    | here h => exact List.mem_flatMap.mpr ⟨s, h, hreads⟩
    | part ht _ ih =>
      obtain ⟨u, hu, hn⟩ := List.mem_flatMap.mp ih
      exact List.mem_flatMap.mpr ⟨_, ht, (mem_reads_stmt _).mpr (.inr ⟨u, hu, hn⟩)⟩
where
  inside {body : List Stmt} (s : Stmt) (hs : s ∈ body) (hn : n ∈ s.reads) : (Expr.name n).Inside body := by
    rcases (mem_reads_stmt s).mp hn with ⟨e, he, hn⟩ | ⟨t, ht, hn⟩
    · exact ⟨s, .here hs, e, he, e.mem_reads_iff.mp hn⟩
    · obtain ⟨x, hx, hrest⟩ := inside t ht hn
      exact ⟨x, .part hs hx, hrest⟩
  termination_by sizeOf s
  decreasing_by exact sizeOf_lt_of_mem_parts ht

open Declarations

/-- What is found undeclared was found before or is read. -/
theorem undeclared_read : (s : Stmt) → (d : Declarations) → ∀ x ∈ (s.declarations d).undeclared,
    x ∈ d.undeclared ∨ x ∈ s.reads.map (·.text)
  | text _ _, _ => fun _ hx => .inl hx
  | output _ e, d | perform _ e, d | assign _ _ e, d => fun _ hx => undeclared_visit hx
  | branches _ bs otherwise, d => by
    intro x hx
    rw [reads, List.map_append, List.mem_append]
    rcases ofList otherwise _ x hx with hx | hx
    · exact (ofBranches bs d x hx).imp_right .inl
    · exact .inr (.inr hx)
  | loop _ target iter filter body otherwise, d => by
    intro x hx
    have hfilter : ∀ x ∈ (d.inLap target iter filter).undeclared,
        x ∈ (d.visit iter).undeclared ∨ x ∈ ((filter.map Expr.reads).getD []).map (·.text) := by
      cases filter with
      | none => exact fun x hx => .inl hx
      | some e => exact fun x hx => undeclared_visit (d := d.inLoop target iter) hx
    simp only [reads, List.map_append, List.mem_append]
    rcases ofList otherwise _ x hx with hx | hx
    · rcases ofList body _ x hx with hx | hx
      · rcases hfilter x hx with hx | hx
        · exact (undeclared_visit hx).imp_right fun h => .inl (.inl (.inl h))
        · exact .inr (.inl (.inl (.inr hx)))
      · exact .inr (.inl (.inr hx))
    · exact .inr (.inr hx)
  | capture _ _ body, d => ofList body d
  | define _ name params defaults body, d => by
    intro x hx
    rw [reads, List.map_append, List.mem_append]
    rcases ofList body _ x hx with hx | hx
    · rcases undeclared_params _ _ x hx with hx | ⟨e, he, hx⟩
      · exact .inl hx
      · obtain ⟨n, hn, rfl⟩ := List.mem_map.mp hx
        exact .inr (.inl (List.mem_map_of_mem (List.mem_flatMap.mpr ⟨e, mem_alignDefaults he, hn⟩)))
    · exact .inr (.inr hx)
where
  ofList : (body : List Stmt) → (d : Declarations) → ∀ x ∈ (declarations.ofList d body).undeclared,
      x ∈ d.undeclared ∨ x ∈ (reads.readsOfList body).map (·.text)
    | [], _ => fun _ hx => .inl hx
    | s :: rest, d => by
      intro x hx
      rw [reads.readsOfList, List.map_append, List.mem_append]
      rcases ofList rest _ x hx with hx | hx
      · exact (undeclared_read s d x hx).imp_right .inl
      · exact .inr (.inr hx)
  ofBranches : (bs : List (Expr × List Stmt)) → (d : Declarations) →
      ∀ x ∈ (declarations.ofBranches d bs).undeclared,
        x ∈ d.undeclared ∨ x ∈ (reads.readsOfBranches bs).map (·.text)
    | [], _ => fun _ hx => .inl hx
    | (test, body) :: rest, d => by
      intro x hx
      simp only [reads.readsOfBranches, List.map_append, List.mem_append]
      rcases ofBranches rest _ x hx with hx | hx
      · rcases ofList body _ x hx with hx | hx
        · exact (undeclared_visit hx).imp_right fun h => .inl (.inl h)
        · exact .inr (.inl (.inr hx))
      · exact .inr (.inr hx)

end Stmt

/-- Every name that is found undeclared is read somewhere. -/
theorem undeclaredNames_read {body : List Stmt} {x : Text} (hx : x ∈ undeclaredNames body) :
    ∃ n ∈ body.flatMap Stmt.reads, n.text = x := by
  rw [undeclaredNames, ← Stmt.ofList_eq_foldl] at hx
  rcases Stmt.undeclared_read.ofList body _ x hx with hx | hx
  · exact nomatch hx
  · rw [Stmt.readsOfList_eq_flatMap] at hx
    exact List.mem_map.mp hx

/-- The name tokens of a source stand at different places, in their order. -/
theorem Lexer.names_increase {source : Text} {keep : Bool} {tokens : List Token} (h : tokenize source keep = .ok tokens) :
    (tokens.filterMap Token.name?).Pairwise fun n m => n.offset < m.offset := by
  have hfinishes := finishes_tokenize source keep
  rw [h] at hfinishes
  obtain ⟨-, past, horder⟩ := hfinishes
  refine List.pairwise_filterMap.mpr (horder.increasing.imp ?_)
  intro k l hlt n hn m hm
  have hoffset : ∀ {k : Token} {n : Name}, k.name? = some n → n.offset = k.offset := by
    intro k n hn
    unfold Token.name? at hn
    split at hn
    · cases hn
      rfl
    · cases hn
  rw [hoffset hn, hoffset hm]
  exact hlt

/-- The references to some names are the nodes of the tree that read them, in the order of a walk that takes
every node before its children; each stands at a place of its own, in the order of the tokens. Names that are
found undeclared are referred to. -/
theorem nameReferences_exact {dialect : Dialect} {source : Text} {keep : Bool} {tokens : List Token}
    {body : List Stmt} (htokens : Lexer.tokenize source keep = .ok tokens)
    (hbody : Parser.parse dialect tokens = .ok body) (names : List Text) :
    nameReferences body names = (Node.template body).reads.filter (names.contains ·.text) ∧
      (∀ n, n ∈ nameReferences body names ↔ (Expr.name n).Inside body ∧ n.text ∈ names) ∧
      (nameReferences body names).Sublist (tokens.filterMap Token.name?) ∧
      (nameReferences body names).Pairwise (fun n m => n.offset < m.offset) ∧
      ∀ x ∈ undeclaredNames body, x ∈ names → ∃ n ∈ nameReferences body names, n.text = x := by
  have hmem : ∀ n, n ∈ nameReferences body names ↔ (Expr.name n).Inside body ∧ n.text ∈ names := by
    intro n
    rw [nameReferences_eq, List.mem_filter, Stmt.mem_flatMap_reads_iff, List.contains_iff_mem]
  have hsublist : (nameReferences body names).Sublist (tokens.filterMap Token.name?) := by
    rw [nameReferences_eq]
    exact List.filter_sublist.trans (Parser.reads_parse hbody)
  refine ⟨nameReferences_eq body names, hmem, hsublist, (Lexer.names_increase htokens).sublist hsublist, ?_⟩
  intro x hx hname
  obtain ⟨n, hn, rfl⟩ := undeclaredNames_read hx
  exact ⟨n, (hmem n).mpr ⟨(Stmt.mem_flatMap_reads_iff body).mp hn, hname⟩, rfl⟩

/-- A loop with a filter, a slice, a conditional and an argument by keyword keep the order. -/
theorem nameReferences_exact_of_nesting : ∃ tokens body,
    Lexer.tokenize "\x7b% for a in b if c %\x7d\x7b\x7b a[c:d] if e else f(g=b) \x7d\x7d\x7b% endfor %\x7d" true =
        .ok tokens ∧
      Parser.parse ⟨false, [], []⟩ tokens = .ok body ∧
      (nameReferences body ["b", "c", "f"]).map Name.offset = [12, 17, 26, 41, 45] ∧
      (nameReferences body ["b", "c", "f"]).Sublist (tokens.filterMap Token.name?) := by
  have hrun : (match Lexer.tokenize
      "\x7b% for a in b if c %\x7d\x7b\x7b a[c:d] if e else f(g=b) \x7d\x7d\x7b% endfor %\x7d" true with
      | .ok tokens => match Parser.parse ⟨false, [], []⟩ tokens with
        | .ok body => decide ((nameReferences body ["b", "c", "f"]).map Name.offset = [12, 17, 26, 41, 45])
        | .error _ => false
      | .error _ => false) = true := by decide +kernel
  split at hrun
  · rename_i tokens htokens
    split at hrun
    · rename_i body hbody
      obtain ⟨-, -, hsublist, -⟩ := nameReferences_exact htokens hbody ["b", "c", "f"]
      exact ⟨tokens, body, htokens, hbody, of_decide_eq_true hrun, hsublist⟩
    · cases hrun
  · cases hrun

end Stencil
