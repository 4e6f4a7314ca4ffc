import Stencil.Template.Tree

/-!
The nodes of a tree, each with its children in the order of the source. A walk that goes on with the children
of a node ends, because together they are smaller than it.
-/

namespace Stencil

/-- The expressions that an expression is put together from, in the order of the source. -/
def Expr.parts : Expr → List Expr
  | name _ | const _ _ => []
  | list _ es | tuple _ es => es
  | dict _ entries => entries.flatMap fun p => [p.1, p.2]
  | member _ target _ => [target]
  | item _ target key => [target, key]
  | slice _ target start stop step => target :: (start.toList ++ stop.toList ++ step.toList)
  | call _ callee args named => callee :: (args ++ named.map (·.2))
  | filter _ target _ args named => target :: (args ++ named.map (·.2))
  | test _ target _ args named _ => target :: (args ++ named.map (·.2))
  | not _ operand | signed _ _ operand => [operand]
  | binary _ _ left right | logical _ _ left right => [left, right]
  | compare _ first rest => first :: rest.map (·.2)
  | cond _ value check otherwise => value :: check :: otherwise.toList

/-- What a tree is made of. Names that are bound rather than read stand in targets and parameters. -/
inductive Node where
  | template (body : List Stmt)
  | stmt (s : Stmt)
  | expr (e : Expr)
  | target (t : Target)
  | bound (n : Name)

/-- The nodes right below a statement, in the order of the source; the defaults of a macro stand after all of
its parameters. -/
def Stmt.children : Stmt → List Node
  | text _ _ => []
  | output _ e | perform _ e => [.expr e]
  | branches _ bs otherwise =>
    bs.flatMap (fun b => .expr b.1 :: b.2.map .stmt) ++ otherwise.map .stmt
  | loop _ target iter filter body otherwise =>
    .target target :: .expr iter :: (filter.toList.map .expr ++ body.map .stmt ++ otherwise.map .stmt)
  | assign _ target value => [.target target, .expr value]
  | capture _ target body => .target target :: body.map .stmt
  | define _ _ params defaults body => params.map .bound ++ defaults.map .expr ++ body.map .stmt

namespace Node

/-- The nodes right below a node. -/
def children : Node → List Node
  | template body => body.map stmt
  | stmt s => s.children
  | expr e => e.parts.map expr
  | target (.name _) | bound _ => []
  | target (.tuple _ items) => items.map bound

/-- The name that a node reads. -/
def read? : Node → Option Name
  | expr (.name n) => some n
  | _ => none

noncomputable def weight : Node → Nat
  | template body => 1 + sizeOf body
  | stmt s => sizeOf s
  | expr e => sizeOf e
  | target t => sizeOf t
  | bound n => sizeOf n

end Node

/-- The sum of a measure over a list. -/
def sumOf {α : Type} (f : α → Nat) : List α → Nat
  | [] => 0
  | x :: xs => f x + sumOf f xs

section sumOf

variable {α β : Type}

@[simp] theorem sumOf_nil (f : α → Nat) : sumOf f [] = 0 := rfl

@[simp] theorem sumOf_cons (f : α → Nat) (x : α) (xs : List α) : sumOf f (x :: xs) = f x + sumOf f xs := rfl

@[simp] theorem sumOf_append (f : α → Nat) (xs ys : List α) : sumOf f (xs ++ ys) = sumOf f xs + sumOf f ys := by
  induction xs with
  | nil => simp
  | cons x xs ih =>
    simp only [List.cons_append, sumOf_cons, ih]
    omega

theorem le_sumOf {f : α → Nat} {x : α} {xs : List α} (h : x ∈ xs) : f x ≤ sumOf f xs := by
  induction xs with
  | nil => cases h
  | cons y ys ih =>
    rw [sumOf_cons]
    rcases List.mem_cons.mp h with rfl | h
    · omega
    · have hle := ih h
      omega

variable [SizeOf α] [SizeOf β]

theorem sumOf_sizeOf_le (xs : List α) : sumOf sizeOf xs ≤ sizeOf xs := by
  induction xs with
  | nil => simp
  | cons x xs ih =>
    simp only [sumOf_cons, List.cons.sizeOf_spec]
    omega

theorem sumOf_sizeOf_snd_le (ps : List (α × β)) : sumOf sizeOf (ps.map (·.2)) ≤ sizeOf ps := by
  induction ps with
  | nil => simp
  | cons p ps ih =>
    obtain ⟨a, b⟩ := p
    simp only [List.map_cons, sumOf_cons, List.cons.sizeOf_spec, Prod.mk.sizeOf_spec]
    omega

theorem sumOf_sizeOf_toList_le (x? : Option α) : sumOf sizeOf x?.toList ≤ sizeOf x? := by
  cases x? with
  | none => simp
  | some x => simp

end sumOf

theorem Expr.sizeOf_parts (e : Expr) : sumOf sizeOf e.parts < sizeOf e := by
  cases e with
  | name n =>
    simp only [parts, sumOf_nil, name.sizeOf_spec]
    omega
  | const l v =>
    simp only [parts, sumOf_nil, const.sizeOf_spec]
    omega
  | list l es | tuple l es =>
    have hes := sumOf_sizeOf_le es
    simp only [parts, list.sizeOf_spec, tuple.sizeOf_spec]
    omega
  | dict l ps =>
    have hps : sumOf sizeOf (ps.flatMap fun p => [p.1, p.2]) ≤ sizeOf ps := by
      induction ps with
      | nil => simp
      | cons p ps ih =>
        obtain ⟨a, b⟩ := p
        simp only [List.flatMap_cons, List.cons_append, List.nil_append, sumOf_cons,
          List.cons.sizeOf_spec, Prod.mk.sizeOf_spec]
        omega
    simp only [parts, dict.sizeOf_spec]
    omega
  | slice l t start stop step =>
    have hstart := sumOf_sizeOf_toList_le start
    have hstop := sumOf_sizeOf_toList_le stop
    have hstep := sumOf_sizeOf_toList_le step
    simp only [parts, sumOf_cons, sumOf_append, slice.sizeOf_spec]
    omega
  | call l t args named | filter l t _ args named | test l t _ args named _ =>
    have hargs := sumOf_sizeOf_le args
    have hnamed := sumOf_sizeOf_snd_le named
    simp only [parts, sumOf_cons, sumOf_append, call.sizeOf_spec,
      filter.sizeOf_spec, test.sizeOf_spec]
    omega
  | compare l t rest =>
    have hrest := sumOf_sizeOf_snd_le rest
    simp only [parts, sumOf_cons, compare.sizeOf_spec]
    omega
  | cond l v t otherwise =>
    have hotherwise := sumOf_sizeOf_toList_le otherwise
    simp only [parts, sumOf_cons, cond.sizeOf_spec]
    omega
  | _ =>
    simp only [parts, sumOf_cons, sumOf_nil, member.sizeOf_spec, item.sizeOf_spec,
      not.sizeOf_spec, signed.sizeOf_spec, binary.sizeOf_spec, logical.sizeOf_spec]
    omega

namespace Node

theorem sumOf_weight_map {α : Type} [SizeOf α] (node : α → Node) (h : ∀ x, (node x).weight = sizeOf x) (xs : List α) :
    sumOf weight (xs.map node) = sumOf sizeOf xs := by
  induction xs with
  | nil => rfl
  | cons x xs ih => rw [List.map_cons, sumOf_cons, sumOf_cons, h, ih]

/-- The nodes below a statement are smaller than it. -/
theorem weight_stmt_children (s : Stmt) : sumOf weight s.children < sizeOf s := by
  have stmts : ∀ body : List Stmt, sumOf weight (body.map stmt) ≤ sizeOf body := fun body => by
    rw [sumOf_weight_map stmt fun _ => rfl]
    exact sumOf_sizeOf_le body
  cases s with
  | text l t =>
    simp only [Stmt.children, sumOf_nil, Stmt.text.sizeOf_spec]
    omega
  | output l e | perform l e =>
    simp only [Stmt.children, weight, sumOf_cons, sumOf_nil,
      Stmt.output.sizeOf_spec, Stmt.perform.sizeOf_spec]
    omega
  | assign l target e =>
    simp only [Stmt.children, weight, sumOf_cons, sumOf_nil,
      Stmt.assign.sizeOf_spec]
    omega
  | capture l target body =>
    have hbody := stmts body
    simp only [Stmt.children, weight, sumOf_cons, Stmt.capture.sizeOf_spec] at hbody ⊢
    omega
  | define l name params defaults body =>
    have hparams := sumOf_sizeOf_le params
    have hdefaults := sumOf_sizeOf_le defaults
    have hbody := stmts body
    rw [← sumOf_weight_map bound fun _ => rfl] at hparams
    rw [← sumOf_weight_map expr fun _ => rfl] at hdefaults
    simp only [Stmt.children, sumOf_append, Stmt.define.sizeOf_spec]
    omega
  | loop l target iter filter body otherwise =>
    have hfilter := sumOf_sizeOf_toList_le filter
    have hbody := stmts body
    have hotherwise := stmts otherwise
    rw [← sumOf_weight_map expr fun _ => rfl] at hfilter
    simp only [Stmt.children, sumOf_cons, sumOf_append, weight,
      Stmt.loop.sizeOf_spec] at hfilter hbody hotherwise ⊢
    omega
  | branches l bs otherwise =>
    have hotherwise := stmts otherwise
    have hbs : sumOf weight (bs.flatMap fun b => expr b.1 :: b.2.map stmt) ≤ sizeOf bs := by
      induction bs with
      | nil => simp
      | cons b bs ih =>
        obtain ⟨test, body⟩ := b
        have hbody := stmts body
        simp only [List.flatMap_cons, List.cons_append, sumOf_cons, sumOf_append, weight, List.cons.sizeOf_spec, Prod.mk.sizeOf_spec] at ih hbody ⊢
        omega
    simp only [Stmt.children, sumOf_append, Stmt.branches.sizeOf_spec]
    omega

theorem weight_children (node : Node) : sumOf weight node.children < node.weight := by
  cases node with
  | template body =>
    have hbody := sumOf_sizeOf_le body
    rw [← sumOf_weight_map stmt fun _ => rfl] at hbody
    simp only [children, weight]
    omega
  | stmt s => exact weight_stmt_children s
  | expr e =>
    have he := e.sizeOf_parts
    rwa [← sumOf_weight_map expr fun _ => rfl] at he
  | target t =>
    cases t with
    | name n =>
      simp only [children, weight, sumOf_nil, Target.name.sizeOf_spec]
      omega
    | tuple l items =>
      have hitems := sumOf_sizeOf_le items
      rw [← sumOf_weight_map bound fun _ => rfl] at hitems
      simp only [children, weight, Target.tuple.sizeOf_spec]
      omega
  | bound n =>
    cases n
    simp only [children, weight, sumOf_nil, Name.mk.sizeOf_spec]
    omega

end Node
end Stencil
