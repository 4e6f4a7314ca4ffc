import Stencil.Proofs.Correspondence.Paired
import Stencil.Proofs.Footprint.Running
import Stencil.Proofs.Render.Targets

/-! What a template leaves bound as it was: in the scopes around it, and in the context of its caller. -/
namespace Stencil

open Correspondence

variable {features : Features} {W : Set ScopeId} {s t : Store} {i scope : ScopeId} {env : Environment}
  {body : List Stmt} {vars : List (Text × Value)} {v : Value}

namespace Store

/-- A container holds in a later store what it held. -/
def Same (s t : Store) : Value → Prop
  | .list id => t.list id = s.list id
  | .mapping id => t.mapping id = s.mapping id
  | .table id => t.table id = s.table id
  | _ => True

end Store

/-- A value is reached from a variable that a template is given, or from a global variable. -/
def Environment.Finds (env : Environment) (s : Store) (vars : List (Text × Value)) (v : Value) : Prop :=
  (∃ p ∈ vars, s.Reaches p.2 v) ∨ ∃ k, s.Encloses env.globals k ∧ ∃ p ∈ (s.scope k).vars, s.Reaches p.2 v

/-! ## Scopes -/

namespace Environment

variable {a : Area} {j k : Nat}

end Environment

namespace Extended

/-- A template that changes the list `x`, and then binds the name to something else. -/
def template : List Stmt :=
  [.perform 1 (.call 1 (.member 1 (.name ⟨"x", 1, 6⟩) "append") [.const 1 (.text "b")] []),
    .assign 1 (.name ⟨"x", 1, 29⟩) (.const 1 (.number 1))]

/-- A context with a list. -/
def setting : Environment × Store :=
  Environment.create false false true { Store.empty with
    lists := #[[.text "a"]]
    mappings := #[[("x", .data (.list 0))]] }

theorem lives : setting.1.Lives setting.2 := by
  refine .create ⟨fun i k hk => ?_, fun m hm => ?_⟩ false false true rfl
  · cases i <;> cases hk
  · simp [Store.empty] at hm

end Extended

end Stencil
