import Stencil.Proofs.Correspondence.Run
import Stencil.Proofs.Value.Reach

/-! Two stores that grew from one: what is in the common base is the same, what is newer is paired in its
order. -/
namespace Stencil

/-- The store without scopes and macros. -/
def Store.data (s : Store) : Store := { s with scopes := #[], macros := #[] }

namespace Correspondence

variable {features : Features} {base t : Store}

/-- A correspondence that leaves the data of a base as it is. Its functions and opaque objects stand for themselves, and
every text is good. -/
structure Over (σ : Correspondence) (base : Store) : Prop where
  base_eq : σ.base = base.data
  frozen : ∀ i, base.Holds (.list i) → i ∈ σ.frozen
  serial : ∀ {a i}, a = .native ∨ a = .foreign → i < base.taken a → σ.rel a i i
  good : ∀ t, t ∈ σ.good

theorem Over.keeps {σ : Correspondence} {base s : Store} (hσ : σ.Over base) (h : Keeps σ.base s) : Keeps base s := by
  rw [hσ.base_eq] at h
  exact { h with }

end Correspondence
end Stencil
