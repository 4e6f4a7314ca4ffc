import Stencil.Proofs.Correspondence.Acting

/-! Configurations and contexts, read from a common base. -/
namespace Stencil

namespace Store

variable {s : Store} {v : Value}

theorem holds_absent : s.Holds .absent := by
  have hclosed : ∀ w ∈ [Value.absent], s.Plain w ∧ ∀ x ∈ s.contents w, x ∈ [Value.absent] := by
    rintro w (_ | ⟨_, ⟨⟩⟩)
    exact ⟨trivial, fun _ hx => nomatch hx⟩
  exact Store.holds_of_closed hclosed List.mem_cons_self

theorem mem_of_get? {ps : Properties} {key : Text} {slot : Slot} (h : ps.get? key = some slot) :
    (key, slot) ∈ ps := by
  induction ps with
  | nil => cases h
  | cons p ps ih =>
    obtain ⟨k, x⟩ := p
    rw [Properties.get?, Correspondence.lookup_cons_eq] at h
    split at h
    · rename_i hk
      cases h
      exact hk ▸ List.mem_cons_self
    · exact List.mem_cons_of_mem _ (ih h)

theorem Holds.child (h : s.Holds v) (key : Text) : s.Holds (s.child v key) := by
  cases v with
  | mapping id =>
    change s.Holds ((((s.mapping id).get? key).map (·.value)).getD .absent)
    cases hget : (s.mapping id).get? key with
    | none => exact holds_absent
    | some slot => exact h.property (mem_of_get? hget)
  | _ => exact holds_absent

end Store

namespace Correspondence

variable {base s : Store} {v : Value}

namespace Keeps

variable (h : Keeps base s)
include h

theorem child (hv : base.Holds v) (key : Text) : s.child v key = base.child v key := by
  cases v with
  | mapping id =>
    unfold Store.child
    dsimp only
    rw [h.mapping hv.plain]
  | _ => rfl

theorem recordEntries? (hv : base.Holds v) : s.recordEntries? v = base.recordEntries? v := by
  cases v with
  | mapping id => exact congrArg some (h.entriesOf_mapping hv.plain)
  | _ => rfl

theorem valueAt (path : List Text) (hv : base.Holds v) :
    path.foldl s.child v = path.foldl base.child v ∧ base.Holds (path.foldl base.child v) := by
  induction path generalizing v with
  | nil => exact ⟨rfl, hv⟩
  | cons key path ih =>
    rw [List.foldl_cons, List.foldl_cons, h.child hv key]
    exact ih (hv.child key)

end Keeps

variable {σ : Correspondence} {κ : Known} {config : Option Config} {variant : Text} (hσ : σ.Over base)
include hσ

section sections

variable (hconfig : ∀ c ∈ config, base.Holds c.root)
include hconfig

end sections

end Correspondence
end Stencil
