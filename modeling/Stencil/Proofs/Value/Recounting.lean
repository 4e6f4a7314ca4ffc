import Stencil.Proofs.Value.Fuel

/-! Functions are counted in the store. What values are made of does not depend on the count. -/
namespace Stencil

/-- Stores with the same contents, however much each has counted. -/
def Store.Recounted (s t : Store) : Prop := ∃ n, t = { s with serial := n }

namespace Store.Recounted

variable {s t u : Store}

theorem refl (s : Store) : s.Recounted s := ⟨s.serial, rfl⟩

theorem trans (h : s.Recounted t) (h' : t.Recounted u) : s.Recounted u := by
  obtain ⟨n, rfl⟩ := h
  obtain ⟨m, rfl⟩ := h'
  exact ⟨m, rfl⟩

theorem symm (h : s.Recounted t) : t.Recounted s := by
  obtain ⟨n, rfl⟩ := h
  exact ⟨s.serial, rfl⟩

theorem keyTextWithin_eq (h : s.Recounted t) (fuel : Nat) : t.keyTextWithin fuel = s.keyTextWithin fuel := by
  obtain ⟨n, rfl⟩ := h
  induction fuel with
  | zero => rfl
  | succ fuel ih =>
    funext visiting v
    cases v with
    | list id =>
      unfold keyTextWithin
      rw [ih]
      rfl
    | _ => rfl

theorem entriesOf_eq (h : s.Recounted t) (target : Keyed) : t.entriesOf target = s.entriesOf target := by
  cases target with
  | mapping id =>
    obtain ⟨n, rfl⟩ := h
    rfl
  | table id =>
    have hkey : t.keyText = s.keyText := by
      funext v
      unfold keyText
      rw [h.keyTextWithin_eq]
      obtain ⟨n, rfl⟩ := h
      rfl
    unfold entriesOf
    rw [hkey]
    obtain ⟨n, rfl⟩ := h
    rfl

theorem displayWithin_eq (h : s.Recounted t) (depth : Nat) : t.displayWithin depth = s.displayWithin depth := by
  induction depth with
  | zero => rfl
  | succ depth ih =>
    have hentry : t.entryWithin depth = s.entryWithin depth := by
      funext p
      unfold entryWithin
      rw [ih]
    funext quote v
    cases v with
    | list id =>
      rw [displayWithin_list, displayWithin_list, ih]
      obtain ⟨n, rfl⟩ := h
      rfl
    | mapping id => rw [displayWithin_mapping, displayWithin_mapping, hentry, h.entriesOf_eq]
    | table id => rw [displayWithin_table, displayWithin_table, hentry, h.entriesOf_eq]
    | _ =>
      obtain ⟨n, rfl⟩ := h
      rfl

theorem depth_eq (h : s.Recounted t) : t.depth = s.depth := by
  obtain ⟨n, rfl⟩ := h
  rfl

theorem display?_eq (h : s.Recounted t) : t.display? = s.display? := by
  funext v
  rw [display?, display?, h.depth_eq, h.displayWithin_eq]

theorem repr?_eq (h : s.Recounted t) : t.repr? = s.repr? := by
  funext v
  rw [repr?, repr?, h.depth_eq, h.displayWithin_eq]

theorem ownValue?_eq (h : s.Recounted t) : t.ownValue? = s.ownValue? := by
  obtain ⟨n, rfl⟩ := h
  rfl

end Store.Recounted
end Stencil
