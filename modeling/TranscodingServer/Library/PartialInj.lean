import Mathlib.Data.PEquiv

/-!
# Updates of a partial injective map

Mathlib's partial equivalences, with a fresh pair added and with a key lost.
-/

namespace PartialInj

variable {α β : Type*}

theorem symm_eq_none_iff (M : α ≃. β) (b : β) : M.symm b = none ↔ ∀ a, M a ≠ some b := by
  simp only [Option.eq_none_iff_forall_ne_some, ne_eq, PEquiv.eq_some_iff]

variable [DecidableEq α]

section Insert

variable [DecidableEq β]

/-- The pair `a`, `b` is new on both sides. -/
def insertNew (M : α ≃. β) (a : α) (b : β) (ha : M a = none) (hb : M.symm b = none) : α ≃. β where
  toFun k := if k = a then some b else M k
  invFun v := if v = b then some a else M.symm v
  inv := by
    intro k v
    by_cases hk : k = a <;> by_cases hv : v = b
    · simp [hk, hv]
    · have hne : M.symm v ≠ some a := fun h => by
        rw [PEquiv.eq_some_iff, ha] at h
        cases h
      simp [hk, hv, hne, Ne.symm hv]
    · have hne : M k ≠ some b := fun h => by
        rw [← PEquiv.eq_some_iff, hb] at h
        cases h
      simp [hk, hv, hne, Ne.symm hk]
    · simpa [hk, hv] using M.mem_iff_mem

theorem insertNew_apply (M : α ≃. β) (a : α) (b : β) (ha : M a = none) (hb : M.symm b = none)
    (k : α) : insertNew M a b ha hb k = if k = a then some b else M k := rfl

end Insert

def erase (M : α ≃. β) (a : α) : α ≃. β := (PEquiv.ofSet {k | k ≠ a}).trans M

theorem erase_apply (M : α ≃. β) (a k : α) : erase M a k = if k = a then none else M k := by
  show (PEquiv.ofSet {k | k ≠ a} k).bind M = _
  by_cases h : k = a <;> simp [PEquiv.ofSet, h]

end PartialInj
