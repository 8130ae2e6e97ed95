import Mathlib.Algebra.BigOperators.Group.List.Basic
import Mathlib.Algebra.Ring.Int.Defs

/-!
# Balances of a history

A history is a list of what happened; a weight counts an acquisition as `1`, a release as `-1` and
everything else as `0`.
-/

namespace Balance

variable {α β : Type*} {w : α → Int}

def net (w : α → Int) (l : List α) : Int := (l.map w).sum

@[simp] theorem net_nil : net w [] = 0 := rfl

@[simp] theorem net_cons (a : α) (l : List α) : net w (a :: l) = w a + net w l := by
  simp [net]

@[simp] theorem net_append (l l' : List α) : net w (l ++ l') = net w l + net w l' := by
  simp [net]

theorem net_append_of_zero {l' : List α} (l : List α) (h : net w l' = 0) :
    net w (l ++ l') = net w l := by
  rw [net_append, h, Int.add_zero]

theorem net_flatMap_eq_zero {f : β → List α} (l : List β) (h : ∀ b, net w (f b) = 0) :
    net w (l.flatMap f) = 0 := by
  induction l with
  | nil => rfl
  | cons b l ih => rw [List.flatMap_cons, net_append, h, ih, Int.add_zero]

theorem net_nonpos (hw : ∀ a, w a ≤ 0) (l : List α) : net w l ≤ 0 := by
  induction l with
  | nil => exact Int.le_refl 0
  | cons a l ih =>
      have ha := hw a
      rw [net_cons]
      omega

/-- What the items selected by `q` release once each, and the others not at all. -/
theorem net_flatMap {q : β → Bool} {f : β → List α} (l : List β)
    (h : ∀ b, net w (f b) = if q b then -1 else 0) : net w (l.flatMap f) = -(l.countP q : Int) := by
  induction l with
  | nil => rfl
  | cons b l ih =>
      rw [List.flatMap_cons, net_append, ih, h]
      cases hq : q b with
      | true =>
          rw [List.countP_cons_of_pos hq]
          simp only [↓reduceIte]
          omega
      | false =>
          rw [List.countP_cons_of_neg (by simp [hq])]
          simp

end Balance
