import Mathlib.Data.List.Induction

/-!
# Labelled transition systems and their runs

A run records its labels in the order in which they happened, so a property of a run can speak
about its history.  `Lts.restrict` keeps the steps that meet a condition; `Simulation` relates two
systems with the same labels step by step.
-/

structure Lts (σ ℓ : Type*) where
  step : σ → ℓ → σ → Prop

namespace Lts

variable {σ ℓ α : Type*}

/-- `M.Run s₀ tr s`: the steps labelled `tr` lead from `s₀` to `s`. -/
inductive Run (M : Lts σ ℓ) (s₀ : σ) : List ℓ → σ → Prop
  | nil : Run M s₀ [] s₀
  | snoc {tr s l t} : Run M s₀ tr s → M.step s l t → Run M s₀ (tr ++ [l]) t

/-- The steps that meet a condition on the state before them and on their label. -/
def restrict (M : Lts σ ℓ) (C : σ → ℓ → Prop) : Lts σ ℓ where
  step s l t := C s l ∧ M.step s l t

variable {M : Lts σ ℓ} {s₀ s t : σ} {tr tr' : List ℓ}

theorem Run.single {l : ℓ} (h : M.step s l t) : M.Run s [l] t := .snoc .nil h

theorem Run.append (h : M.Run s₀ tr s) (h' : M.Run s tr' t) : M.Run s₀ (tr ++ tr') t := by
  induction h' with
  | nil => simpa using h
  | snoc _ hstep ih => rw [← List.append_assoc]; exact .snoc ih hstep

theorem Run.cons {l : ℓ} (h : M.step s₀ l s) (h' : M.Run s tr t) : M.Run s₀ (l :: tr) t :=
  (Run.single h).append h'

theorem Run.nil_inv (h : M.Run s₀ [] t) : t = s₀ := by
  generalize hw : ([] : List ℓ) = w at h
  cases h with
  | nil => rfl
  | snoc _ _ => simp at hw

theorem Run.snoc_inv {l : ℓ} (h : M.Run s₀ (tr ++ [l]) t) :
    ∃ s, M.Run s₀ tr s ∧ M.step s l t := by
  generalize hw : tr ++ [l] = w at h
  cases h with
  | nil => simp at hw
  | snoc hrun hstep =>
      obtain ⟨rfl, hl⟩ := List.append_inj' hw rfl
      cases hl
      exact ⟨_, hrun, hstep⟩

theorem Run.split (h : M.Run s₀ (tr ++ tr') t) : ∃ s, M.Run s₀ tr s ∧ M.Run s tr' t := by
  induction tr' using List.reverseRecOn generalizing t with
  | nil => exact ⟨t, by simpa using h, .nil⟩
  | append_singleton tr' l ih =>
      rw [← List.append_assoc] at h
      obtain ⟨u, hrun, hstep⟩ := h.snoc_inv
      obtain ⟨s, h₁, h₂⟩ := ih hrun
      exact ⟨s, h₁, .snoc h₂ hstep⟩

theorem Run.cons_inv {l : ℓ} (h : M.Run s₀ (l :: tr) t) : ∃ s, M.step s₀ l s ∧ M.Run s tr t := by
  obtain ⟨s, hone, hrest⟩ := @Run.split σ ℓ M s₀ t [l] tr h
  obtain ⟨u, hnil, hstep⟩ := @Run.snoc_inv σ ℓ M s₀ s [] l hone
  rw [hnil.nil_inv] at hstep
  exact ⟨s, hstep, hrest⟩

/-- A property that every step keeps holds at the end of every run. -/
theorem Run.invariant {P : σ → Prop} (hP : ∀ s l t, P s → M.step s l t → P t)
    (h : M.Run s₀ tr s) (h₀ : P s₀) : P s := by
  induction h with
  | nil => exact h₀
  | snoc _ hstep ih => exact hP _ _ _ ih hstep

theorem Run.mono {N : Lts σ ℓ} (hstep : ∀ s l t, M.step s l t → N.step s l t)
    (h : M.Run s₀ tr s) : N.Run s₀ tr s := by
  induction h with
  | nil => exact .nil
  | snoc _ hl ih => exact .snoc ih (hstep _ _ _ hl)

/-! ## Simulation -/

/-- Related states answer every step of `M` by a step of `A` with the same label. -/
def Simulation (M : Lts σ ℓ) (A : Lts α ℓ) (R : σ → α → Prop) : Prop :=
  ∀ s l t a, R s a → M.step s l t → ∃ b, A.step a l b ∧ R t b

/-- A run of `M` with a run of `A` beside it: the states are related before and after every step. -/
inductive Matched (M : Lts σ ℓ) (A : Lts α ℓ) (R : σ → α → Prop) (s₀ : σ) (a₀ : α) :
    List ℓ → σ → α → Prop
  | nil : R s₀ a₀ → Matched M A R s₀ a₀ [] s₀ a₀
  | snoc {tr s a l t b} : Matched M A R s₀ a₀ tr s a → M.step s l t → A.step a l b → R t b →
      Matched M A R s₀ a₀ (tr ++ [l]) t b

variable {A : Lts α ℓ} {R : σ → α → Prop} {a₀ a : α}

theorem Matched.related (h : Matched M A R s₀ a₀ tr s a) : R s a := by
  cases h with
  | nil h => exact h
  | snoc _ _ _ h => exact h

/-- Under a simulation every run is matched from related states on. -/
theorem Simulation.matched (hsim : Simulation M A R) (h₀ : R s₀ a₀) (h : M.Run s₀ tr s) :
    ∃ a, Matched M A R s₀ a₀ tr s a := by
  induction h with
  | nil => exact ⟨a₀, .nil h₀⟩
  | snoc _ hstep ih =>
      obtain ⟨a, ha⟩ := ih
      obtain ⟨b, hab, hb⟩ := hsim _ _ _ _ ha.related hstep
      exact ⟨b, .snoc ha hstep hab hb⟩

end Lts

/-! ## Sequences that stay good -/

/-- A good sequence stays good under the safe steps `S` and is spoilt by every other step: it is good
(`G`) all along exactly when its steps are safe.  The proof may carry a stronger invariant `I`. -/
theorem forall_prefix_iff {ι : Type*} {I G : List ι → Prop} {S : List ι → ι → Prop}
    (hgood : ∀ l, I l → G l) (h₀ : I []) (hsafe : ∀ l i, I l → S l i → I (l ++ [i]))
    (hspoil : ∀ l i, G l → ¬S l i → ¬G (l ++ [i])) (l : List ι) :
    (∀ pre, pre <+: l → G pre) ↔ ∀ pre i, pre ++ [i] <+: l → S pre i := by
  constructor
  · intro h pre i hpre
    by_contra hno
    exact hspoil pre i (h pre ((List.prefix_append pre [i]).trans hpre)) hno (h _ hpre)
  · intro h pre hpre
    refine hgood pre ?_
    induction pre using List.reverseRecOn with
    | nil => exact h₀
    | append_singleton pre i ih =>
        exact hsafe pre i (ih ((List.prefix_append pre [i]).trans hpre)) (h pre i hpre)
