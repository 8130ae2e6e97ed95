import Mathlib.Algebra.BigOperators.Group.List.Basic
import Mathlib.Algebra.GroupWithZero.Nat
import TranscodingServer.Library.Runs

/-!
# Jobs beside each other on one state

A pool takes one atomic step of one of its jobs at a time, in any order.  Its runs are seen from two
sides: from the shared state, and from each job, whose own steps keep their order.
-/

namespace Pool

open Lts

variable {σ J ℓ : Type*}

/-- `step j s l j' t`: the job `j` does `l`, on the shared state `s`. -/
abbrev JobStep (σ J ℓ : Type*) := J → σ → ℓ → J → σ → Prop

/-- A label carries the position of its job. -/
def lts (step : JobStep σ J ℓ) : Lts (σ × List J) (Nat × ℓ) where
  step c l d := ∃ j j', c.2[l.1]? = some j ∧ step j c.1 l.2 j' d.1 ∧ d.2 = c.2.set l.1 j'

/-- The shared state under the steps of any job. -/
def sharedLts (step : JobStep σ J ℓ) : Lts σ ℓ where
  step s l t := ∃ j j', step j s l j' t

/-- One job, whatever the others make of the shared state. -/
def jobLts (step : JobStep σ J ℓ) : Lts J ℓ where
  step j l j' := ∃ s t, step j s l j' t

def labels (k : Nat) (tr : List (Nat × ℓ)) : List ℓ := (tr.filter (·.1 == k)).map Prod.snd

theorem labels_snoc (k : Nat) (tr : List (Nat × ℓ)) (l : Nat × ℓ) :
    labels k (tr ++ [l]) = labels k tr ++ if l.1 = k then [l.2] else [] := by
  by_cases h : l.1 = k <;> simp [labels, h]

theorem mem_labels {k : Nat} {tr : List (Nat × ℓ)} {l : ℓ} : l ∈ labels k tr ↔ (k, l) ∈ tr := by
  constructor
  · intro h
    obtain ⟨⟨k', l'⟩, hmem, rfl⟩ := List.mem_map.mp h
    obtain ⟨hmem, hk⟩ := List.mem_filter.mp hmem
    rw [beq_iff_eq] at hk
    exact hk ▸ hmem
  · intro h
    exact List.mem_map.mpr ⟨(k, l), List.mem_filter.mpr ⟨h, beq_self_eq_true k⟩, rfl⟩

theorem labels_eq_nil {k : Nat} {tr : List (Nat × ℓ)} : labels k tr = [] ↔ ∀ l, (k, l) ∉ tr := by
  simp only [List.eq_nil_iff_forall_not_mem, mem_labels]

variable {step : JobStep σ J ℓ} {c d : σ × List J} {tr : List (Nat × ℓ)}

theorem run_shared (h : (lts step).Run c tr d) :
    (sharedLts step).Run c.1 (tr.map Prod.snd) d.1 := by
  induction h with
  | nil => exact .nil
  | snoc _ hstep ih =>
      obtain ⟨j, j', _, hj, _⟩ := hstep
      rw [List.map_append]
      exact .snoc ih ⟨j, j', hj⟩

/-- Every job has a run of its own, with the labels that are its own. -/
theorem run_job (h : (lts step).Run c tr d) {k : Nat} {j : J} (hk : c.2[k]? = some j) :
    ∃ j', d.2[k]? = some j' ∧ (jobLts step).Run j (labels k tr) j' := by
  induction h with
  | nil => exact ⟨j, hk, .nil⟩
  | @snoc tr d l d' _ hstep ih =>
      obtain ⟨i, hi, hrun⟩ := ih
      obtain ⟨i', j', hi', hj, hset⟩ := hstep
      rw [labels_snoc]
      by_cases hkl : l.1 = k
      · subst hkl
        rw [hi, Option.some.injEq] at hi'
        subst hi'
        refine ⟨j', ?_, ?_⟩
        · have hlt : l.1 < d.2.length := (List.getElem?_eq_some_iff.mp hi).1
          rw [hset, List.getElem?_set_self hlt]
        · rw [if_pos rfl]
          exact .snoc hrun ⟨_, _, hj⟩
      · -- a step of another job leaves this one where it is
        refine ⟨i, ?_, ?_⟩
        · rw [hset, List.getElem?_set_ne hkl, hi]
        · rw [if_neg hkl, List.append_nil]
          exact hrun

theorem run_length (h : (lts step).Run c tr d) : d.2.length = c.2.length := by
  induction h with
  | nil => rfl
  | snoc _ hstep ih =>
      obtain ⟨j, j', _, _, hset⟩ := hstep
      rw [hset, List.length_set, ih]

/-- A label in a run belongs to a job that was there at its start. -/
theorem lt_length_of_mem (h : (lts step).Run c tr d) {k : Nat} {l : ℓ} (hmem : (k, l) ∈ tr) :
    k < c.2.length := by
  induction h with
  | nil => cases hmem
  | @snoc tr d l' d' hrun hstep ih =>
      cases List.mem_append.mp hmem with
      | inl hold => exact ih hold
      | inr hnew =>
          obtain ⟨j, j', hj, _, _⟩ := hstep
          cases List.mem_singleton.mp hnew
          rw [← run_length hrun]
          exact (List.getElem?_eq_some_iff.mp hj).1

theorem sum_map_set (w : J → Nat) {js : List J} {k : Nat} {j : J} (hk : js[k]? = some j) (j' : J) :
    ((js.set k j').map w).sum + w j = (js.map w).sum + w j' := by
  induction js generalizing k with
  | nil => cases hk
  | cons i js ih =>
      cases k with
      | zero =>
          rw [List.getElem?_cons_zero, Option.some.injEq] at hk
          subst hk
          simp only [List.set_cons_zero, List.map_cons, List.sum_cons]
          omega
      | succ k =>
          have hrest := ih hk
          simp only [List.set_cons_succ, List.map_cons, List.sum_cons]
          omega

theorem countP_snoc (p : ℓ → Bool) (l : List ℓ) (i : ℓ) :
    (l ++ [i]).countP p = l.countP p + (p i).toNat := by
  cases h : p i <;> simp [h]

/-- Where each step that `p` selects makes its job heavier by one, and no other step changes the weight
of its job, the weight of the pool counts the selected steps. -/
theorem run_count {w : J → Nat} {p : ℓ → Bool}
    (hw : ∀ j s l j' t, step j s l j' t → w j' = w j + (p l).toNat) (h : (lts step).Run c tr d) :
    (d.2.map w).sum = (c.2.map w).sum + (tr.map Prod.snd).countP p := by
  induction h with
  | nil => simp
  | @snoc tr d l d' _ hstep ih =>
      obtain ⟨j, j', hk, hj, hset⟩ := hstep
      have hsum := sum_map_set w hk j'
      have hone := hw _ _ _ _ _ hj
      rw [hset, List.map_append, List.map_singleton, countP_snoc]
      omega

end Pool
