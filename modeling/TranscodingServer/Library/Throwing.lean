import Mathlib.Tactic.Common

/-!
# Computations that may throw

A state change made before an exception stays when the exception leaves the computation, as in a
C++ `try` block.  `Keeps` says that a property of the state survives a computation however it
ends; `Succeeds` says when a computation ends without an exception.
-/

abbrev Throwing (ε σ : Type) := ExceptT ε (StateM σ)

namespace Throwing

variable {ε σ α β : Type}

def exec (m : Throwing ε σ α) (s : σ) : Except ε α × σ := (ExceptT.run m).run s

/-- `try { m } catch (...) { return a; }` -/
def catchAll (m : Throwing ε σ α) (a : α) (s : σ) : α × σ :=
  match exec m s with
  | (.ok r, t) => (r, t)
  | (.error _, t) => (a, t)

@[simp] theorem exec_pure (a : α) (s : σ) : exec (pure a : Throwing ε σ α) s = (.ok a, s) := rfl

theorem exec_bind (m : Throwing ε σ α) (f : α → Throwing ε σ β) (s : σ) :
    exec (m >>= f) s = match exec m s with
      | (.ok a, t) => exec (f a) t
      | (.error e, t) => (.error e, t) := by
  show (match exec m s with | (r, t) => (ExceptT.bindCont f r).run t) = _
  rcases exec m s with ⟨_ | _, _⟩ <;> rfl

theorem exec_bind_ok {m : Throwing ε σ α} {f : α → Throwing ε σ β} {s t : σ} {a : α}
    (h : exec m s = (.ok a, t)) : exec (m >>= f) s = exec (f a) t := by
  rw [exec_bind, h]

/-- A sequence ends well when its first part does and then its second part does. -/
theorem exec_bind_eq_ok {m : Throwing ε σ α} {f : α → Throwing ε σ β} {s u : σ} {b : β} :
    exec (m >>= f) s = (.ok b, u) ↔ ∃ a t, exec m s = (.ok a, t) ∧ exec (f a) t = (.ok b, u) := by
  rw [exec_bind]
  rcases exec m s with ⟨_ | a, t⟩
  · simp
  · constructor
    · exact fun h => ⟨a, t, rfl, h⟩
    · rintro ⟨a', t', he, h⟩
      cases he
      exact h

theorem exec_map (m : Throwing ε σ α) (f : α → β) (s : σ) :
    exec (f <$> m) s = match exec m s with
      | (.ok a, t) => (.ok (f a), t)
      | (.error e, t) => (.error e, t) := by
  rw [map_eq_pure_bind, exec_bind]
  rfl

@[simp] theorem exec_get (s : σ) : exec (get : Throwing ε σ σ) s = (.ok s, s) := rfl

@[simp] theorem exec_set (t s : σ) : exec (set t : Throwing ε σ PUnit) s = (.ok ⟨⟩, t) := rfl

@[simp] theorem exec_modify (f : σ → σ) (s : σ) :
    exec (modify f : Throwing ε σ PUnit) s = (.ok ⟨⟩, f s) := rfl

/-! ## Properties of the state -/

def Keeps (P : σ → Prop) (m : Throwing ε σ α) : Prop := ∀ s, P s → P (exec m s).2

variable {P : σ → Prop} {m : Throwing ε σ α} {f : α → Throwing ε σ β}

theorem Keeps.pure (a : α) : Keeps P (pure a : Throwing ε σ α) := fun _ h => h

theorem Keeps.throw (e : ε) : Keeps P (throw e : Throwing ε σ α) := fun _ h => h

theorem Keeps.get : Keeps P (get : Throwing ε σ σ) := fun _ h => h

theorem Keeps.modify {g : σ → σ} (h : ∀ s, P s → P (g s)) :
    Keeps P (modify g : Throwing ε σ PUnit) := h

/-- What the first part reaches from `s`, the rest keeps. -/
theorem exec_bind_keeps (P : σ → Prop) {s : σ} (h : P (exec m s).2) (hf : ∀ a, Keeps P (f a)) :
    P (exec (m >>= f) s).2 := by
  rw [exec_bind]
  rcases he : exec m s with ⟨_ | a, t⟩ <;> rw [he] at h
  · exact h
  · exact hf a t h

theorem Keeps.bind (hm : Keeps P m) (hf : ∀ a, Keeps P (f a)) : Keeps P (m >>= f) :=
  fun s hs => exec_bind_keeps P (hm s hs) hf

theorem Keeps.get_bind {f : σ → Throwing ε σ β} (h : ∀ s, P s → P (exec (f s) s).2) :
    Keeps P ((MonadState.get : Throwing ε σ σ) >>= f) := by
  intro s hs
  rw [exec_bind]
  exact h s hs

theorem Keeps.ite {c : Prop} [Decidable c] {m' : Throwing ε σ α} (hm : Keeps P m)
    (hm' : Keeps P m') : Keeps P (if c then m else m') := by
  split
  · exact hm
  · exact hm'

theorem Keeps.forM {g : β → Throwing ε σ PUnit} :
    (l : List β) → (∀ b ∈ l, Keeps P (g b)) → Keeps P (forM l g)
  | [], _ => Keeps.pure _
  | b :: l, h => by
      rw [List.forM_cons]
      exact (h b (by simp)).bind fun _ => Keeps.forM l fun c hc => h c (by simp [hc])

/-! ## Ending without an exception -/

/-- The computation ends without an exception exactly when `C` holds. -/
def Succeeds (C : Prop) (m : Throwing ε σ α) : Prop := ∀ s, (exec m s).1.isOk = true ↔ C

variable {C D : Prop}

theorem Succeeds.pure (a : α) : Succeeds True (pure a : Throwing ε σ α) := by
  intro s; simp [Except.isOk, Except.toBool]

theorem Succeeds.modify (g : σ → σ) : Succeeds True (modify g : Throwing ε σ PUnit) := by
  intro s; simp [Except.isOk, Except.toBool]

theorem Succeeds.bind (hm : Succeeds C m) (hf : ∀ a, Succeeds D (f a)) :
    Succeeds (C ∧ D) (m >>= f) := by
  intro s
  have h := hm s
  rw [exec_bind]
  rcases he : exec m s with ⟨_ | a, t⟩ <;> rw [he] at h
  · have hC : ¬C := fun hc => by simpa [Except.isOk, Except.toBool] using h.mpr hc
    simp [Except.isOk, Except.toBool, hC]
  · have hC : C := h.mp rfl
    simpa [hC] using hf a t

theorem Succeeds.forM {C : β → Prop} {g : β → Throwing ε σ PUnit}
    (hg : ∀ b, Succeeds (C b) (g b)) : (l : List β) → Succeeds (∀ b ∈ l, C b) (forM l g)
  | [] => fun s => by simp [Except.isOk, Except.toBool]
  | b :: l => by
      rw [List.forM_cons]
      intro s
      rw [(Succeeds.bind (hg b) fun _ => Succeeds.forM hg l) s]
      simp

theorem Succeeds.congr (h : Succeeds C m) (hCD : C ↔ D) : Succeeds D m :=
  fun s => (h s).trans hCD

end Throwing
