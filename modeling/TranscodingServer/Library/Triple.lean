import TranscodingServer.Library.Throwing

/-!
# Computations between conditions

`Triple P m Q X`: from a state that meets `P`, the computation ends with a result and a state that
meet `Q`, or with an exception in a state that meets `X`.
-/

namespace Throwing

variable {ε σ α β : Type}

def Ends (Q : α → σ → Prop) (X : σ → Prop) : Except ε α × σ → Prop
  | (.ok a, t) => Q a t
  | (.error _, t) => X t

def Triple (P : σ → Prop) (m : Throwing ε σ α) (Q : α → σ → Prop) (X : σ → Prop) : Prop :=
  ∀ s, P s → Ends Q X (exec m s)

namespace Triple

variable {P P' : σ → Prop} {m : Throwing ε σ α} {Q Q' : α → σ → Prop} {X : σ → Prop}
  {f : α → Throwing ε σ β} {R : β → σ → Prop}

theorem pure {a : α} (h : ∀ s, P s → Q a s) : Triple P (pure a : Throwing ε σ α) Q X := h

theorem throw (e : ε) (h : ∀ s, P s → X s) : Triple P (throw e : Throwing ε σ α) Q X := h

theorem modify {g : σ → σ} {Q : PUnit → σ → Prop} (h : ∀ s, P s → Q ⟨⟩ (g s)) :
    Triple P (modify g : Throwing ε σ PUnit) Q X := h

theorem bind (hm : Triple P m Q X) (hf : ∀ a, Triple (Q a) (f a) R X) :
    Triple P (m >>= f) R X := by
  intro s hs
  have h := hm s hs
  rw [exec_bind]
  rcases he : exec m s with ⟨e | a, t⟩ <;> rw [he] at h
  · exact h
  · exact hf a t h

theorem ite {c : Prop} [Decidable c] {m' : Throwing ε σ α} (h : Triple P m Q X)
    (h' : Triple P m' Q X) : Triple P (if c then m else m') Q X := by
  split
  · exact h
  · exact h'

/-- A loop with an invariant on the elements behind it. -/
theorem loop {g : β → Throwing ε σ PUnit} (I : List β → σ → Prop)
    (h : ∀ done b, Triple (I done) (g b) (fun _ => I (done ++ [b])) X) :
    (done l : List β) → Triple (I done) (forM l g) (fun _ => I (done ++ l)) X
  | done, [] => by
      rw [List.append_nil]
      exact .pure fun _ hs => hs
  | done, b :: l => by
      rw [List.forM_cons, List.append_cons]
      exact (h done b).bind fun _ => Triple.loop I h (done ++ [b]) l

theorem of_keeps (h : Keeps P m) : Triple P m (fun _ => P) P := by
  intro s hs
  have hkept := h s hs
  rcases he : exec m s with ⟨e | a, t⟩ <;> rw [he] at hkept <;> exact hkept

/-- Where both ends meet one condition, catching the exceptions meets it too. -/
theorem catchAll {X : σ → Prop} (h : Triple P m (fun _ => X) X) (a : α) (s : σ) (hs : P s) :
    X (catchAll m a s).2 := by
  have hends := h s hs
  rw [Throwing.catchAll]
  rcases he : exec m s with ⟨e | r, t⟩ <;> rw [he] at hends <;> exact hends

end Triple

end Throwing
