import TranscodingServer.Library.Locking

/-!
# Methods as programs of statements

`Performs c f` says that the block `c` stays inside its section of the mutex and does there what `f`
does in one step; `Implements` is the same for statements that may throw, and `Serves` for a whole
method, with its own section.
-/

namespace Locking

open Throwing

variable {ε σ α β γ : Type}

structure Performs (c : Code σ α) (f : σ → α × σ) : Prop where
  run : ∀ s, c.run s = f s
  inside : Inside c

/-- Other threads see the method as its section, wherever its result goes. -/
structure Serves (c : Code σ α) (f : σ → α × σ) : Prop extends Performs c f where
  guarded : ∀ (γ : Type) (g : α → γ), Guarded 0 (c.bind fun a => .done (g a))

namespace Performs

variable {c : Code σ α} {f : σ → α × σ}

theorem done (a : α) : Performs (.done a) fun s : σ => (a, s) where
  run _ := rfl
  inside := .done a

theorem bind {k : α → Code σ β} {g : α → σ → β × σ} (hc : Performs c f)
    (hk : ∀ a, Performs (k a) (g a)) : Performs (c.bind k) fun s => g (f s).1 (f s).2 where
  run s := by rw [Code.run_bind, hc.run s, (hk _).run]
  inside := hc.inside.bind fun a => (hk a).inside

theorem congr {g : σ → α × σ} (h : Performs c f) (heq : ∀ s, f s = g s) : Performs c g where
  run s := (h.run s).trans (heq s)
  inside := h.inside

theorem guard (h : Performs c f) : Serves c.guard f where
  run s := (c.run_guard s).trans (h.run s)
  inside := h.inside.guard
  guarded _ g := h.inside.guarded g

end Performs

theorem Serves.congr {c : Code σ α} {f g : σ → α × σ} (h : Serves c f) (heq : ∀ s, f s = g s) :
    Serves c g :=
  { h.toPerforms.congr heq with guarded := h.guarded }

/-- A call that hands on its result in another form. -/
theorem Serves.map {c : Code σ α} {f : σ → α × σ} (h : Serves c f) (g : α → β) :
    Serves (c.bind fun a => .done (g a)) fun s => (g (f s).1, (f s).2) :=
  { h.toPerforms.bind fun a => Performs.done (g a) with
    guarded := fun γ k => by
      rw [Code.bind_assoc]
      exact h.guarded γ fun a => k (g a) }

/-- A statement that reads nothing. -/
def write (f : σ → σ) : Code σ PUnit := .act f fun _ => .done ⟨⟩

theorem Performs.write (f : σ → σ) : Performs (write f) fun s => (⟨⟩, f s) where
  run _ := rfl
  inside := .act fun _ => .done _

/-- A statement that writes nothing. -/
def read (f : σ → α) : Code σ α := .act id fun s => .done (f s)

theorem Performs.read (f : σ → α) : Performs (read f) fun s => (f s, s) where
  run _ := rfl
  inside := .act fun _ => .done _

/-! ## Exceptions -/

/-- Statements that may throw. -/
abbrev Statements (ε σ : Type) := ExceptT ε (Code σ)

def block (c : Code σ (Except ε α)) : Statements ε σ α := ExceptT.mk c

/-- A computation as one statement. -/
def statement (m : Throwing ε σ α) : Statements ε σ α :=
  block (.act (fun s => (exec m s).2) fun s => .done (exec m s).1)

/-- The call of a method that catches its own exceptions. -/
def lift (c : Code σ α) : Statements ε σ α := block (c.bind fun a => .done (.ok a))

/-- An exception unwinds through the guard, which gives the mutex back. -/
def guard (c : Statements ε σ α) : Statements ε σ α := block (Code.guard c.run)

/-- `try { c } catch (...) { return a; }` -/
def tryOr (c : Statements ε σ α) (a : α) : Code σ α :=
  c.run.bind fun r => .done (r.toOption.getD a)

structure Implements (c : Statements ε σ α) (m : Throwing ε σ α) : Prop where
  run : ∀ s, c.run.run s = exec m s
  inside : Inside c.run

namespace Implements

variable {c : Statements ε σ α} {m : Throwing ε σ α} {k : α → Statements ε σ β}
  {f : α → Throwing ε σ β}

theorem statement (m : Throwing ε σ α) : Implements (statement m) m where
  run _ := rfl
  inside := .act fun _ => .done _

theorem pure (a : α) : Implements (pure a : Statements ε σ α) (pure a) where
  run _ := rfl
  inside := .done _

theorem lift {c : Code σ α} {g : σ → α × σ} (h : Performs c g)
    (hm : ∀ s, exec m s = (.ok (g s).1, (g s).2)) : Implements (lift c) m where
  run s := by
    rw [hm s, ← h.run s]
    exact c.run_bind _ s
  inside := h.inside.bind fun _ => .done _

theorem bind (hc : Implements c m) (hk : ∀ a, Implements (k a) (f a)) :
    Implements (c >>= k) (m >>= f) where
  run s := by
    rw [exec_bind, ← hc.run s]
    refine (Code.run_bind c.run (ExceptT.bindCont k) s).trans ?_
    rcases c.run.run s with ⟨e | a, t⟩
    · rfl
    · exact (hk a).run t
  inside := by
    refine hc.inside.bind fun r => ?_
    cases r with
    | error e => exact .done _
    | ok a => exact (hk a).inside

theorem ite {p : Prop} [Decidable p] {c' : Statements ε σ α} {m' : Throwing ε σ α}
    (h : Implements c m) (h' : Implements c' m') :
    Implements (if p then c else c') (if p then m else m') := by
  split
  · exact h
  · exact h'

theorem forM {g : β → Statements ε σ PUnit} {g' : β → Throwing ε σ PUnit}
    (h : ∀ b, Implements (g b) (g' b)) : (l : List β) → Implements (forM l g) (forM l g')
  | [] => .pure _
  | b :: l => by
      rw [List.forM_cons, List.forM_cons]
      exact (h b).bind fun _ => .forM h l

theorem congr {m' : Throwing ε σ α} (h : Implements c m) (heq : ∀ s, exec m s = exec m' s) :
    Implements c m' where
  run s := (h.run s).trans (heq s)
  inside := h.inside

/-- A method that throws before its section, if `p`, and catches what it throws. -/
theorem serves {p : Prop} [Decidable p] (h : Implements c m) (e : ε) (a : α) :
    Serves (tryOr (if p then throw e else guard c) a)
      (catchAll (if p then throw e else m) a) := by
  by_cases hp : p
  · rw [if_pos hp, if_pos hp]
    exact { Performs.done a with guarded := fun _ g => .done (g a) }
  · rw [if_neg hp, if_neg hp]
    refine { run := fun s => ?_, inside := ?_, guarded := fun γ g => ?_ }
    · have hrun : (guard c).run.run s = exec m s := (Code.run_guard c.run s).trans (h.run s)
      rw [tryOr, Code.run_bind, hrun, catchAll]
      rcases exec m s with ⟨e | r, t⟩ <;> rfl
    · exact h.inside.guard.bind fun _ => .done _
    · rw [tryOr, Code.bind_assoc]
      exact h.inside.guarded fun r => g (r.toOption.getD a)

end Implements

/-! ## Loops over the state -/

/-- `for (a : l) b = f a b` over a list of the state, up to a `break`: every turn is a statement
that looks up its own element. -/
def scanFrom (l : σ → List α) (f : α → β → ForInStep β) : Nat → Nat → β → Code σ β
  | 0, _, b => .done b
  | fuel + 1, i, b => .act id fun s =>
    match (l s)[i]? with
    | none => .done b
    | some a =>
      match f a b with
      | .done b => .done b
      | .yield b => scanFrom l f fuel (i + 1) b

def scan (l : σ → List α) (f : α → β → ForInStep β) (b : β) : Code σ β :=
  .act id fun s => scanFrom l f (l s).length 0 b

/-- The loop over a list that stays as it is. -/
def scanList (f : α → β → ForInStep β) : List α → β → β
  | [], b => b
  | a :: l, b =>
    match f a b with
    | .done b => b
    | .yield b => scanList f l b

variable {l : σ → List α} {f : α → β → ForInStep β}

theorem run_scanFrom (fuel i : Nat) (b : β) (s : σ) (h : (l s).length ≤ i + fuel) :
    (scanFrom l f fuel i b).run s = (scanList f ((l s).drop i) b, s) := by
  induction fuel generalizing i b with
  | zero =>
      rw [List.drop_of_length_le (by omega)]
      rfl
  | succ fuel ih =>
      simp only [scanFrom, Code.run, id]
      cases ha : (l s)[i]? with
      | none =>
          rw [List.drop_of_length_le (List.getElem?_eq_none_iff.mp ha)]
          rfl
      | some a =>
          obtain ⟨hlt, rfl⟩ := List.getElem?_eq_some_iff.mp ha
          rw [List.drop_eq_getElem_cons hlt, scanList]
          dsimp only
          cases f (l s)[i] b with
          | done b => rfl
          | yield b => exact ih (i + 1) b (by omega)

theorem inside_scanFrom (fuel i : Nat) (b : β) : Inside (scanFrom l f fuel i b) := by
  induction fuel generalizing i b with
  | zero => exact .done _
  | succ fuel ih =>
      refine .act fun s => ?_
      cases (l s)[i]? with
      | none => exact .done _
      | some a =>
          dsimp only
          cases f a b with
          | done b => exact .done _
          | yield b => exact ih (i + 1) b

theorem Performs.scan (b : β) : Performs (scan l f b) fun s => (scanList f (l s) b, s) where
  run s := run_scanFrom (l s).length 0 b s (Nat.le_add_left _ _)
  inside := .act fun _ => inside_scanFrom _ _ _

theorem scanList_any (p : α → Bool) (l : List α) :
    scanList (fun a b => if p a then .done true else .yield b) l false = l.any p := by
  induction l with
  | nil => rfl
  | cons a l ih => cases h : p a <;> simp [scanList, h, ih]

theorem scanList_map (g : α → β) (l : List α) (acc : List β) :
    scanList (fun a acc => .yield (acc ++ [g a])) l acc = acc ++ l.map g := by
  induction l generalizing acc with
  | nil => simp [scanList]
  | cons a l ih => simp [scanList, ih]

end Locking
