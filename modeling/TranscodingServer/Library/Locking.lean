import TranscodingServer.Library.Pool
import TranscodingServer.Library.Throwing

/-!
# Threads under one recursive mutex

A call is a program of statements, and the threads take their statements in any order.  If every
call keeps all of its statements inside one section of the mutex, each run does what a run of whole
calls does, in the order in which the calls give the mutex back.
-/

namespace Locking

open Lts

/-- `act` is one statement: it reads the state, then writes it. -/
inductive Code (σ α : Type)
  | done (a : α)
  | act (write : σ → σ) (next : σ → Code σ α)
  | lock (next : Code σ α)
  | unlock (next : Code σ α)

variable {σ α β γ : Type}

namespace Code

def bind : Code σ α → (α → Code σ β) → Code σ β
  | done a, k => k a
  | act write next, k => act write fun s => (next s).bind k
  | lock next, k => lock (next.bind k)
  | unlock next, k => unlock (next.bind k)

instance : Monad (Code σ) where
  pure := done
  bind := bind

/-- The program with nothing beside it. -/
def run : Code σ α → σ → α × σ
  | done a, s => (a, s)
  | act write next, s => (next s).run (write s)
  | lock next, s => next.run s
  | unlock next, s => next.run s

theorem bind_assoc (c : Code σ α) (k : α → Code σ β) (k' : β → Code σ γ) :
    (c.bind k).bind k' = c.bind fun a => (k a).bind k' := by
  induction c with
  | done a => rfl
  | act write next ih => simp [bind, ih]
  | lock next ih => simp [bind, ih]
  | unlock next ih => simp [bind, ih]

theorem bind_done (c : Code σ α) : (c.bind fun a => done a) = c := by
  induction c with
  | done a => rfl
  | act write next ih => simp [bind, ih]
  | lock next ih => simp [bind, ih]
  | unlock next ih => simp [bind, ih]

theorem run_bind (c : Code σ α) (k : α → Code σ β) (s : σ) :
    (c.bind k).run s = (k (c.run s).1).run (c.run s).2 := by
  induction c generalizing s with
  | done a => rfl
  | act write next ih => exact ih s (write s)
  | lock next ih => exact ih s
  | unlock next ih => exact ih s

/-- `std::lock_guard`: the mutex is given back at the end of the block. -/
def guard (c : Code σ α) : Code σ α := lock (c.bind fun a => unlock (done a))

theorem run_guard (c : Code σ α) (s : σ) : c.guard.run s = c.run s := by
  rw [guard, run, run_bind]
  rfl

end Code

open Code

/-! ## Programs that stay inside their section -/

/-- What is left of a call that has locked the mutex `n` times: no statement outside of the section,
and nothing behind it. -/
inductive Guarded : Nat → Code σ α → Prop
  | done (a : α) : Guarded 0 (.done a)
  | lock {n : Nat} {next : Code σ α} : Guarded (n + 1) next → Guarded n (.lock next)
  | act {n : Nat} {write : σ → σ} {next : σ → Code σ α} :
      (∀ s, Guarded (n + 1) (next s)) → Guarded (n + 1) (.act write next)
  | unlock {n : Nat} {next : Code σ α} : Guarded (n + 1) next → Guarded (n + 2) (.unlock next)
  | release (a : α) : Guarded 1 (.unlock (.done a))

/-- A block of statements inside the section. -/
def Inside (c : Code σ α) : Prop :=
  ∀ (β : Type) (n : Nat) (k : α → Code σ β), (∀ a, Guarded (n + 1) (k a)) →
    Guarded (n + 1) (c.bind k)

variable {c : Code σ α} {k : α → Code σ β}

theorem Inside.done (a : α) : Inside (.done a : Code σ α) := fun _ _ _ h => h a

theorem Inside.act {write : σ → σ} {next : σ → Code σ α} (h : ∀ s, Inside (next s)) :
    Inside (.act write next) := fun β n k hk => .act fun s => h s β n k hk

theorem Inside.bind (hc : Inside c) (hk : ∀ a, Inside (k a)) : Inside (c.bind k) := by
  intro γ n k' hk'
  rw [bind_assoc]
  exact hc γ n _ fun a => hk a γ n k' hk'

/-- A block that locks the mutex again. -/
theorem Inside.guard (h : Inside c) : Inside c.guard := by
  intro β n k hk
  rw [Code.guard, Code.bind, bind_assoc]
  exact .lock (h β (n + 1) _ fun a => .unlock (hk a))

/-- A call that computes its result behind its section. -/
theorem Inside.guarded (h : Inside c) (f : α → β) :
    Guarded 0 (c.guard.bind fun a => .done (f a)) := by
  rw [Code.guard, Code.bind, bind_assoc]
  exact .lock (h β 0 _ fun a => .release (f a))

/-! ## Threads -/

/-- What the jobs of the threads do: the calls that a job may make next, and what it makes of a
result. -/
structure Jobs (σ J C ρ : Type) where
  starts : J → C → Prop
  code : C → Code σ ρ
  resume : J → C → ρ → J

/-- A thread is between two calls, inside a call, or behind the section of a call. -/
inductive Thread (σ J C ρ : Type)
  | idle (j : J)
  | running (j : J) (c : C) (code : Code σ ρ)
  | returning (j : J) (c : C) (r : ρ)

/-- `mutex` is the thread that owns the mutex, and how many of its locks are nested in the first. -/
structure Threads (σ J C ρ : Type) where
  state : σ
  mutex : Option (Nat × Nat)
  threads : List (Thread σ J C ρ)

variable {J C ρ : Type} (P : Jobs σ J C ρ)

/-- One step of the thread `i`.  The label is the call, with its result, that ends its section. -/
inductive Step (i : Nat) :
    Thread σ J C ρ → σ → Option (Nat × Nat) → Option (C × ρ) →
      Thread σ J C ρ → σ → Option (Nat × Nat) → Prop
  | call {j c s m} : P.starts j c → Step i (.idle j) s m none (.running j c (P.code c)) s m
  | act {j c write next s m} :
      Step i (.running j c (.act write next)) s m none (.running j c (next s)) (write s) m
  | lock {j c next s} :
      Step i (.running j c (.lock next)) s none none (.running j c next) s (some (i, 0))
  | relock {j c next s n} :
      Step i (.running j c (.lock next)) s (some (i, n)) none (.running j c next) s (some (i, n + 1))
  | unlock {j c next s n} :
      Step i (.running j c (.unlock next)) s (some (i, n + 1)) none (.running j c next) s (some (i, n))
  | leave {j c next s} : (∀ r, next ≠ .done r) →
      Step i (.running j c (.unlock next)) s (some (i, 0)) none (.running j c next) s none
  | release {j c r s} :
      Step i (.running j c (.unlock (.done r))) s (some (i, 0)) (some (c, r)) (.returning j c r) s none
  | finish {j c r s m} :
      Step i (.running j c (.done r)) s m (some (c, r)) (.returning j c r) s m
  | resume {j c r s m} : Step i (.returning j c r) s m none (.idle (P.resume j c r)) s m

def threadsLts : Lts (Threads σ J C ρ) (Nat × Option (C × ρ)) where
  step x l y := ∃ th th', x.threads[l.1]? = some th ∧
    Step P l.1 th x.state x.mutex l.2 th' y.state y.mutex ∧ y.threads = x.threads.set l.1 th'

/-- A job that makes whole calls. -/
def callStep : Pool.JobStep σ J (C × ρ) :=
  fun j s l j' t => P.starts j l.1 ∧ (P.code l.1).run s = (l.2, t) ∧ P.resume j l.1 l.2 = j'

/-- The calls in the order in which they end their sections, each with its thread. -/
def ended (tr : List (Nat × Option (C × ρ))) : List (Nat × C × ρ) :=
  tr.filterMap fun l => l.2.map (l.1, ·)

theorem ended_append (tr tr' : List (Nat × Option (C × ρ))) :
    ended (tr ++ tr') = ended tr ++ ended tr' := List.filterMap_append

theorem ended_snoc (tr : List (Nat × Option (C × ρ))) (l : Nat × Option (C × ρ)) :
    ended (tr ++ [l]) = ended tr ++ (l.2.map (l.1, ·)).toList := by
  obtain ⟨i, _ | l⟩ := l <;> simp [ended]

/-- The job of a thread; a call counts from the end of its section on. -/
def Thread.job : Thread σ J C ρ → J
  | .idle j => j
  | .running j _ _ => j
  | .returning j c r => P.resume j c r

def Threads.jobs (x : Threads σ J C ρ) : List J := x.threads.map (Thread.job P)

/-- No call is on its way. -/
def Threads.idle (js : List J) (s : σ) : Threads σ J C ρ := ⟨s, none, js.map .idle⟩

theorem idle_jobs (js : List J) (s : σ) : (Threads.idle js s : Threads σ J C ρ).jobs P = js := by
  rw [Threads.jobs, Threads.idle, List.map_map]
  exact List.map_id js

/-! ## Runs of statements and runs of calls -/

/-- A thread outside of the section: a call that it runs has done nothing yet. -/
def Outside : Thread σ J C ρ → Prop
  | .running j c code => P.starts j c ∧ code = P.code c
  | _ => True

/-- `s` is the state behind the calls that have ended their sections. -/
inductive Serial : Threads σ J C ρ → σ → Prop
  | free {s ths} : (∀ (k : Nat) th, ths[k]? = some th → Outside P th) → Serial ⟨s, none, ths⟩ s
  | held {s t ths i n j c code} :
      ths[i]? = some (.running j c code) → P.starts j c → Guarded (n + 1) code →
      code.run t = (P.code c).run s →
      (∀ (k : Nat) th, k ≠ i → ths[k]? = some th → Outside P th) → Serial ⟨t, some (i, n), ths⟩ s

/-- A step that ends no section leaves the job as it is; one that does is a call. -/
inductive Moves : Option (C × ρ) → J → σ → J → σ → Prop
  | silent {j s} : Moves none j s j s
  | call {l j s j' t} : callStep P j s l j' t → Moves (some l) j s j' t

variable {P} {i : Nat} {th th' : Thread σ J C ρ} {s s' : σ} {m m' : Option (Nat × Nat)}
  {o : Option (C × ρ)} {x y : Threads σ J C ρ}

theorem Moves.run {j j' : J} {js : List J} (h : Moves P o j s j' s') (hj : js[i]? = some j) :
    (Pool.lts (callStep P)).Run (s, js) (o.map (i, ·)).toList (s', js.set i j') := by
  cases h with
  | silent =>
      obtain ⟨hlt, rfl⟩ := List.getElem?_eq_some_iff.mp hj
      rw [List.set_getElem_self hlt]
      exact .nil
  | call h => exact .single ⟨_, _, hj, h, rfl⟩

/-- A thread outside of the section stays outside and leaves the state as it is, or it takes the
mutex when it is free. -/
theorem Outside.step (hP : ∀ j c, P.starts j c → Guarded 0 (P.code c)) (ho : Outside P th)
    (hm : ∀ n, m ≠ some (i, n)) (h : Step P i th s m o th' s' m') :
    s' = s ∧ (m' = m ∧ Outside P th' ∧ (∀ u, Moves P o (th.job P) u (th'.job P) u) ∨
      ∃ j c next, P.starts j c ∧ P.code c = .lock next ∧ Guarded 1 next ∧ o = none ∧
        th = .running j c (.lock next) ∧ th' = .running j c next ∧ m = none ∧ m' = some (i, 0)) := by
  cases h with
  | call hc => exact ⟨rfl, .inl ⟨rfl, ⟨hc, rfl⟩, fun _ => .silent⟩⟩
  | act =>
      have hg := hP _ _ ho.1
      rw [← ho.2] at hg
      cases hg
  | lock =>
      have hg := hP _ _ ho.1
      rw [← ho.2] at hg
      cases hg with
      | lock hg => exact ⟨rfl, .inr ⟨_, _, _, ho.1, ho.2.symm, hg, rfl, rfl, rfl, rfl, rfl⟩⟩
  | relock => exact absurd rfl (hm _)
  | unlock => exact absurd rfl (hm _)
  | leave _ => exact absurd rfl (hm _)
  | release => exact absurd rfl (hm _)
  | finish =>
      refine ⟨rfl, .inl ⟨rfl, trivial, fun u => .call ⟨ho.1, ?_, rfl⟩⟩⟩
      rw [← ho.2]
      rfl
  | resume => exact ⟨rfl, .inl ⟨rfl, trivial, fun _ => .silent⟩⟩

/-- The owner of the mutex stays in its section and goes on with its call, or it ends the section. -/
theorem Guarded.step {j : J} {c : C} {code : Code σ ρ} {n : Nat} (hg : Guarded (n + 1) code)
    (h : Step P i (.running j c code) s (some (i, n)) o th' s' m') :
    (∃ code' n', th' = .running j c code' ∧ m' = some (i, n') ∧ o = none ∧ Guarded (n' + 1) code' ∧
      code'.run s' = code.run s) ∨
    ∃ r, th' = .returning j c r ∧ m' = none ∧ o = some (c, r) ∧ code.run s = (r, s') := by
  cases h with
  | act =>
      cases hg with
      | act hg => exact .inl ⟨_, _, rfl, rfl, rfl, hg s, rfl⟩
  | relock =>
      cases hg with
      | lock hg => exact .inl ⟨_, _, rfl, rfl, rfl, hg, rfl⟩
  | unlock =>
      cases hg with
      | unlock hg => exact .inl ⟨_, _, rfl, rfl, rfl, hg, rfl⟩
  | leave hne =>
      cases hg with
      | release r => exact absurd rfl (hne r)
  | release => exact .inr ⟨_, rfl, rfl, rfl, rfl⟩
  | finish => cases hg

theorem jobs_set {ths : List (Thread σ J C ρ)} :
    (ths.set i th').map (Thread.job P) = (ths.map (Thread.job P)).set i (th'.job P) :=
  List.map_set

/-- The step of a thread is a call of its job, or no step of the jobs. -/
theorem Moves.threads_run {ths : List (Thread σ J C ρ)} (hth : ths[i]? = some th)
    (h : Moves P o (th.job P) s (th'.job P) s') :
    (Pool.lts (callStep P)).Run (s, ths.map (Thread.job P)) (o.map (i, ·)).toList
      (s', (ths.set i th').map (Thread.job P)) := by
  rw [jobs_set]
  refine h.run ?_
  rw [List.getElem?_map, hth]
  rfl

/-- What a step of the thread `i` does to the calls that have ended their sections. -/
def Follows (P : Jobs σ J C ρ) (i : Nat) (o : Option (C × ρ)) (s : σ)
    (ths : List (Thread σ J C ρ)) (y : Threads σ J C ρ) : Prop :=
  ∃ t, Serial P y t ∧ (Pool.lts (callStep P)).Run (s, ths.map (Thread.job P))
    (o.map (i, ·)).toList (t, y.jobs P)

variable {ths : List (Thread σ J C ρ)}

theorem follows_free (hP : ∀ j c, P.starts j c → Guarded 0 (P.code c))
    (ho : ∀ (k : Nat) u, ths[k]? = some u → Outside P u) (hth : ths[i]? = some th)
    (h : Step P i th s none o th' s' m') : Follows P i o s ths ⟨s', m', ths.set i th'⟩ := by
  have hlt : i < ths.length := (List.getElem?_eq_some_iff.mp hth).1
  obtain ⟨rfl, ⟨rfl, hout, hmoves⟩ | ⟨j, c, next, hstart, hcode, hg, rfl, rfl, rfl, _, rfl⟩⟩ :=
    (ho i th hth).step hP (by simp) h
  · refine ⟨_, .free fun k u hu => ?_, (hmoves _).threads_run hth⟩
    by_cases hk : k = i
    · subst hk
      rw [List.getElem?_set_self hlt, Option.some.injEq] at hu
      exact hu ▸ hout
    · rw [List.getElem?_set_ne (Ne.symm hk)] at hu
      exact ho k u hu
  · refine ⟨s', .held (List.getElem?_set_self hlt) hstart hg ?_ fun k u hk hu => ?_, ?_⟩
    · rw [hcode]
      rfl
    · rw [List.getElem?_set_ne (Ne.symm hk)] at hu
      exact ho k u hu
    · exact (Moves.silent : Moves P none _ _ _ _).threads_run hth

theorem follows_owner {j : J} {c : C} {code : Code σ ρ} {n : Nat} {t : σ}
    (hth : ths[i]? = some (.running j c code)) (hstart : P.starts j c) (hg : Guarded (n + 1) code)
    (hrun : code.run t = (P.code c).run s)
    (ho : ∀ (k : Nat) u, k ≠ i → ths[k]? = some u → Outside P u)
    (h : Step P i (.running j c code) t (some (i, n)) o th' s' m') :
    Follows P i o s ths ⟨s', m', ths.set i th'⟩ := by
  have hlt : i < ths.length := (List.getElem?_eq_some_iff.mp hth).1
  have hothers : ∀ (k : Nat) u, k ≠ i → (ths.set i th')[k]? = some u → Outside P u := by
    intro k u hk hu
    rw [List.getElem?_set_ne (Ne.symm hk)] at hu
    exact ho k u hk hu
  rcases hg.step h with ⟨code', n', rfl, rfl, rfl, hg', hrun'⟩ | ⟨r, rfl, rfl, rfl, hr⟩
  · refine ⟨s, .held (List.getElem?_set_self hlt) hstart hg' (hrun'.trans hrun) hothers, ?_⟩
    exact (Moves.silent : Moves P none _ _ _ _).threads_run hth
  · refine ⟨s', .free fun k u hu => ?_, ?_⟩
    · by_cases hk : k = i
      · subst hk
        rw [List.getElem?_set_self hlt, Option.some.injEq] at hu
        subst hu
        trivial
      · exact hothers k u hk hu
    · exact (Moves.call ⟨hstart, hrun.symm.trans hr, rfl⟩ :
        Moves P (some (c, r)) j s _ _).threads_run hth

theorem follows_other (hP : ∀ j c, P.starts j c → Guarded 0 (P.code c)) {j : J} {c : C}
    {code : Code σ ρ} {k n : Nat} {t : σ} (hk : ths[k]? = some (.running j c code))
    (hstart : P.starts j c) (hg : Guarded (n + 1) code) (hrun : code.run t = (P.code c).run s)
    (ho : ∀ (k' : Nat) u, k' ≠ k → ths[k']? = some u → Outside P u) (hik : i ≠ k)
    (hth : ths[i]? = some th) (h : Step P i th t (some (k, n)) o th' s' m') :
    Follows P i o s ths ⟨s', m', ths.set i th'⟩ := by
  have hm : ∀ n', some (k, n) ≠ some (i, n') := by simp [Ne.symm hik]
  obtain ⟨rfl, ⟨rfl, hout, hmoves⟩ | ⟨_, _, _, _, _, _, _, _, _, hfree, _⟩⟩ :=
    (ho i th hik hth).step hP hm h
  · refine ⟨s, .held ?_ hstart hg hrun fun k' u hk' hu => ?_, (hmoves s).threads_run hth⟩
    · exact (List.getElem?_set_ne hik).trans hk
    · by_cases hi : k' = i
      · subst hi
        rw [List.getElem?_set_self (List.getElem?_eq_some_iff.mp hth).1, Option.some.injEq] at hu
        exact hu ▸ hout
      · rw [List.getElem?_set_ne (Ne.symm hi)] at hu
        exact ho k' u hk' hu
  · cases hfree

theorem Serial.follows (hP : ∀ j c, P.starts j c → Guarded 0 (P.code c)) {t : σ}
    (h : Serial P ⟨t, m, ths⟩ s) (hth : ths[i]? = some th) (hone : Step P i th t m o th' s' m') :
    Follows P i o s ths ⟨s', m', ths.set i th'⟩ := by
  cases h with
  | free ho => exact follows_free hP ho hth hone
  | @held _ _ _ k n j c code hk hstart hg hrun ho =>
      by_cases hik : i = k
      · subst hik
        rw [hk, Option.some.injEq] at hth
        subst hth
        exact follows_owner hk hstart hg hrun ho hone
      · exact follows_other hP hk hstart hg hrun ho hik hth hone

/-- Behind every run of statements, the calls that have ended their sections are a run of whole
calls, and the state is theirs whenever the mutex is free. -/
theorem serial_run (hP : ∀ j c, P.starts j c → Guarded 0 (P.code c)) {js : List J} {s₀ : σ}
    {tr : List (Nat × Option (C × ρ))} (h : (threadsLts P).Run (.idle js s₀) tr y) :
    ∃ t, Serial P y t ∧ (Pool.lts (callStep P)).Run (s₀, js) (ended tr) (t, y.jobs P) := by
  induction h with
  | nil =>
      refine ⟨s₀, .free ?_, ?_⟩
      · intro k th hth
        obtain ⟨j, _, rfl⟩ := List.mem_map.mp (List.mem_of_getElem? hth)
        trivial
      · rw [idle_jobs]
        exact .nil
  | @snoc tr x l y _ hl ih =>
      obtain ⟨t, hserial, hrun⟩ := ih
      obtain ⟨th, th', hth, hone, hset⟩ := hl
      obtain ⟨u, hserial', hrun'⟩ := hserial.follows hP hth hone
      rw [← hset] at hserial' hrun'
      rw [ended_snoc]
      exact ⟨u, hserial', hrun.append hrun'⟩

theorem Serial.state_eq (h : Serial P x s) (hm : x.mutex = none) : x.state = s := by
  cases h with
  | free _ => rfl
  | held _ _ _ _ _ => cases hm

/-! ## Every call can come to its end -/

/-- The thread has ended the call that it was in, and has begun no other. -/
def Settles (P : Jobs σ J C ρ) : Thread σ J C ρ → Thread σ J C ρ → Prop
  | .idle j, th => th = .idle j
  | .running j c _, th => ∃ s, th = .idle (P.resume j c ((P.code c).run s).1)
  | .returning j c r, th => th = .idle (P.resume j c r)

theorem Step.cons_run {tr : List (Nat × Option (C × ρ))} (hth : ths[i]? = some th)
    (h : Step P i th s m o th' s' m') (hrun : (threadsLts P).Run ⟨s', m', ths.set i th'⟩ tr y) :
    (threadsLts P).Run ⟨s, m, ths⟩ ((i, o) :: tr) y := .cons ⟨_, _, hth, h, rfl⟩ hrun

/-- One step of a thread before a run that ends in another state of it. -/
theorem Step.run_cons {th'' : Thread σ J C ρ} {tr : List (Nat × Option (C × ρ))} {t : σ}
    {n : Option (Nat × Nat)} (hth : ths[i]? = some th) (h : Step P i th s m o th' s' m')
    (hrun : (threadsLts P).Run ⟨s', m', ths.set i th'⟩ tr ⟨t, n, (ths.set i th').set i th''⟩) :
    (threadsLts P).Run ⟨s, m, ths⟩ ((i, o) :: tr) ⟨t, n, ths.set i th''⟩ := by
  rw [List.set_set] at hrun
  exact h.cons_run hth hrun

theorem Step.run_one (hth : ths[i]? = some th) (h : Step P i th s m o th' s' m') :
    (threadsLts P).Run ⟨s, m, ths⟩ [(i, o)] ⟨s', m', ths.set i th'⟩ :=
  .single ⟨_, _, hth, h, rfl⟩

/-- The owner of the mutex waits for nobody, and does what its call does alone. -/
theorem owner_run {j : J} {c : C} {code : Code σ ρ} {n : Nat} (hg : Guarded (n + 1) code) (s : σ)
    {ths : List (Thread σ J C ρ)} (hth : ths[i]? = some (.running j c code)) :
    ∃ tr, ended tr = [(i, c, (code.run s).1)] ∧ (threadsLts P).Run ⟨s, some (i, n), ths⟩ tr
      ⟨(code.run s).2, none, ths.set i (.returning j c (code.run s).1)⟩ := by
  have hlt : i < ths.length := (List.getElem?_eq_some_iff.mp hth).1
  induction code generalizing n s ths with
  | done a => cases hg
  | act write next ih =>
      cases hg with
      | act hg =>
          obtain ⟨tr, hended, hrun⟩ :=
            ih s (hg s) (write s) (List.getElem?_set_self hlt) (by simpa using hlt)
          exact ⟨(i, none) :: tr, hended, Step.run_cons hth .act hrun⟩
  | lock next ih =>
      cases hg with
      | lock hg =>
          obtain ⟨tr, hended, hrun⟩ := ih hg s (List.getElem?_set_self hlt) (by simpa using hlt)
          exact ⟨(i, none) :: tr, hended, Step.run_cons hth .relock hrun⟩
  | unlock next ih =>
      cases hg with
      | unlock hg =>
          obtain ⟨tr, hended, hrun⟩ := ih hg s (List.getElem?_set_self hlt) (by simpa using hlt)
          exact ⟨(i, none) :: tr, hended, Step.run_cons hth .unlock hrun⟩
      | release r => exact ⟨[(i, some (c, r))], rfl, Step.run_one hth .release⟩

/-- With the mutex free, a thread can run its call from its first statement to the end. -/
theorem whole_run {j : J} {c : C} {code : Code σ ρ} (hg : Guarded 0 code)
    (hth : ths[i]? = some (.running j c code)) (s : σ) :
    ∃ tr, ended tr = [(i, c, (code.run s).1)] ∧ (threadsLts P).Run ⟨s, none, ths⟩ tr
      ⟨(code.run s).2, none, ths.set i (.idle (P.resume j c (code.run s).1))⟩ := by
  have hlt : i < ths.length := (List.getElem?_eq_some_iff.mp hth).1
  cases hg with
  | done r =>
      refine ⟨[(i, some (c, r)), (i, none)], rfl, Step.run_cons hth .finish ?_⟩
      exact Step.run_one (List.getElem?_set_self hlt) .resume
  | @lock _ next hg =>
      have hrunning : (ths.set i (.running j c next))[i]? = some (.running j c next) :=
        List.getElem?_set_self hlt
      obtain ⟨tr, hended, hrun⟩ := owner_run (P := P) hg s hrunning
      have hreturning : ((ths.set i (.running j c next)).set i
          (.returning j c (next.run s).1))[i]? = some (.returning j c (next.run s).1) :=
        List.getElem?_set_self (by simpa using hlt)
      have hresume := hrun.append (Step.run_one hreturning .resume)
      rw [List.set_set] at hresume
      refine ⟨(i, none) :: (tr ++ [(i, none)]), ?_, Step.run_cons hth .lock hresume⟩
      exact (ended_append tr _).trans (congrArg (· ++ []) hended)

/-- With the mutex free, any thread can come to the end of its call. -/
theorem thread_run (hP : ∀ j c, P.starts j c → Guarded 0 (P.code c)) (ho : Outside P th)
    (hth : ths[i]? = some th) (s : σ) :
    ∃ tr t th', Settles P th th' ∧
      (threadsLts P).Run ⟨s, none, ths⟩ tr ⟨t, none, ths.set i th'⟩ := by
  cases th with
  | idle j =>
      obtain ⟨_, hget⟩ := List.getElem?_eq_some_iff.mp hth
      refine ⟨[], s, .idle j, rfl, ?_⟩
      rw [← hget, List.set_getElem_self]
      exact .nil
  | returning j c r => exact ⟨_, s, _, rfl, Step.run_one hth .resume⟩
  | running j c code =>
      obtain ⟨hstart, rfl⟩ := ho
      obtain ⟨tr, _, hrun⟩ := whole_run (hP j c hstart) hth s
      exact ⟨tr, _, _, ⟨s, rfl⟩, hrun⟩

/-- The threads before `n` one after the other. -/
theorem settle_first (hP : ∀ j c, P.starts j c → Guarded 0 (P.code c))
    (ho : ∀ (k : Nat) u, ths[k]? = some u → Outside P u) (s : σ) (n : Nat) :
    ∃ tr t ths', (threadsLts P).Run ⟨s, none, ths⟩ tr ⟨t, none, ths'⟩ ∧
      ∀ (k : Nat) u, ths[k]? = some u → ∃ u', ths'[k]? = some u' ∧
        (k < n ∧ Settles P u u' ∨ n ≤ k ∧ u' = u) := by
  induction n with
  | zero => exact ⟨[], s, ths, .nil, fun k u hu => ⟨u, hu, .inr ⟨Nat.zero_le k, rfl⟩⟩⟩
  | succ n ih =>
      obtain ⟨tr, t, ths', hrun, hths'⟩ := ih
      cases hn : ths[n]? with
      | none =>
          refine ⟨tr, t, ths', hrun, fun k u hu => ?_⟩
          have hlt : k < n := by
            have hk := (List.getElem?_eq_some_iff.mp hu).1
            have hlen := List.getElem?_eq_none_iff.mp hn
            omega
          obtain ⟨u', hu', ⟨_, hsettles⟩ | ⟨hle, _⟩⟩ := hths' k u hu
          · exact ⟨u', hu', .inl ⟨Nat.lt_succ_of_lt hlt, hsettles⟩⟩
          · omega
      | some v =>
          obtain ⟨v', hv', ⟨hlt, _⟩ | ⟨_, rfl⟩⟩ := hths' n v hn
          · omega
          obtain ⟨tr', t', w, hsettles, hrun'⟩ := thread_run hP (ho n v' hn) hv' t
          refine ⟨_, t', _, hrun.append hrun', fun k u hu => ?_⟩
          by_cases hk : k = n
          · subst hk
            rw [hn, Option.some.injEq] at hu
            subst hu
            have hlt : k < ths'.length := (List.getElem?_eq_some_iff.mp hv').1
            exact ⟨w, List.getElem?_set_self hlt, .inl ⟨Nat.lt_succ_self k, hsettles⟩⟩
          · obtain ⟨u', hu', hcases⟩ := hths' k u hu
            refine ⟨u', (List.getElem?_set_ne (Ne.symm hk)).trans hu', ?_⟩
            rcases hcases with ⟨hlt, h⟩ | ⟨hle, h⟩
            · exact .inl ⟨Nat.lt_succ_of_lt hlt, h⟩
            · exact .inr ⟨by omega, h⟩

theorem settle_all (hP : ∀ j c, P.starts j c → Guarded 0 (P.code c))
    (ho : ∀ (k : Nat) u, ths[k]? = some u → Outside P u) (s : σ) :
    ∃ tr t ths', (threadsLts P).Run ⟨s, none, ths⟩ tr ⟨t, none, ths'⟩ ∧
      ∀ (k : Nat) u, ths[k]? = some u → ∃ u', ths'[k]? = some u' ∧ Settles P u u' := by
  obtain ⟨tr, t, ths', hrun, hths'⟩ := settle_first hP ho s ths.length
  refine ⟨tr, t, ths', hrun, fun k u hu => ?_⟩
  obtain ⟨u', hu', ⟨_, hsettles⟩ | ⟨hle, _⟩⟩ := hths' k u hu
  · exact ⟨u', hu', hsettles⟩
  · have hlt := (List.getElem?_eq_some_iff.mp hu).1
    omega

/-- Where at most the owner of the mutex is inside the section, the calls on their way can all come
to their ends. -/
theorem Serial.settles (hP : ∀ j c, P.starts j c → Guarded 0 (P.code c)) (h : Serial P x s) :
    ∃ tr t ths, (threadsLts P).Run x tr ⟨t, none, ths⟩ ∧
      ∀ (k : Nat) th, x.threads[k]? = some th → ∃ th', ths[k]? = some th' ∧ Settles P th th' := by
  cases h with
  | free ho => exact settle_all hP ho s
  | @held s t ths i n j c code hth hstart hg hrun ho =>
      -- the owner first, then the others
      obtain ⟨tr, _, hended⟩ := @owner_run _ _ _ _ P i j c code n hg t _ hth
      rw [hrun] at hended
      generalize ((P.code c).run s).2 = t' at hended
      generalize hr : ((P.code c).run s).1 = r at hended
      have hself : (ths.set i (.returning j c r))[i]? = some (.returning j c r) :=
        List.getElem?_set_self (List.getElem?_eq_some_iff.mp hth).1
      have hne : ∀ (k : Nat), k ≠ i → (ths.set i (.returning j c r))[k]? = ths[k]? :=
        fun k hk => List.getElem?_set_ne (Ne.symm hk)
      have ho' : ∀ (k : Nat) u, (ths.set i (.returning j c r))[k]? = some u → Outside P u := by
        intro k u hu
        by_cases hk : k = i
        · subst hk
          rw [hself, Option.some.injEq] at hu
          exact hu ▸ trivial
        · rw [hne k hk] at hu
          exact ho k u hk hu
      obtain ⟨tr', t'', ths', hrun', hths'⟩ := settle_all hP ho' t'
      refine ⟨_, t'', ths', hended.append hrun', fun k th hk => ?_⟩
      by_cases hki : k = i
      · subst hki
        rw [hth, Option.some.injEq] at hk
        subst hk
        obtain ⟨th', hth', hsettles⟩ := hths' k _ hself
        exact ⟨th', hth', s, hr ▸ hsettles⟩
      · exact hths' k th ((hne k hki).trans hk)

theorem Settles.idle (h : Settles P th th') : ∃ j, th' = .idle j := by
  cases th with
  | idle j => exact ⟨j, h⟩
  | running j c code =>
      obtain ⟨s, hs⟩ := h
      exact ⟨_, hs⟩
  | returning j c r => exact ⟨_, h⟩

theorem run_length {tr : List (Nat × Option (C × ρ))} (h : (threadsLts P).Run x tr y) :
    y.threads.length = x.threads.length := by
  refine h.invariant (P := fun z => z.threads.length = x.threads.length) ?_ rfl
  rintro z l z' hz ⟨th, th', _, _, hset⟩
  rw [hset, List.length_set, hz]

/-- With no call on its way, a thread can make one. -/
theorem call_run {js : List J} {j : J} {c : C} (hg : Guarded 0 (P.code c)) (hi : js[i]? = some j)
    (hc : P.starts j c) (s : σ) :
    ∃ tr, ended tr = [(i, c, ((P.code c).run s).1)] ∧ (threadsLts P).Run (.idle js s) tr
      (.idle (js.set i (P.resume j c ((P.code c).run s).1)) ((P.code c).run s).2) := by
  have hidle : (js.map Thread.idle : List (Thread σ J C ρ))[i]? = some (.idle j) := by
    rw [List.getElem?_map, hi]
    rfl
  have hlt := (List.getElem?_eq_some_iff.mp hidle).1
  obtain ⟨tr, hended, hrun⟩ := whole_run (P := P) hg (List.getElem?_set_self hlt) s
  have hstep := Step.run_cons hidle (.call hc) hrun
  rw [← List.map_set] at hstep
  exact ⟨(i, none) :: tr, hended, hstep⟩

/-- Every run of whole calls is one of the threads. -/
theorem calls_run (hP : ∀ j c, P.starts j c → Guarded 0 (P.code c)) {js : List J} {s₀ : σ}
    {tr : List (Nat × C × ρ)} {c : σ × List J} (h : (Pool.lts (callStep P)).Run (s₀, js) tr c) :
    ∃ tr', ended tr' = tr ∧ (threadsLts P).Run (.idle js s₀) tr' (.idle c.2 c.1) := by
  induction h with
  | nil => exact ⟨[], rfl, .nil⟩
  | @snoc tr c l d _ hstep ih =>
      obtain ⟨tr', hended, hrun⟩ := ih
      obtain ⟨i, m, r⟩ := l
      obtain ⟨s, js⟩ := c
      obtain ⟨t, js'⟩ := d
      obtain ⟨j, j', hj, ⟨hstart, hcode, rfl⟩, hset⟩ := hstep
      obtain ⟨tr'', hended', hrun'⟩ := call_run (hP j m hstart) hj hstart s
      simp only at hcode hset
      rw [hcode] at hrun' hended'
      rw [hset]
      refine ⟨tr' ++ tr'', ?_, hrun.append hrun'⟩
      rw [ended_append, hended, hended']

/-- Threads without a call on its way go on, one call after the other, as long as one of their jobs
has work left: `w` says how much. -/
theorem idle_finishes (hP : ∀ j c, P.starts j c → Guarded 0 (P.code c)) {w : J → Nat}
    (hstarts : ∀ j, w j ≠ 0 → ∃ c, P.starts j c)
    (hless : ∀ j c s, w j ≠ 0 → P.starts j c → w (P.resume j c ((P.code c).run s).1) < w j)
    (n : Nat) (js : List J) (hn : (js.map w).sum = n) (s : σ) :
    ∃ tr t js', (threadsLts P).Run (.idle js s) tr (.idle js' t) ∧ ∀ j ∈ js', w j = 0 := by
  induction n using Nat.strongRecOn generalizing js s with
  | ind n ih =>
    by_cases hdone : ∀ j ∈ js, w j = 0
    · exact ⟨[], s, js, .nil, hdone⟩
    · push Not at hdone
      obtain ⟨j, hj, hwork⟩ := hdone
      obtain ⟨i, hi⟩ := List.getElem?_of_mem hj
      obtain ⟨c, hc⟩ := hstarts j hwork
      obtain ⟨tr, _, hrun⟩ := call_run (hP j c hc) hi hc s
      have hsum := Pool.sum_map_set w hi (P.resume j c ((P.code c).run s).1)
      have hw := hless j c s hwork hc
      have hn' : ((js.set i (P.resume j c ((P.code c).run s).1)).map w).sum < n := by omega
      obtain ⟨tr', t, js', hrun', hjs'⟩ := ih _ hn' _ rfl ((P.code c).run s).2
      exact ⟨_, t, js', hrun.append hrun', hjs'⟩

/-- From every state of a run, all work can be done. -/
theorem Serial.finishes (hP : ∀ j c, P.starts j c → Guarded 0 (P.code c)) {w : J → Nat}
    (hstarts : ∀ j, w j ≠ 0 → ∃ c, P.starts j c)
    (hless : ∀ j c s, w j ≠ 0 → P.starts j c → w (P.resume j c ((P.code c).run s).1) < w j)
    (h : Serial P x s) :
    ∃ tr t js, (threadsLts P).Run x tr (.idle js t) ∧ ∀ j ∈ js, w j = 0 := by
  obtain ⟨tr, t, ths, hrun, hths⟩ := h.settles hP
  have hidle : ths = (ths.map (Thread.job P)).map .idle := by
    rw [List.map_map]
    refine (List.map_id ths).symm.trans (List.map_congr_left fun th hth => ?_)
    obtain ⟨k, hk⟩ := List.getElem?_of_mem hth
    have hlt : k < x.threads.length := run_length hrun ▸ (List.getElem?_eq_some_iff.mp hk).1
    obtain ⟨th', hth', hsettles⟩ := hths k _ (List.getElem?_eq_getElem hlt)
    rw [hk, Option.some.injEq] at hth'
    obtain ⟨j, rfl⟩ := hsettles.idle
    rw [hth']
    rfl
  obtain ⟨tr', t', js, hrun', hjs⟩ := idle_finishes hP hstarts hless _ _ rfl t
  rw [hidle] at hrun
  exact ⟨_, t', js, hrun.append hrun', hjs⟩

end Locking
