import Mathlib.Data.List.TakeWhile
import Mathlib.Tactic.Common

/-!
# Readers with one cursor

A reader moves over a text whose end it does not know: reading behind the end is an `overrun`, and
writing behind an array that items are stored in is an `overflow`.  A text that ends with a sentinel is
read safely when no reader passes the sentinel and the arrays have room.  `Reads` is the partial view
from the reader (what it accepts), `Accepts` the one from the text.
-/

namespace Reading

/-- `invalid` tells where the reader gave up. -/
inductive Fault (τ : Type)
  | invalid (data : List τ)
  | overrun
  | overflow
  | outOfFuel

abbrev Reader (τ : Type) := StateT (List τ) (Except (Fault τ))

variable {τ α β : Type}

abbrev Outcome (τ α : Type) := Except (Fault τ) (α × List τ)

def Reader.read (r : Reader τ α) (data : List τ) : Outcome τ α := StateT.run r data

def reject : Reader τ α := fun data => .error (.invalid data)

def exhausted : Reader τ α := fun _ => .error .outOfFuel

def peek : Reader τ τ
  | [] => .error .overrun
  | c :: data => .ok (c, c :: data)

/-- Passes the token if it is the expected one. -/
def consume [DecidableEq τ] (c : τ) : Reader τ Bool
  | [] => .error .overrun
  | d :: data => if d = c then .ok (true, data) else .ok (false, d :: data)

/-- The word at the cursor, compared token by token; a difference leaves the cursor where it is. -/
def word [DecidableEq τ] (w : List τ) : Reader τ Unit := fun data => go data w data
where
  go (start : List τ) : List τ → List τ → Outcome τ Unit
    | [], data => .ok ((), data)
    | _ :: _, [] => .error .overrun
    | c :: w, d :: data => if d = c then go start w data else .error (.invalid start)

def skip (p : τ → Bool) : Reader τ Unit := fun data =>
  match data.dropWhile p with
  | [] => .error .overrun
  | rest => .ok ((), rest)

theorem read_bind (r : Reader τ α) (f : α → Reader τ β) (data : List τ) :
    (r >>= f).read data = match r.read data with
      | .ok (a, rest) => (f a).read rest
      | .error e => .error e := by
  show (StateT.bind r f) data = _
  unfold StateT.bind
  cases h : r data with
  | error e => simp only [Reader.read, StateT.run, h]; rfl
  | ok a => simp only [Reader.read, StateT.run, h]; rfl

theorem read_bind_ok {r : Reader τ α} {f : α → Reader τ β} {data rest : List τ} {a : α}
    (h : r.read data = .ok (a, rest)) : (r >>= f).read data = (f a).read rest := by
  rw [read_bind, h]

/-! ## Growing arrays -/

section Store

variable {σ : Type}

/-- An array that grows item by item; `push` fails where the next item would be written behind it. -/
structure Store (σ : Type) where
  empty : σ
  push : σ → Option σ

namespace Store

/-- There is room for `k` more items. -/
def RoomFrom (S : Store σ) : σ → Nat → Prop
  | _, 0 => True
  | s, k + 1 => ∃ s', S.push s = some s' ∧ S.RoomFrom s' k

def Room (S : Store σ) (k : Nat) : Prop := S.RoomFrom S.empty k

def unbounded : Store Unit where
  empty := ()
  push := some

variable {S : Store σ}

theorem RoomFrom.le {s : σ} {k m : Nat} (h : S.RoomFrom s k) (hm : m ≤ k) : S.RoomFrom s m := by
  induction m generalizing s k with
  | zero => trivial
  | succ m ih =>
      obtain ⟨k, rfl⟩ := Nat.exists_eq_succ_of_ne_zero (Nat.ne_of_gt (Nat.zero_lt_of_lt hm))
      obtain ⟨s', hpush, hrest⟩ := h
      exact ⟨s', hpush, ih hrest (Nat.le_of_succ_le_succ hm)⟩

theorem room_unbounded (k : Nat) : unbounded.Room k := by
  have h : ∀ (k : Nat) (s : Unit), unbounded.RoomFrom s k := by
    intro k
    induction k with
    | zero => exact fun _ => trivial
    | succ k ih => exact fun s => ⟨s, rfl, ih s⟩
  exact h k ()

/-- An array that holds up to `limit` items. -/
theorem roomFrom_iff {I : σ → Prop} {size : σ → Nat} {limit : Nat}
    (hpush : ∀ s, I s → size s < limit → ∃ s', S.push s = some s' ∧ I s' ∧ size s' = size s + 1)
    (hfull : ∀ s, I s → size s = limit → S.push s = none) {s : σ} (hs : I s) (hle : size s ≤ limit)
    (k : Nat) : S.RoomFrom s k ↔ size s + k ≤ limit := by
  induction k generalizing s with
  | zero => exact iff_of_true trivial hle
  | succ k ih =>
      rcases Nat.lt_or_eq_of_le hle with hlt | heq
      · obtain ⟨s', hs', hinv, hsize⟩ := hpush s hs hlt
        have hrest := ih hinv (by omega)
        rw [hsize] at hrest
        constructor
        · rintro ⟨t, ht, hroom⟩
          rw [hs', Option.some.injEq] at ht
          subst ht
          have := hrest.mp hroom
          omega
        · intro h
          exact ⟨s', hs', hrest.mpr (by omega)⟩
      · constructor
        · rintro ⟨t, ht, _⟩
          rw [hfull s hs heq] at ht
          cases ht
        · intro h
          omega

end Store

def store (S : Store σ) (s : σ) : Reader τ σ := fun data =>
  match S.push s with
  | some s' => .ok (s', data)
  | none => .error .overflow

end Store

/-! ## What a reader accepts -/

section Reads

variable (stop : τ) (full : Prop)

/-- What becomes of a text that has the sentinel: the reader ends in front of it, and what it has
read is in `P`; an array is overrun only where `full` holds. -/
def Outcome.Good (P : α → List τ → Prop) (data : List τ) : Outcome τ α → Prop
  | .ok (a, rest) => ∃ t, data = t ++ rest ∧ stop ∉ t ∧ P a t
  | .error (.invalid rest) => ∃ t, data = t ++ rest ∧ stop ∉ t
  | .error .overrun => False
  | .error .overflow => full
  | .error .outOfFuel => False

/-- The texts are those of at most `n` tokens that have the sentinel. -/
def Reads (n : Nat) (P : α → List τ → Prop) (r : Reader τ α) : Prop :=
  ∀ data, stop ∈ data → data.length ≤ n → (r.read data).Good stop full P data

variable {stop full} {n : Nat} {P Q : α → List τ → Prop} {R : β → List τ → Prop}

theorem Reads.mono {r : Reader τ α} (h : Reads stop full n P r) (hPQ : ∀ a t, P a t → Q a t) :
    Reads stop full n Q r := by
  intro data hstop hn
  have hgood := h data hstop hn
  cases hr : r.read data with
  | error e => rw [hr] at hgood; cases e <;> exact hgood
  | ok a =>
      rw [hr] at hgood
      obtain ⟨t, ht, hfree, hP⟩ := hgood
      exact ⟨t, ht, hfree, hPQ _ _ hP⟩

theorem Reads.le {r : Reader τ α} {m : Nat} (h : Reads stop full n P r) (hm : m ≤ n) :
    Reads stop full m P r :=
  fun data hstop hlen => h data hstop (Nat.le_trans hlen hm)

theorem Reads.pure {a : α} (h : P a []) : Reads stop full n P (pure a) :=
  fun _ _ _ => ⟨[], rfl, List.not_mem_nil, h⟩

theorem Reads.reject : Reads stop full n P reject :=
  fun _ _ _ => ⟨[], rfl, List.not_mem_nil⟩

theorem stop_mem_of_append {t rest : List τ} (h : stop ∈ t ++ rest) (hfree : stop ∉ t) :
    stop ∈ rest := (List.mem_append.mp h).resolve_left hfree

/-- The second reader starts on what the first one leaves, so it may count on a shorter text. -/
theorem Reads.bind {r : Reader τ α} {f : α → Reader τ β} (hr : Reads stop full n P r)
    (hf : ∀ a t, P a t → Reads stop full (n - t.length) (fun b u => R b (t ++ u)) (f a)) :
    Reads stop full n R (r >>= f) := by
  intro data hstop hn
  have hgood := hr data hstop hn
  rw [read_bind]
  cases h : r.read data with
  | error e => rw [h] at hgood; cases e <;> exact hgood
  | ok a =>
      rw [h] at hgood
      obtain ⟨t, rfl, hfree, hP⟩ := hgood
      rw [List.length_append] at hn
      have hrest := hf a.1 t hP a.2 (stop_mem_of_append hstop hfree) (by omega)
      simp only
      cases h' : (f a.1).read a.2 with
      | error e =>
          rw [h'] at hrest
          cases e with
          | invalid data =>
              obtain ⟨u, hu, hufree⟩ := hrest
              refine ⟨t ++ u, by rw [hu, List.append_assoc], ?_⟩
              simp [hfree, hufree]
          | overrun => exact hrest
          | overflow => exact hrest
          | outOfFuel => exact hrest
      | ok b =>
          rw [h'] at hrest
          obtain ⟨u, hu, hufree, hR⟩ := hrest
          refine ⟨t ++ u, by rw [hu, List.append_assoc], ?_, hR⟩
          simp [hfree, hufree]

theorem Reads.reject_bind {f : α → Reader τ β} : Reads stop full n R (Reading.reject >>= f) :=
  Reads.bind (P := fun _ _ => False) Reads.reject fun _ _ h => h.elim

theorem Reads.peek : Reads stop full n (fun _ t => t = []) (peek : Reader τ τ) := by
  intro data hstop _
  cases data with
  | nil => cases hstop
  | cons c data => exact ⟨[], rfl, List.not_mem_nil, rfl⟩

theorem Reads.get_bind {f : List τ → Reader τ β}
    (hf : ∀ data : List τ, data.length ≤ n → Reads stop full data.length R (f data)) :
    Reads stop full n R (get >>= f) := by
  intro data hstop hn
  have hread : (get >>= f).read data = (f data).read data := read_bind_ok rfl
  rw [hread]
  exact hf data hn data hstop (Nat.le_refl _)

theorem Reads.ite {c : Prop} [Decidable c] {r r' : Reader τ α} (h : c → Reads stop full n P r)
    (h' : ¬c → Reads stop full n P r') : Reads stop full n P (if c then r else r') := by
  split
  · rename_i hc; exact h hc
  · rename_i hc; exact h' hc

/-- In front of the sentinel a `skip` finds an end. -/
theorem skip_of_mem {p : τ → Bool} (hp : p stop = false) {data : List τ} (hstop : stop ∈ data) :
    ∃ w rest, (skip p).read data = .ok ((), rest) ∧ data = w ++ rest ∧ (∀ c ∈ w, p c = true) ∧
      stop ∉ w := by
  have hsplit := List.takeWhile_append_dropWhile (p := p) (l := data)
  have hall : ∀ c ∈ data.takeWhile p, p c = true := fun c hc => List.mem_takeWhile_imp hc
  have hfree : stop ∉ data.takeWhile p := by
    intro hmem
    rw [hall _ hmem] at hp
    cases hp
  have hmem : stop ∈ data.dropWhile p := stop_mem_of_append (hsplit.symm ▸ hstop) hfree
  cases hd : data.dropWhile p with
  | nil => rw [hd] at hmem; cases hmem
  | cons c rest =>
      refine ⟨_, c :: rest, ?_, by rw [← hd, hsplit], hall, hfree⟩
      simp only [Reader.read, StateT.run, skip, hd]

theorem Reads.skip {p : τ → Bool} (hp : p stop = false) :
    Reads stop full n (fun _ t => ∀ c ∈ t, p c = true) (skip p) := by
  intro data hstop _
  obtain ⟨w, rest, hread, hdata, hw, hfree⟩ := skip_of_mem hp hstop
  rw [hread]
  exact ⟨w, hdata, hfree, hw⟩

variable [DecidableEq τ]

theorem Reads.consume {c : τ} (hc : stop ≠ c) :
    Reads stop full n (fun b t => t = if b then [c] else []) (consume c) := by
  intro data hstop _
  cases data with
  | nil => cases hstop
  | cons d data =>
      by_cases hd : d = c
      · subst hd
        have hread : (Reading.consume d).read (d :: data) = .ok (true, data) := if_pos rfl
        rw [hread]
        exact ⟨[d], rfl, by simpa using hc, rfl⟩
      · have hread : (Reading.consume c).read (d :: data) = .ok (false, d :: data) := if_neg hd
        rw [hread]
        exact ⟨[], rfl, List.not_mem_nil, rfl⟩

theorem word_go {start w data : List τ} (hw : stop ∉ w) (hstop : stop ∈ data) :
    word.go start w data = .error (.invalid start) ∨
      ∃ rest, data = w ++ rest ∧ word.go start w data = .ok ((), rest) := by
  induction w generalizing data with
  | nil => exact .inr ⟨data, rfl, rfl⟩
  | cons c w ih =>
      cases data with
      | nil => cases hstop
      | cons d data =>
          simp only [List.mem_cons, not_or] at hw
          by_cases hd : d = c
          · subst hd
            have hmem : stop ∈ data := (List.mem_cons.mp hstop).resolve_left hw.1
            simp only [word.go, if_pos, List.cons_append, List.cons.injEq, true_and]
            exact ih hw.2 hmem
          · exact .inl (if_neg hd)

omit [DecidableEq τ] in
theorem Reads.store {σ : Type} {S : Store σ} {s : σ} (h : S.push s = none → full) :
    Reads stop full n (fun s' t => S.push s = some s' ∧ t = []) (store S s : Reader τ σ) := by
  intro data _ _
  have hread : (Reading.store S s : Reader τ σ).read data =
      match S.push s with
      | some s' => .ok (s', data)
      | none => .error .overflow := rfl
  rw [hread]
  cases hs : S.push s with
  | none => exact h hs
  | some s' => exact ⟨[], rfl, List.not_mem_nil, rfl, rfl⟩

theorem Reads.word {w : List τ} (hw : stop ∉ w) :
    Reads stop full n (fun _ t => t = w) (word w) := by
  intro data hstop _
  rcases @word_go _ stop _ data w data hw hstop with h | ⟨rest, rfl, h⟩
  · exact (show (word.go data w data).Good stop full _ data from h ▸ ⟨[], rfl, List.not_mem_nil⟩)
  · exact (show (word.go _ w _).Good stop full _ _ from h ▸ ⟨w, rfl, hw, rfl⟩)

end Reads

/-! ## What a text makes a reader do -/

section Accepts

/-- The reader passes each text of `P` that is followed by something in `follow`. -/
def Accepts (follow : List τ → Prop) (P : α → List τ → Prop) (r : Reader τ α) : Prop :=
  ∀ a t rest, P a t → follow rest → r.read (t ++ rest) = .ok (a, rest)

variable {p : τ → Bool} {w rest : List τ} {c : τ}

theorem read_skip (hw : ∀ c ∈ w, p c = true) (hc : p c = false) :
    (skip p).read (w ++ c :: rest) = .ok ((), c :: rest) := by
  have hdrop : (w ++ c :: rest).dropWhile p = c :: rest := by
    rw [List.dropWhile_append_of_pos hw, List.dropWhile_cons_of_neg (by simp [hc])]
  simp only [Reader.read, StateT.run, skip, hdrop]

theorem read_peek (c : τ) (rest : List τ) : (peek : Reader τ τ).read (c :: rest) = .ok (c, c :: rest) := rfl

theorem read_store {σ : Type} {S : Store σ} {s s' : σ} (h : S.push s = some s') :
    (store S s : Reader τ σ).read rest = .ok (s', rest) := by
  simp only [Reader.read, StateT.run, store, h]

theorem read_get : (get : Reader τ (List τ)).read rest = .ok (rest, rest) := rfl

variable [DecidableEq τ]

theorem read_consume : (consume c).read (c :: rest) = .ok (true, rest) := if_pos rfl

theorem read_consume_ne {d : τ} (h : d ≠ c) :
    (consume c).read (d :: rest) = .ok (false, d :: rest) := if_neg h

theorem word_go_self {start : List τ} (w : List τ) :
    word.go start w (w ++ rest) = .ok ((), rest) := by
  induction w with
  | nil => rfl
  | cons c w ih => rw [List.cons_append, word.go, if_pos rfl, ih]

theorem read_word (w : List τ) : (word w).read (w ++ rest) = .ok ((), rest) := word_go_self w

end Accepts

/-! ## Sequences with a separator -/

section Items

variable (p : τ → Bool) (close comma : τ) {σ : Type} (S : Store σ)

/-- `while (1)`: an item, which is stored, then the closing token or the separator. -/
def items [DecidableEq τ] (item : Reader τ α) : Nat → σ → Reader τ (List α)
  | 0, _ => exhausted
  | n + 1, s => do
    let a ← item
    skip p
    let s ← store S s
    if ← consume close then return [a]
    if !(← consume comma) then reject
    skip p
    let as ← items item n s
    return a :: as

/-- The texts of one or more items, up to and with the closing token. -/
inductive Items (P : α → List τ → Prop) : List α → List τ → Prop
  | last {a t w} : P a t → (∀ c ∈ w, p c = true) → Items P [a] (t ++ w ++ [close])
  | more {a t w w' as u} : P a t → (∀ c ∈ w, p c = true) → (∀ c ∈ w', p c = true) →
      Items P as u → Items P (a :: as) (t ++ w ++ comma :: (w' ++ u))

variable {p close comma S} {stop : τ} {full : Prop} {P : α → List τ → Prop} {s : σ}

/-- There is a token behind every item. -/
theorem Items.length_le {as : List α} {t : List τ} (h : Items p close comma P as t) :
    as.length ≤ t.length := by
  induction h with
  | last _ _ =>
      simp only [List.length_append, List.length_cons, List.length_nil]
      omega
  | more _ _ _ _ ih =>
      simp only [List.length_cons, List.length_append]
      omega

/-- The text of an item is no longer than that of all. -/
theorem Items.mono {Q : α → List τ → Prop} {as : List α} {t : List τ}
    (h : Items p close comma P as t) (hPQ : ∀ a u, P a u → u.length ≤ t.length → Q a u) :
    Items p close comma Q as t := by
  induction h with
  | last hP hw =>
      refine .last (hPQ _ _ hP ?_) hw
      simp only [List.length_append]
      omega
  | more hP hw hw' _ ih =>
      refine .more (hPQ _ _ hP ?_) hw hw' (ih fun a u ha hu => hPQ a u ha ?_)
      · simp only [List.length_append]
        omega
      · simp only [List.length_append, List.length_cons]
        omega

theorem Items.mem {as : List α} {t : List τ} (h : Items p close comma P as t) {a : α}
    (ha : a ∈ as) : ∃ u, P a u := by
  induction h with
  | last hP _ => exact ⟨_, List.mem_singleton.mp ha ▸ hP⟩
  | more hP _ _ _ ih =>
      rcases List.mem_cons.mp ha with rfl | ha
      · exact ⟨_, hP⟩
      · exact ih ha

variable [DecidableEq τ] {item : Reader τ α}

/-- Every item has a token, so the number of tokens bounds the number of rounds. -/
theorem Reads.items (hp : p stop = false) (hclose : stop ≠ close) (hcomma : stop ≠ comma)
    (hne : ∀ a t, P a t → t ≠ []) {n : Nat} (hitem : Reads stop full n P item)
    (hroom : ¬full → S.RoomFrom s n) :
    Reads stop full n (fun as t => Items p close comma P as t ∧ S.RoomFrom s as.length)
      (items p close comma S item n s) := by
  induction n generalizing s with
  | zero =>
      intro data hstop hn
      rw [List.length_eq_zero_iff.mp (Nat.le_zero.mp hn)] at hstop
      cases hstop
  | succ n ih =>
      refine Reads.bind hitem fun a t ha => ?_
      have hlen := List.length_pos_iff.mpr (hne a t ha)
      refine Reads.bind (Reads.skip hp) fun _ w hw => ?_
      have hfull : S.push s = none → full := by
        intro hnone
        by_contra hnot
        obtain ⟨s', hs', _⟩ := hroom hnot
        rw [hnone] at hs'
        cases hs'
      refine Reads.bind (Reads.store hfull) fun s' v hv => ?_
      obtain ⟨hs', rfl⟩ := hv
      refine Reads.bind (Reads.consume hclose) fun b u hu => ?_
      cases b with
      | true =>
          refine Reads.pure ⟨?_, s', hs', trivial⟩
          rw [hu]
          simpa using @Items.last _ _ p close comma P a t w ha hw
      | false =>
          have hu : u = [] := hu
          subst hu
          refine Reads.bind (P := fun b t => b = false ∧ t = [] ∨ b = true ∧ t = [comma])
            ((Reads.consume hcomma).mono ?_) fun b u hu => ?_
          · intro b t ht
            cases b <;> simp [ht]
          · rcases hu with ⟨rfl, rfl⟩ | ⟨rfl, rfl⟩
            · exact Reads.reject_bind
            · refine Reads.bind (Reads.skip hp) fun _ w' hw' => ?_
              have hroom' : ¬full → S.RoomFrom s' n := by
                intro hnot
                obtain ⟨s'', hs'', hrest⟩ := hroom hnot
                rw [hs', Option.some.injEq] at hs''
                exact hs'' ▸ hrest
              refine Reads.bind ((ih (hitem.le (Nat.le_succ n)) hroom').le ?_) fun as u hu => ?_
              · simp only [List.length_nil, List.length_singleton]
                omega
              · refine Reads.pure ⟨?_, s', hs', hu.2⟩
                simpa using Items.more ha hw hw' hu.1

/-- The reader passes every sequence, given that each item stops at what may stand behind it. -/
theorem Accepts.items {follow : List τ → Prop} (hitem : Accepts follow P item)
    (hfirst : ∀ a t, P a t → ∃ c t', t = c :: t' ∧ p c = false)
    (hclose : p close = false) (hcomma : p comma = false) (hne : comma ≠ close)
    (hfollow : ∀ w c rest, (∀ d ∈ w, p d = true) → c = close ∨ c = comma → follow (w ++ c :: rest))
    {as : List α} {t : List τ} (rest : List τ) (h : Items p close comma P as t)
    (hroom : S.RoomFrom s as.length) {m : Nat} (hm : t.length ≤ m) :
    (items p close comma S item m s).read (t ++ rest) = .ok (as, rest) := by
  induction h generalizing m s with
  | @last a t w ha hw =>
      cases m with
      | zero => simp at hm
      | succ m =>
          have hitem' := hitem a t (w ++ close :: rest) ha (hfollow w close rest hw (.inl rfl))
          rw [Reading.items, show t ++ w ++ [close] ++ rest = t ++ (w ++ close :: rest) by simp]
          obtain ⟨s', hs', _⟩ := hroom
          rw [read_bind_ok hitem', read_bind_ok (read_skip hw hclose), read_bind_ok (read_store hs'),
            read_bind_ok read_consume]
          rfl
  | @more a t w w' as u ha hw hw' hu ih =>
      cases m with
      | zero => simp at hm
      | succ m =>
          simp only [List.length_append, List.length_cons] at hm
          have hitem' := hitem a t (w ++ comma :: (w' ++ (u ++ rest))) ha
            (hfollow w comma _ hw (.inr rfl))
          obtain ⟨c, u', hc, hpc⟩ : ∃ c u', u = c :: u' ∧ p c = false := by
            cases hu with
            | last hP hw =>
                obtain ⟨c, t', rfl, hc⟩ := hfirst _ _ hP
                exact ⟨c, _, rfl, hc⟩
            | more hP hw hw' hu =>
                obtain ⟨c, t', rfl, hc⟩ := hfirst _ _ hP
                exact ⟨c, _, rfl, hc⟩
          have hskip : (skip p).read (w' ++ (u ++ rest)) = .ok ((), u ++ rest) := by
            rw [hc]
            exact read_skip hw' hpc
          obtain ⟨s', hs', hroom'⟩ := hroom
          have hrest := @ih s' hroom' m (by omega)
          rw [Reading.items,
            show t ++ w ++ comma :: (w' ++ u) ++ rest = t ++ (w ++ comma :: (w' ++ (u ++ rest))) by simp]
          rw [read_bind_ok hitem', read_bind_ok (read_skip hw hcomma), read_bind_ok (read_store hs'),
            read_bind_ok (read_consume_ne hne)]
          simp only [Bool.false_eq_true, ↓reduceIte]
          rw [read_bind_ok read_consume]
          simp only [Bool.not_true, Bool.false_eq_true, ↓reduceIte]
          rw [read_bind_ok hskip, read_bind_ok hrest]
          rfl

end Items

end Reading
