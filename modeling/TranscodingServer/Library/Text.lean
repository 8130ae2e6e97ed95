import Mathlib.Data.List.Infix

/-!
# Texts over an arbitrary alphabet

Searching, cutting and splitting.  Positions are counted from the left, as in
`std::basic_string`; a search that finds nothing and a cut that starts behind the end are `none`.
-/

namespace Text

variable {α : Type*}

/-! ## Searching -/

section Search

variable [DecidableEq α]

/-- The position of the first occurrence of `pat`. -/
def search (pat : List α) : List α → Option Nat
  | [] => if pat.isEmpty then some 0 else none
  | c :: s => if pat.isPrefixOf (c :: s) then some 0 else (search pat s).map (· + 1)

/-- The position of the first occurrence of `pat` at or behind `pos`. -/
def find (s pat : List α) (pos : Nat) : Option Nat :=
  if pos ≤ s.length then (search pat (s.drop pos)).map (· + pos) else none

theorem search_split {pat s : List α} {i : Nat} (h : search pat s = some i) :
    ∃ pre post, s = pre ++ pat ++ post ∧ pre.length = i := by
  induction s generalizing i with
  | nil =>
      simp only [search] at h
      split at h
      · rename_i hp
        cases h
        exact ⟨[], [], by simp [List.isEmpty_iff.mp hp], rfl⟩
      · cases h
  | cons c s ih =>
      simp only [search] at h
      split at h
      · rename_i hp
        cases h
        obtain ⟨post, hpost⟩ := List.isPrefixOf_iff_prefix.mp hp
        exact ⟨[], post, by simp [hpost], rfl⟩
      · obtain ⟨j, hj, rfl⟩ := Option.map_eq_some_iff.mp h
        obtain ⟨pre, post, rfl, rfl⟩ := ih hj
        exact ⟨c :: pre, post, rfl, rfl⟩

/-- The search succeeds exactly on the texts that contain the pattern. -/
theorem search_isSome_iff {pat s : List α} : (search pat s).isSome ↔ pat <:+: s := by
  constructor
  · intro h
    obtain ⟨i, hi⟩ := Option.isSome_iff_exists.mp h
    obtain ⟨pre, post, rfl, _⟩ := search_split hi
    exact ⟨pre, post, rfl⟩
  · intro h
    induction s with
    | nil => simp [search, List.infix_nil.mp h]
    | cons c s ih =>
        simp only [search]
        split
        · rfl
        · rename_i hp
          rcases List.infix_cons_iff.mp h with hpre | hin
          · exact absurd (List.isPrefixOf_iff_prefix.mpr hpre) hp
          · simpa using ih hin

/-- The search finds the first occurrence. -/
theorem search_first {pat a b : List α} : ∃ i, search pat (a ++ pat ++ b) = some i ∧ i ≤ a.length := by
  induction a with
  | nil =>
      refine ⟨0, ?_, Nat.le_refl _⟩
      cases hs : [] ++ pat ++ b with
      | nil => simp_all [search]
      | cons c s =>
          have hp : pat <+: c :: s := by rw [← hs]; exact List.prefix_append pat b
          simp [search, List.isPrefixOf_iff_prefix.mpr hp]
  | cons c a ih =>
      obtain ⟨i, hi, hle⟩ := ih
      simp only [List.cons_append, search]
      split
      · exact ⟨0, rfl, Nat.zero_le _⟩
      · exact ⟨i + 1, by rw [hi]; rfl, Nat.succ_le_succ hle⟩

theorem search_bounds {pat s : List α} {i : Nat} (h : search pat s = some i) :
    i + pat.length ≤ s.length ∧ pat <:+ s.take (i + pat.length) := by
  obtain ⟨pre, post, rfl, rfl⟩ := search_split h
  rw [← List.length_append, List.take_left]
  exact ⟨by simp, List.suffix_append pre pat⟩

/-- The search finds the shortest prefix that ends with the pattern. -/
theorem search_eq_some_iff {pat s : List α} {i : Nat} :
    search pat s = some i ↔ i + pat.length ≤ s.length ∧ pat <:+ s.take (i + pat.length) ∧
      ∀ q, q <+: s → pat <:+ q → s.take (i + pat.length) <+: q := by
  have hshortest : ∀ {i q}, search pat s = some i → q <+: s → pat <:+ q →
      i + pat.length ≤ q.length := by
    rintro i q h ⟨b, rfl⟩ ⟨a, rfl⟩
    obtain ⟨j, hj, hle⟩ := @search_first α _ pat a b
    rw [h, Option.some.injEq] at hj
    rw [List.length_append, hj]
    omega
  constructor
  · intro h
    obtain ⟨hlen, hends⟩ := search_bounds h
    refine ⟨hlen, hends, fun q hq hpat => ?_⟩
    refine List.prefix_of_prefix_length_le (List.take_prefix _ s) hq ?_
    rw [List.length_take_of_le hlen]
    exact hshortest h hq hpat
  · rintro ⟨hlen, hends, hfirst⟩
    have hin : pat <:+: s := hends.isInfix.trans (List.take_prefix _ s).isInfix
    obtain ⟨j, hj⟩ := Option.isSome_iff_exists.mp (search_isSome_iff.mpr hin)
    obtain ⟨hlenj, hendsj⟩ := search_bounds hj
    have hle := hshortest hj (List.take_prefix _ s) hends
    have hge := (hfirst _ (List.take_prefix _ s) hendsj).length_le
    rw [List.length_take_of_le hlen] at hle hge
    rw [List.length_take_of_le hlenj] at hge
    rw [hj, Nat.add_right_cancel (Nat.le_antisymm hle hge)]

theorem find_zero (s pat : List α) : find s pat 0 = search pat s := by
  simp [find]

theorem find_isSome_iff {s pat : List α} : (find s pat 0).isSome ↔ pat <:+: s := by
  rw [find_zero, search_isSome_iff]

theorem find_bounds {s pat : List α} {pos i : Nat} (h : find s pat pos = some i) :
    pos ≤ i ∧ i + pat.length ≤ s.length := by
  unfold find at h
  split at h
  · rename_i hpos
    obtain ⟨j, hj, rfl⟩ := Option.map_eq_some_iff.mp h
    obtain ⟨pre, post, hs, rfl⟩ := search_split hj
    have hlen := congrArg List.length hs
    simp only [List.length_drop, List.length_append] at hlen
    omega
  · cases h

end Search

/-! ## Cutting -/

/-- At most `len` characters from `pos` on; no cut starts behind the end. -/
def substr (s : List α) (pos len : Nat) : Option (List α) :=
  if pos ≤ s.length then some ((s.drop pos).take len) else none

def substrFrom (s : List α) (pos : Nat) : Option (List α) :=
  if pos ≤ s.length then some (s.drop pos) else none

theorem substr_of_le {s : List α} {pos : Nat} (len : Nat) (h : pos ≤ s.length) :
    substr s pos len = some ((s.drop pos).take len) := if_pos h

theorem substrFrom_of_le {s : List α} {pos : Nat} (h : pos ≤ s.length) :
    substrFrom s pos = some (s.drop pos) := if_pos h

/-- A text is cut at its last separator in one way only. -/
theorem append_sep_inj {sep : α} {a a' b b' : List α} (hb : sep ∉ b) (hb' : sep ∉ b')
    (h : a ++ sep :: b = a' ++ sep :: b') : a = a' ∧ b = b' := by
  rcases List.append_eq_append_iff.mp h with ⟨m, rfl, hm⟩ | ⟨m, rfl, hm⟩
  · cases m with
    | nil => simpa using hm
    | cons c m =>
        rw [List.cons_append, List.cons.injEq] at hm
        exact absurd (by simp [hm.2]) hb
  · cases m with
    | nil => simpa [eq_comm] using hm
    | cons c m =>
        rw [List.cons_append, List.cons.injEq] at hm
        exact absurd (by simp [hm.2]) hb'

theorem drop_append_sep (p a : List α) (sep : α) (b : List α) :
    (p ++ (a ++ sep :: b)).drop (p.length + a.length + 1) = b := by
  have h : p ++ (a ++ sep :: b) = (p ++ a ++ [sep]) ++ b := by simp
  rw [h, List.drop_left' (by simp [Nat.add_assoc])]

/-! ## Cutting at the first separator -/

section CutAt

variable [DecidableEq α] {sep : α} {s a b : List α}

/-- What stands in front of the first `sep`, and what stands behind it. -/
def cutAt (sep : α) : List α → Option (List α × List α)
  | [] => none
  | c :: s => if c = sep then some ([], s) else (cutAt sep s).map fun (a, b) => (c :: a, b)

theorem cutAt_append (b : List α) (h : sep ∉ a) : cutAt sep (a ++ sep :: b) = some (a, b) := by
  induction a with
  | nil => simp [cutAt]
  | cons c a ih =>
      rw [List.mem_cons, not_or] at h
      simp [cutAt, Ne.symm h.1, ih h.2]

theorem cutAt_of_not_mem (h : sep ∉ s) : cutAt sep s = none := by
  induction s with
  | nil => rfl
  | cons c s ih =>
      rw [List.mem_cons, not_or] at h
      simp [cutAt, Ne.symm h.1, ih h.2]

theorem cutAt_append_of_not_mem (s : List α) (h : sep ∉ a) :
    cutAt sep (a ++ s) = (cutAt sep s).map fun x => (a ++ x.1, x.2) := by
  induction a with
  | nil => simp
  | cons c a ih =>
      rw [List.mem_cons, not_or] at h
      simp [cutAt, Ne.symm h.1, ih h.2, Function.comp_def]

theorem cutAt_eq_some (h : cutAt sep s = some (a, b)) : s = a ++ sep :: b ∧ sep ∉ a := by
  induction s generalizing a with
  | nil => cases h
  | cons c s ih =>
      simp only [cutAt] at h
      split at h
      · rename_i hc
        cases h
        simp [hc]
      · rename_i hc
        obtain ⟨⟨a', b'⟩, hs, heq⟩ := Option.map_eq_some_iff.mp h
        cases heq
        obtain ⟨rfl, hno⟩ := ih hs
        simp [Ne.symm hc, hno]

theorem cutAt_eq_none (h : cutAt sep s = none) : sep ∉ s := by
  intro hmem
  obtain ⟨a, b, rfl, hno⟩ := List.eq_append_cons_of_mem hmem
  rw [cutAt_append b hno] at h
  cases h

theorem search_singleton (sep : α) (s : List α) :
    search [sep] s = (cutAt sep s).map fun x => x.1.length := by
  induction s with
  | nil => rfl
  | cons c s ih =>
      simp only [search, cutAt, ih]
      by_cases hc : c = sep
      · simp [hc, List.isPrefixOf]
      · simp [hc, Ne.symm hc, List.isPrefixOf, Function.comp_def]

/-- A search for one character from `pos` on cuts what stands there. -/
theorem find_singleton (p s : List α) (sep : α) :
    find (p ++ s) [sep] p.length = (cutAt sep s).map fun x => p.length + x.1.length := by
  simp [find, search_singleton, Function.comp_def, Nat.add_comm]

end CutAt

/-! ## Splitting at separators

A scanner reads a text from left to right; a separator counts only in the states where `plain`
holds, so that a quoted separator does not split.  Empty pieces are dropped. -/

section Split

variable {σ : Type*} (δ : σ → α → σ) (plain : σ → Bool) (sep : α → Bool)

def flush (cur : List α) (rest : List (List α)) : List (List α) :=
  if cur.isEmpty then rest else cur :: rest

/-- The pieces of a text, read from state `q` with `cur` as the piece read so far. -/
def pieces (q : σ) (cur : List α) : List α → List (List α)
  | [] => flush cur []
  | c :: s =>
    if plain q && sep c then flush cur (pieces q [] s) else pieces (δ q c) (cur ++ [c]) s

variable {δ plain sep}

theorem pieces_append {q : σ} {cur u : List α} (s : List α) (hu : ∀ c ∈ u, sep c = false) :
    pieces δ plain sep q cur (u ++ s) = pieces δ plain sep (u.foldl δ q) (cur ++ u) s := by
  induction u generalizing q cur with
  | nil => simp
  | cons c u ih =>
      have hc : sep c = false := hu c (by simp)
      simp only [List.cons_append, pieces, hc, Bool.and_false, Bool.false_eq_true, ↓reduceIte,
        List.foldl_cons]
      rw [ih (fun d hd => hu d (by simp [hd]))]
      simp

theorem pieces_sep {q : σ} {cur : List α} {c : α} (s : List α) (hq : plain q = true)
    (hc : sep c = true) (hcur : cur ≠ []) :
    pieces δ plain sep q cur (c :: s) = cur :: pieces δ plain sep q [] s := by
  simp [pieces, flush, hq, hc, List.isEmpty_iff, hcur]

theorem pieces_head {q : σ} {cur : List α} (s : List α) (hcur : cur ≠ []) :
    ∃ more rest, pieces δ plain sep q cur s = (cur ++ more) :: rest := by
  induction s generalizing q cur with
  | nil => exact ⟨[], [], by simp [pieces, flush, List.isEmpty_iff, hcur]⟩
  | cons c s ih =>
      simp only [pieces]
      split
      · exact ⟨[], _, by simp [flush, List.isEmpty_iff, hcur]; rfl⟩
      · obtain ⟨more, rest, h⟩ := @ih (δ q c) (cur ++ [c]) (by simp)
        exact ⟨c :: more, rest, by simp [h]⟩

/-- Without quotation the piece under way ends at the next separator. -/
theorem pieces_takeWhile {q : σ} {cur : List α} (s : List α) (hcur : cur ≠ []) :
    ∃ rest, pieces δ (fun _ => true) sep q cur s = (cur ++ s.takeWhile (!sep ·)) :: rest := by
  induction s generalizing q cur with
  | nil => exact ⟨[], by simp [pieces, flush, List.isEmpty_iff, hcur]⟩
  | cons c s ih =>
      cases hc : sep c with
      | true => exact ⟨_, by rw [pieces_sep s rfl hc hcur]; simp [hc]; rfl⟩
      | false =>
          obtain ⟨rest, h⟩ := @ih (δ q c) (cur ++ [c]) (by simp)
          exact ⟨rest, by simp [pieces, hc, h]⟩

end Split

/-! ## Coarser and finer components -/

end Text
