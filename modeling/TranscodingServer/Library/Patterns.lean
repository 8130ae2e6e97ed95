import Mathlib.Data.List.MinMax

/-!
# Patterns and tables of patterns

A pattern reads a text item by item; a parameter takes as much of the text as its kind says.  A table
lists patterns with their ranks, and of the patterns that read a text the one of least rank is chosen.
-/

namespace Patterns

inductive Piece (τ κ : Type*)
  | item (c : τ)
  | param (k : κ)
  deriving DecidableEq

abbrev Pattern (τ κ : Type*) := List (Piece τ κ)

abbrev Table (τ κ ι : Type*) := List (Pattern τ κ × ι)

variable {τ κ β ι : Type*}

/-- The table of what stands behind `label`. -/
def under (label : Pattern τ κ) (table : Table τ κ ι) : Table τ κ ι :=
  table.map fun row => (label ++ row.1, row.2)

@[simp] theorem under_nil (label : Pattern τ κ) : under label ([] : Table τ κ ι) = [] := rfl

@[simp] theorem nil_under (table : Table τ κ ι) : under [] table = table := by simp [under]

@[simp] theorem under_append (label : Pattern τ κ) (t t' : Table τ κ ι) :
    under label (t ++ t') = under label t ++ under label t' := by
  simp [under]

@[simp] theorem under_under (label label' : Pattern τ κ) (table : Table τ κ ι) :
    under label (under label' table) = under (label ++ label') table := by
  simp [under]

theorem mem_under {label p : Pattern τ κ} {i : ι} {table : Table τ κ ι} :
    (p, i) ∈ under label table ↔ ∃ q, (q, i) ∈ table ∧ p = label ++ q := by
  constructor
  · intro h
    obtain ⟨⟨q, j⟩, hmem, heq⟩ := List.mem_map.mp h
    cases heq
    exact ⟨q, hmem, rfl⟩
  · intro h
    obtain ⟨q, hmem, rfl⟩ := h
    exact List.mem_map.mpr ⟨(q, i), hmem, rfl⟩

/-! ## Reading -/

section Read

variable [DecidableEq τ] (take : κ → List τ → Option (β × List τ))

/-- What the parameters of a pattern take, if it reads the whole text. -/
def read : Pattern τ κ → List τ → Option (List β)
  | [], [] => some []
  | [], _ :: _ => none
  | .item _ :: _, [] => none
  | .item c :: ps, d :: s => if c = d then read ps s else none
  | .param k :: ps, s => (take k s).bind fun x => (read ps x.2).map (x.1 :: ·)

theorem read_items_append (w : List τ) (ps : Pattern τ κ) (s : List τ) :
    read take (w.map .item ++ ps) s =
      if w.isPrefixOf s then read take ps (s.drop w.length) else none := by
  induction w generalizing s with
  | nil => simp
  | cons c w ih =>
      cases s with
      | nil => simp [read]
      | cons d s =>
          by_cases h : c = d
          · simp [read, h, ih]
          · simp [read, h]

theorem read_items (w s : List τ) :
    read take (w.map (.item : τ → Piece τ κ)) s = if w = s then some [] else none := by
  have h := read_items_append take w [] s
  rw [List.append_nil] at h
  rw [h]
  by_cases hpre : w <+: s
  · obtain ⟨rest, rfl⟩ := hpre
    cases rest <;> simp [read]
  · rw [if_neg (mt List.isPrefixOf_iff_prefix.mp hpre), if_neg fun heq : w = s => hpre (heq ▸ List.prefix_rfl)]

/-! ## Choosing -/

/-- The rows that read a text, with what their parameters take. -/
def matching (table : Table τ κ ι) (s : List τ) : List (ι × List β) :=
  table.filterMap fun row => (read take row.1 s).map (row.2, ·)

theorem mem_matching {table : Table τ κ ι} {s : List τ} {i : ι} {bs : List β} :
    (i, bs) ∈ matching take table s ↔ ∃ p, (p, i) ∈ table ∧ read take p s = some bs := by
  simp [matching, List.mem_filterMap]

variable [LinearOrder ι]

/-- The first of the rows of least rank that read a text. -/
def choose (table : Table τ κ ι) (s : List τ) : Option (ι × List β) :=
  (matching take table s).argmin Prod.fst

/-- The better of two choices, the left one of equals. -/
def better {α : Type*} : Option (ι × α) → Option (ι × α) → Option (ι × α)
  | none, b => b
  | some a, none => some a
  | some a, some b => if b.1 < a.1 then some b else some a

@[simp] theorem better_none {α : Type*} (a : Option (ι × α)) : better a none = a := by
  cases a <;> rfl

theorem better_assoc {α : Type*} (a b c : Option (ι × α)) :
    better (better a b) c = better a (better b c) := by
  cases a with
  | none => rfl
  | some a =>
      cases b with
      | none => rfl
      | some b =>
          cases c with
          | none => simp
          | some c =>
              by_cases hba : b.1 < a.1
              · by_cases hcb : c.1 < b.1
                · simp [better, hba, hcb, hcb.trans hba]
                · simp [better, hba, hcb]
              · by_cases hcb : c.1 < b.1
                · simp [better, hba, hcb]
                · have hca : ¬ c.1 < a.1 := not_lt.mpr ((not_lt.mp hba).trans (not_lt.mp hcb))
                  simp [better, hba, hcb, hca]

theorem argmin_concat {α : Type*} (l : List (ι × α)) (x : ι × α) :
    (l ++ [x]).argmin Prod.fst = better (l.argmin Prod.fst) (some x) := by
  rw [List.argmin_concat]
  cases l.argmin Prod.fst <;> rfl

theorem argmin_append {α : Type*} (l l' : List (ι × α)) :
    (l ++ l').argmin Prod.fst = better (l.argmin Prod.fst) (l'.argmin Prod.fst) := by
  induction l' using List.reverseRecOn with
  | nil => simp
  | append_singleton l' x ih =>
      rw [← List.append_assoc, argmin_concat, ih, argmin_concat, better_assoc]

@[simp] theorem choose_nil (s : List τ) : choose take ([] : Table τ κ ι) s = none := rfl

theorem choose_append (t t' : Table τ κ ι) (s : List τ) :
    choose take (t ++ t') s = better (choose take t s) (choose take t' s) := by
  rw [choose, matching, List.filterMap_append]
  exact argmin_append _ _

theorem choose_under_items (w : List τ) (table : Table τ κ ι) (s : List τ) :
    choose take (under (w.map .item) table) s =
      if w.isPrefixOf s then choose take table (s.drop w.length) else none := by
  have h : matching take (under (w.map .item) table) s =
      if w.isPrefixOf s then matching take table (s.drop w.length) else [] := by
    simp only [matching, under, List.filterMap_map, Function.comp_def, read_items_append]
    split
    · rfl
    · simp
  rw [choose, h]
  split
  · rfl
  · simp

theorem argmin_map {α γ : Type*} (f : α → γ) (l : List (ι × α)) :
    (l.map (Prod.map id f)).argmin Prod.fst = (l.argmin Prod.fst).map (Prod.map id f) := by
  induction l using List.reverseRecOn with
  | nil => simp
  | append_singleton l x ih =>
      rw [List.map_append, List.map_singleton, List.argmin_concat, List.argmin_concat, ih]
      cases l.argmin Prod.fst with
      | none => rfl
      | some a =>
          by_cases h : x.1 < a.1
          · simp [h]
          · simp [h]

theorem choose_under_param (k : κ) (table : Table τ κ ι) (s : List τ) :
    choose take (under [.param k] table) s =
      (take k s).bind fun x => (choose take table x.2).map (Prod.map id (x.1 :: ·)) := by
  cases htake : take k s with
  | none => simp [choose, matching, under, List.filterMap_map, read, htake]
  | some x =>
      have h : matching take (under [.param k] table) s =
          (matching take table x.2).map (Prod.map id (x.1 :: ·)) := by
        simp [matching, under, List.filterMap_map, Function.comp_def, read, htake,
          List.map_filterMap]
      rw [choose, h, argmin_map]
      rfl

theorem choose_eq_none_iff {table : Table τ κ ι} {s : List τ} :
    choose take table s = none ↔ ∀ p i, (p, i) ∈ table → read take p s = none := by
  rw [choose, List.argmin_eq_none, List.eq_nil_iff_forall_not_mem]
  constructor
  · intro h p i hmem
    cases hread : read take p s with
    | none => rfl
    | some bs => exact absurd ((mem_matching take).mpr ⟨p, hmem, hread⟩) (h (i, bs))
  · intro h ⟨i, bs⟩ hmem
    obtain ⟨p, hmem, hread⟩ := (mem_matching take).mp hmem
    rw [h p i hmem] at hread
    cases hread

theorem choose_mem {table : Table τ κ ι} {s : List τ} {i : ι} {bs : List β}
    (h : choose take table s = some (i, bs)) : ∃ p, (p, i) ∈ table ∧ read take p s = some bs :=
  (mem_matching take).mp (List.argmin_mem h)

theorem choose_le {table : Table τ κ ι} {s : List τ} {i j : ι} {bs cs : List β}
    {p : Pattern τ κ} (h : choose take table s = some (i, bs)) (hmem : (p, j) ∈ table)
    (hread : read take p s = some cs) : i ≤ j :=
  List.le_of_mem_argmin (f := Prod.fst) ((mem_matching take).mpr ⟨p, hmem, hread⟩) h

end Read

end Patterns
