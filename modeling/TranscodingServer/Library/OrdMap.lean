import Std.Data.ExtTreeMap
import Mathlib.Data.List.Nodup

/-!
# Ordered maps under runs of updates

Lookups in a `Std.ExtTreeMap` after the keys of a list were inserted, erased or modified one after
the other.  Keys are compared by equality.
-/

namespace OrdMap

open Std

variable {κ ν ι : Type*} [Ord κ] [TransOrd κ]

theorem mem_iff (m : ExtTreeMap κ ν) (k : κ) : k ∈ m ↔ ∃ v, m[k]? = some v := by
  rw [ExtTreeMap.mem_iff_isSome_getElem?, Option.isSome_iff_exists]

theorem not_mem_iff (m : ExtTreeMap κ ν) (k : κ) : k ∉ m ↔ m[k]? = none := by
  rw [ExtTreeMap.mem_iff_isSome_getElem?, Option.not_isSome_iff_eq_none]

variable [LawfulEqOrd κ]

theorem getElem?_insert (m : ExtTreeMap κ ν) (k a : κ) (v : ν) [Decidable (k = a)] :
    (m.insert k v)[a]? = if k = a then some v else m[a]? := by
  simp [ExtTreeMap.getElem?_insert]

theorem getElem?_erase (m : ExtTreeMap κ ν) (k a : κ) [Decidable (k = a)] :
    (m.erase k)[a]? = if k = a then none else m[a]? := by
  simp [ExtTreeMap.getElem?_erase]

theorem getElem?_modify (m : ExtTreeMap κ ν) (k a : κ) (f : ν → ν) [Decidable (k = a)] :
    (m.modify k f)[a]? = if k = a then m[a]?.map f else m[a]? := by
  rw [ExtTreeMap.getElem?_modify]
  by_cases h : k = a
  · subst h; simp
  · simp [h]

/-! ## Keys -/

theorem keys_perm (m m' : ExtTreeMap κ ν) (h : ∀ k, k ∈ m ↔ k ∈ m') : m.keys.Perm m'.keys := by
  rw [List.perm_ext_iff_of_nodup m.nodup_keys m'.nodup_keys]
  simpa using h

theorem keys_insert_perm (m : ExtTreeMap κ ν) {k : κ} (v : ν) (h : k ∉ m) :
    (m.insert k v).keys.Perm (k :: m.keys) := by
  have hnodup : (k :: m.keys).Nodup := List.nodup_cons.mpr ⟨by simpa using h, m.nodup_keys⟩
  rw [List.perm_ext_iff_of_nodup (m.insert k v).nodup_keys hnodup]
  intro a
  rw [ExtTreeMap.mem_keys, ExtTreeMap.mem_insert, Std.compare_eq_iff_eq, List.mem_cons,
    ExtTreeMap.mem_keys, eq_comm]

theorem keys_perm_erase (m : ExtTreeMap κ ν) {k : κ} (h : k ∈ m) :
    m.keys.Perm (k :: (m.erase k).keys) := by
  have hno : k ∉ (m.erase k).keys := by simp
  rw [List.perm_ext_iff_of_nodup m.nodup_keys (List.nodup_cons.mpr ⟨hno, (m.erase k).nodup_keys⟩)]
  intro a
  rw [ExtTreeMap.mem_keys, List.mem_cons, ExtTreeMap.mem_keys, ExtTreeMap.mem_erase, ne_eq,
    Std.compare_eq_iff_eq]
  constructor
  · intro ha
    by_cases hak : a = k
    · exact .inl hak
    · exact .inr ⟨fun hka => hak hka.symm, ha⟩
  · rintro (rfl | ⟨_, ha⟩)
    · exact h
    · exact ha

section Folds

variable (m : ExtTreeMap κ ν) (l : List ι) (key : ι → κ)

theorem getElem?_foldl_insert_of_ne (val : ι → ν) {a : κ} (h : ∀ i ∈ l, key i ≠ a) :
    (l.foldl (fun m i => m.insert (key i) (val i)) m)[a]? = m[a]? := by
  induction l generalizing m with
  | nil => rfl
  | cons i l ih =>
      have hi : key i ≠ a := h i (by simp)
      rw [List.foldl_cons, ih _ fun j hj => h j (by simp [hj])]
      simp [ExtTreeMap.getElem?_insert, hi]

theorem getElem?_foldl_insert (val : ι → ν) (hl : (l.map key).Nodup) {i : ι} (hi : i ∈ l) :
    (l.foldl (fun m i => m.insert (key i) (val i)) m)[key i]? = some (val i) := by
  induction l generalizing m with
  | nil => simp at hi
  | cons j l ih =>
      rw [List.map_cons, List.nodup_cons] at hl
      rw [List.foldl_cons]
      rcases List.mem_cons.mp hi with rfl | hil
      · rw [getElem?_foldl_insert_of_ne _ l key val fun j hj he =>
          hl.1 (List.mem_map.mpr ⟨j, hj, he⟩)]
        exact ExtTreeMap.getElem?_insert_self
      · exact ih _ hl.2 hil

theorem mem_foldl_insert (val : ι → ν) {a : κ} :
    a ∈ l.foldl (fun m i => m.insert (key i) (val i)) m ↔ (∃ i ∈ l, key i = a) ∨ a ∈ m := by
  induction l generalizing m with
  | nil => simp
  | cons i l ih =>
      rw [List.foldl_cons, ih, ExtTreeMap.mem_insert, Std.compare_eq_iff_eq]
      simp only [List.mem_cons, exists_eq_or_imp, or_assoc, or_left_comm]

theorem size_foldl_insert (val : ι → ν) (hl : (l.map key).Nodup) (hm : ∀ i ∈ l, key i ∉ m) :
    (l.foldl (fun m i => m.insert (key i) (val i)) m).size = m.size + l.length := by
  induction l generalizing m with
  | nil => rfl
  | cons i l ih =>
      rw [List.map_cons, List.nodup_cons] at hl
      have hi : ¬m.contains (key i) = true := by
        rw [← ExtTreeMap.mem_iff_contains]; exact hm i (by simp)
      rw [List.foldl_cons, ih _ hl.2, ExtTreeMap.size_insert, if_neg hi, List.length_cons]
      · omega
      · intro j hj
        rw [ExtTreeMap.mem_insert, Std.compare_eq_iff_eq, not_or]
        exact ⟨fun he => hl.1 (List.mem_map.mpr ⟨j, hj, he.symm⟩), hm j (by simp [hj])⟩

theorem getElem?_foldl_erase {a : κ} :
    (l.foldl (fun m i => m.erase (key i)) m)[a]? =
      open Classical in if ∃ i ∈ l, key i = a then none else m[a]? := by
  classical
  induction l generalizing m with
  | nil => simp
  | cons i l ih =>
      rw [List.foldl_cons, ih, getElem?_erase]
      by_cases hi : key i = a <;> simp [hi]

theorem size_foldl_erase (hl : (l.map key).Nodup) (hm : ∀ i ∈ l, key i ∈ m) :
    (l.foldl (fun m i => m.erase (key i)) m).size + l.length = m.size := by
  induction l generalizing m with
  | nil => rfl
  | cons i l ih =>
      rw [List.map_cons, List.nodup_cons] at hl
      have hi : key i ∈ m := hm i (by simp)
      have hpos : 0 < m.size := Nat.pos_of_ne_zero fun h0 => by
        rw [ExtTreeMap.eq_empty_iff_size_eq_zero.mpr h0] at hi
        exact ExtTreeMap.not_mem_empty hi
      have hrest := ih (m.erase (key i)) hl.2 fun j hj => by
        rw [ExtTreeMap.mem_erase, ne_eq, Std.compare_eq_iff_eq]
        exact ⟨fun he => hl.1 (List.mem_map.mpr ⟨j, hj, he.symm⟩), hm j (by simp [hj])⟩
      rw [ExtTreeMap.size_erase, if_pos (ExtTreeMap.mem_iff_contains.mp hi)] at hrest
      rw [List.foldl_cons, List.length_cons]
      omega

/-- Modifications of one entry, one after the other, are one modification. -/
theorem foldl_modify (k : κ) (f : ι → ν → ν) :
    l.foldl (fun m i => m.modify k (f i)) m = m.modify k fun v => l.foldl (fun v i => f i v) v := by
  classical
  ext a : 1
  induction l generalizing m with
  | nil =>
      rw [List.foldl_nil, getElem?_modify]
      split <;> simp
  | cons i l ih =>
      rw [List.foldl_cons, ih, getElem?_modify, getElem?_modify, getElem?_modify]
      split <;> simp [Function.comp_def]

end Folds

end OrdMap
