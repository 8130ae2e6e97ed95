import Mathlib.Data.List.Perm.Basic
import TranscodingServer.Json.Reader

/-!
# Lookups: the sorted fields of an object
-/

namespace TranscodingServer

/-- How `std::sort` leaves the fields; the order of fields with one key is its own. -/
def SortedFields (fields : List (Str × Json)) : Prop :=
  fields.Pairwise fun f g => keyLt g.1 f.1 = false

theorem keyLt_irrefl (s : Str) : keyLt s s = false := by
  induction s with
  | nil => rfl
  | cons c s ih =>
      have hc : ¬c.toInt8 < c.toInt8 := Int8.lt_irrefl
      rw [keyLt, if_neg hc, if_neg hc, ih]

theorem keyLt_trichotomous {s t : Str} (h : keyLt s t = false) (h' : keyLt t s = false) : s = t := by
  induction s generalizing t with
  | nil =>
      cases t with
      | nil => rfl
      | cons d t => cases h
  | cons c s ih =>
      cases t with
      | nil => cases h'
      | cons d t =>
          simp only [keyLt] at h h'
          split at h
          · cases h
          · rename_i hcd
            split at h
            · rename_i hdc
              rw [if_pos hdc] at h'
              cases h'
            · rename_i hdc
              rw [if_neg hdc, if_neg hcd] at h'
              have hle := Int8.not_lt.mp hcd
              have hge := Int8.not_lt.mp hdc
              have hc : c = d := by
                rw [← UInt8.toUInt8_toInt8 c, Int8.le_antisymm hge hle, UInt8.toUInt8_toInt8]
              rw [hc, ih h h']

theorem lower_bound_cons (f : Str × Json) (fields : List (Str × Json)) (key : Str) :
    lower_bound (f :: fields) key =
      if keyLt f.1 key then lower_bound fields key else f :: fields := by
  rw [lower_bound, List.dropWhile_cons]
  rfl

/-- On sorted fields the lower bound is where a search from the left would stop. -/
theorem lookup_of_sorted {fields : List (Str × Json)}
    (h : SortedFields fields) (key : Str) : lookup fields key = fields.lookup key := by
  induction fields with
  | nil => rfl
  | cons f fields ih =>
      obtain ⟨k, v⟩ := f
      rw [SortedFields, List.pairwise_cons] at h
      cases hlt : keyLt k key with
      | true =>
          have hne : key ≠ k := by
            rintro rfl
            rw [keyLt_irrefl] at hlt
            cases hlt
          have hrest : lookup ((k, v) :: fields) key = lookup fields key := by
            rw [lookup, lower_bound_cons, if_pos hlt, lookup]
          rw [hrest, ih h.2, List.lookup_cons, beq_eq_false_iff_ne.mpr hne]
      | false =>
          have hdrop : lower_bound ((k, v) :: fields) key = (k, v) :: fields := by
            rw [lower_bound_cons, if_neg (by simp [hlt])]
          rw [lookup, hdrop, List.lookup_cons]
          by_cases hk : k = key
          · subst hk
            simp
          · -- the keys behind are not smaller than `k`, which is greater than the key
            have hnone : fields.lookup key = none := by
              rw [List.lookup_eq_none_iff]
              intro g hg
              have hgk := h.1 g hg
              rw [bne_iff_ne]
              rintro rfl
              exact hk (keyLt_trichotomous hlt hgk)
            simp only [if_neg hk, beq_eq_false_iff_ne.mpr (Ne.symm hk), hnone]

theorem lookup_perm {l l' : List (Str × Json)} (h : l.Perm l') (hd : (l.map Prod.fst).Nodup)
    (key : Str) : l.lookup key = l'.lookup key := by
  induction h with
  | nil => rfl
  | cons f _ ih =>
      rw [List.map_cons, List.nodup_cons] at hd
      rw [List.lookup_cons, List.lookup_cons, ih hd.2]
  | swap f g l =>
      simp only [List.map_cons, List.nodup_cons, List.mem_cons, not_or] at hd
      obtain ⟨k, v⟩ := f
      obtain ⟨k', v'⟩ := g
      simp only [List.lookup_cons]
      cases hf : key == k with
      | false => rfl
      | true =>
          cases hg : key == k' with
          | false => rfl
          | true => exact absurd ((eq_of_beq hg).symm.trans (eq_of_beq hf)) hd.1.1
  | trans h₁ _ ih₁ ih₂ =>
      exact (ih₁ hd).trans (ih₂ ((h₁.map Prod.fst).nodup_iff.mp hd))

end TranscodingServer
