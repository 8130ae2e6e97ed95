import TranscodingServer.Json.Grammar

/-!
# The array of a list or an object

It doubles up to 65536 elements and grows by 60000 from there on, until its next size does not fit into
an `int`.
-/

namespace TranscodingServer

open Reading JsonParser

variable {n : Nat} {v : Elements}

/-! ## One growth -/

theorem emplace_back_room (h : v.lremain_ ≠ 0) :
    emplace_back v = some { lsize_ := v.lsize_ + 1, lremain_ := v.lremain_ - 1 } := if_pos h

theorem emplace_back_double (hlo : 2 ≤ n) (hhi : n ≤ 60000) :
    emplace_back ⟨n, 0⟩ = some ⟨n + 1, n + n - n - 1⟩ := by
  have hsize : static_cast_int (n + n) = ((n + n : Nat) : Int) := static_cast_int_of_lt (by omega)
  have hdiff : ((n + n : Nat) : Int) - (n : Int) = (n : Int) := by omega
  have hmod : (n : Int) % 2 ^ 32 = n := Int.emod_eq_of_lt (by omega) (by omega)
  have hgrow : ¬(((n + n : Nat) : Int) - (n : Int)) % 2 ^ 32 > 60000 := by
    rw [hdiff, hmod]
    omega
  have hfour : ¬((n + n : Nat) : Int) < 4 := by omega
  have hroom : ¬((n + n : Nat) : Int) < (n : Int) + 1 := by omega
  simp only [emplace_back, ne_eq, not_true_eq_false, if_false, hsize, if_neg hgrow, if_neg hfour,
    if_neg hroom, Int.toNat_natCast]

theorem static_cast_int_emod (n : Nat) : static_cast_int n % 2 ^ 32 = (n : Int) % 2 ^ 32 := by
  have h := @Int.bmod_emod n (2 ^ 32)
  rwa [Int.natCast_pow] at h

/-- Above 60000 elements the difference to the doubled size is that number, also where the doubled size
does not fit. -/
theorem grows_by_step (hlo : 60000 < n) (hhi : n < 2 ^ 31) :
    (static_cast_int (n + n) - (n : Int)) % 2 ^ 32 > 60000 := by
  have hmod := static_cast_int_emod (n + n)
  omega

theorem emplace_back_step (hlo : 60000 < n) (hhi : n + 60000 < 2 ^ 31) :
    emplace_back ⟨n, 0⟩ = some ⟨n + 1, n + 60000 - n - 1⟩ := by
  have hsize : static_cast_int (n + 60000) = ((n + 60000 : Nat) : Int) := static_cast_int_of_lt hhi
  have hfour : ¬((n + 60000 : Nat) : Int) < 4 := by omega
  have hroom : ¬((n + 60000 : Nat) : Int) < (n : Int) + 1 := by omega
  have hgrow := @grows_by_step n hlo (by omega)
  simp only [emplace_back, ne_eq, not_true_eq_false, if_false, if_pos hgrow, hsize, if_neg hfour,
    if_neg hroom, Int.toNat_natCast]

theorem bmod_of_ge {m : Nat} (hlo : m ≤ 2 * n) (hhi : n < m) : Int.bmod n m = n - m := by
  rw [← Int.sub_bmod_right]
  exact Int.bmod_eq_of_le_mul_two (by omega) (by omega)

theorem static_cast_int_of_ge (hlo : 2 ^ 31 ≤ n) (hhi : n < 2 ^ 32) :
    static_cast_int n = n - 2 ^ 32 := by
  have h := @bmod_of_ge n (2 ^ 32) (by omega) hhi
  rwa [Int.natCast_pow] at h

/-- The new size is negative, and the new array has four elements. -/
theorem emplace_back_overrun (hlo : 2 ^ 31 ≤ n + 60000) (hhi : n < 2 ^ 31) :
    emplace_back ⟨n, 0⟩ = none := by
  have hsize : static_cast_int (n + 60000) < 4 := by
    have h := static_cast_int_of_ge hlo (by omega)
    omega
  have hfull : (4 : Int) < (n : Int) + 1 := by omega
  have hgrow := @grows_by_step n (by omega) hhi
  simp only [emplace_back, ne_eq, not_true_eq_false, if_false, if_pos hgrow, if_pos hsize,
    if_pos hfull]

/-! ## The sizes -/

/-- The sizes of the array. -/
def Size (c : Nat) : Prop :=
  c = 0 ∨ (∃ k ≤ 13, c = 4 * 2 ^ k) ∨ ∃ k ≤ 35790, c = 65536 + 60000 * k

/-- The first elements of the array are in use. -/
def Sized (v : Elements) : Prop := Size (v.lsize_ + v.lremain_)

theorem Size.le {c : Nat} (h : Size c) : c ≤ max_elements := by
  rw [max_elements]
  rcases h with rfl | ⟨k, hk, rfl⟩ | ⟨k, hk, rfl⟩
  · omega
  · have hpow : 2 ^ k ≤ 2 ^ 13 := Nat.pow_le_pow_right (by decide) hk
    omega
  · omega

/-- A full array below the limit grows to the next size. -/
theorem Size.grow (h : Size n) (hlt : n < max_elements) :
    ∃ r, emplace_back ⟨n, 0⟩ = some ⟨n + 1, r⟩ ∧ Size (n + 1 + r) := by
  rw [max_elements] at hlt
  rcases h with rfl | ⟨k, hk, rfl⟩ | ⟨k, hk, rfl⟩
  · exact ⟨3, by decide, .inr (.inl ⟨0, by omega, rfl⟩)⟩
  · have hpow : 2 ^ k ≤ 2 ^ 13 := Nat.pow_le_pow_right (by decide) hk
    have hone : 1 ≤ 2 ^ k := Nat.one_le_two_pow
    refine ⟨_, emplace_back_double (by omega) (by omega), ?_⟩
    have hsize : 4 * 2 ^ k + 1 + (4 * 2 ^ k + 4 * 2 ^ k - 4 * 2 ^ k - 1) = 4 * 2 ^ (k + 1) := by
      rw [Nat.pow_succ]
      omega
    rw [hsize]
    rcases Nat.lt_or_eq_of_le hk with hlt | rfl
    · exact .inr (.inl ⟨k + 1, by omega, rfl⟩)
    · exact .inr (.inr ⟨0, by omega, rfl⟩)
  · have hstep := @emplace_back_step (65536 + 60000 * k) (by omega) (by omega)
    refine ⟨_, hstep, .inr (.inr ⟨k + 1, by omega, ?_⟩)⟩
    omega

theorem Sized.push (h : Sized v) (hlt : v.lsize_ < max_elements) :
    ∃ v', emplace_back v = some v' ∧ Sized v' ∧ v'.lsize_ = v.lsize_ + 1 := by
  obtain ⟨n, r⟩ := v
  cases r with
  | zero =>
      obtain ⟨r, hgrow, hsize⟩ := Size.grow h hlt
      exact ⟨⟨n + 1, r⟩, hgrow, hsize, rfl⟩
  | succ r =>
      have hroom := @emplace_back_room ⟨n, r + 1⟩ (Nat.succ_ne_zero r)
      refine ⟨⟨n + 1, r⟩, hroom, ?_, rfl⟩
      have hsize : n + 1 + r = n + (r + 1) := by omega
      rw [Sized, hsize]
      exact h

theorem Sized.full (h : Sized v) (heq : v.lsize_ = max_elements) : emplace_back v = none := by
  have hle := h.le
  obtain ⟨n, r⟩ := v
  rw [max_elements] at heq hle
  obtain rfl : r = 0 := by
    simp only at heq hle
    omega
  have hn : n = 2147465536 := heq
  exact emplace_back_overrun (by omega) (by omega)

/-- The array has room for `max_elements` elements, and an element more is written behind it. -/
theorem room_elements (k : Nat) : Elements.store.Room k ↔ k ≤ max_elements := by
  have hpush : ∀ v, Sized v → v.lsize_ < max_elements →
      ∃ v', Elements.store.push v = some v' ∧ Sized v' ∧ v'.lsize_ = v.lsize_ + 1 :=
    fun _ h hlt => h.push hlt
  have hfull : ∀ v, Sized v → v.lsize_ = max_elements → Elements.store.push v = none :=
    fun _ h heq => h.full heq
  have h := Store.roomFrom_iff hpush hfull (s := Elements.store.empty) (.inl rfl) (Nat.zero_le _) k
  rwa [show Elements.store.empty.lsize_ = 0 from rfl, Nat.zero_add] at h

end TranscodingServer
