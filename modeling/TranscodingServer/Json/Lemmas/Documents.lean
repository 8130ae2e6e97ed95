import TranscodingServer.Json.Lemmas.Values

/-!
# Documents: `parse` and `load`
-/

namespace TranscodingServer

open Reading JsonParser

variable {σ : Type} {array : Store σ} {sort : List (Str × Json) → List (Str × Json)}

theorem max_depth_levels : 0 + 2 * (max_depth / 2) = max_depth := by decide

theorem Reads.document {full : Prop} {n : Nat} (hroom : ¬full → array.Room n) :
    Reads 0 full n (fun v t => ∃ w u, Spaces w ∧ Value array.Room sort (max_depth / 2) v u ∧ t = w ++ u)
      (do ws_skip; JsonParser.decode_value array sort (max_depth + 1) 0) := by
  refine Reads.bind (Reads.skip isSpace_zero) fun _ w hw => ?_
  have hfuel : max_depth / 2 < max_depth + 1 := by decide
  have hvalue := @Reads.decode_value σ array sort full _ _ 0 n max_depth_levels hfuel hroom
  refine (hvalue.le (Nat.sub_le _ _)).mono fun v u hu => ?_
  exact ⟨w, u, hw, hu, rfl⟩

/-- What `parse` does with a text that has the terminator.  No read is behind the buffer, also behind
an error, and a value comes back only where the document ends at a terminator. -/
theorem parse_read {full : Prop} {data : List UInt8} (hstop : (0 : UInt8) ∈ data)
    (hroom : ¬full → array.Room data.length) :
    (∃ v t rest, (parse array sort (max_depth + 1)).read data = .ok (v, 0 :: rest) ∧
      data = t ++ 0 :: rest ∧ (0 : UInt8) ∉ t ∧ DocumentOf array.Room sort v t) ∨
    (∃ t rest, (parse array sort (max_depth + 1)).read data = .error (.invalid rest) ∧
      data = t ++ rest ∧ (0 : UInt8) ∉ t) ∨
    (parse array sort (max_depth + 1)).read data = .error .overflow ∧ full := by
  have hgood := @Reads.document σ array sort full _ hroom data hstop (Nat.le_refl _)
  have hparse : (parse array sort (max_depth + 1)).read data =
      finish ((do ws_skip; decode_value array sort (max_depth + 1) 0 : Reader UInt8 Json).read data) :=
    rfl
  rw [hparse]
  cases h : (do ws_skip; decode_value array sort (max_depth + 1) 0 : Reader UInt8 Json).read data with
  | error e =>
      rw [h] at hgood
      cases e with
      | invalid rest =>
          obtain ⟨t, rfl, hfree⟩ := hgood
          obtain ⟨w, rest', hskip, rfl, _, hw⟩ :=
            skip_of_mem isSpace_zero (stop_mem_of_append hstop hfree)
          refine .inr (.inl ⟨t ++ w, rest', read_bind_ok hskip, by rw [List.append_assoc], ?_⟩)
          simp [hfree, hw]
      | overrun => exact hgood.elim
      | overflow => exact .inr (.inr ⟨rfl, hgood⟩)
      | outOfFuel => exact hgood.elim
  | ok r =>
      rw [h] at hgood
      obtain ⟨_, rfl, hfree, w, u, hw, hu, rfl⟩ := hgood
      obtain ⟨w', rest, hskip, hrest, hw', hw'free⟩ :=
        skip_of_mem isSpace_zero (stop_mem_of_append hstop hfree)
      have hmem := stop_mem_of_append (hrest ▸ stop_mem_of_append hstop hfree) hw'free
      have hall : (0 : UInt8) ∉ w ++ u ++ w' := by
        rw [List.mem_append, not_or]
        exact ⟨hfree, hw'free⟩
      cases rest with
      | nil => cases hmem
      | cons c rest =>
          simp only [finish, ws_skip, read_bind_ok hskip, read_bind_ok (read_peek _ _)]
          by_cases hc : c = 0
          · subst hc
            refine .inl ⟨r.1, w ++ u ++ w', rest, rfl, ?_, hall, w, u, w', hw, hw', hu, ?_⟩
            · rw [hrest, ← List.append_assoc]
            · rw [List.append_assoc]
          · rw [if_pos hc]
            refine .inr (.inl ⟨w ++ u ++ w', c :: rest, rfl, ?_, hall⟩)
            rw [hrest, ← List.append_assoc]

theorem c_str_append {t : Str} (ht : (0 : UInt8) ∉ t) (rest : Str) : c_str (t ++ 0 :: rest) = t := by
  have hall : ∀ c ∈ t, decide (c ≠ 0) = true := by
    intro c hc
    simpa using fun h0 : c = 0 => ht (h0 ▸ hc)
  rw [c_str, List.takeWhile_append_of_pos hall, List.takeWhile_cons_of_neg (by simp), List.append_nil]

/-- The buffer up to its first terminator. -/
theorem append_nul (text : Str) : ∃ rest, text ++ [0] = c_str text ++ 0 :: rest := by
  have hsplit := List.takeWhile_append_dropWhile (p := fun c : UInt8 => decide (c ≠ 0)) (l := text)
  have hnot := List.head?_dropWhile_not (fun c : UInt8 => decide (c ≠ 0)) text
  cases hd : text.dropWhile fun c : UInt8 => decide (c ≠ 0) with
  | nil =>
      rw [hd, List.append_nil] at hsplit
      exact ⟨[], by rw [c_str, hsplit]⟩
  | cons c rest =>
      rw [hd] at hnot hsplit
      have hc : c = 0 := by simpa using hnot
      have htext : text = c_str text ++ 0 :: rest := by rw [← hc]; exact hsplit.symm
      exact ⟨rest ++ [0], by rw [← List.cons_append, ← List.append_assoc, ← htext]⟩

theorem read_document {v : Json} {t : Str} (h : DocumentOf array.Room sort v t) (rest : List UInt8) :
    (parse array sort (max_depth + 1)).read (t ++ 0 :: rest) = .ok (v, 0 :: rest) := by
  obtain ⟨w, u, w', hw, hw', hu, rfl⟩ := h
  obtain ⟨c, u', hc, hspace, _⟩ := hu.begins
  have hskip : (skip isSpace).read (w ++ (u ++ (w' ++ 0 :: rest))) = .ok ((), u ++ (w' ++ 0 :: rest)) := by
    rw [hc]
    exact read_skip hw hspace
  have hvalue := Accepts.decode_value max_depth_levels (by decide : max_depth / 2 < max_depth + 1) v u
    (w' ++ 0 :: rest) hu (endsNumber_of_space hw' (by decide))
  have hread :
      (do ws_skip; decode_value array sort (max_depth + 1) 0 : Reader UInt8 Json).read
        (w ++ (u ++ (w' ++ 0 :: rest))) = .ok (v, w' ++ 0 :: rest) :=
    (read_bind_ok hskip).trans hvalue
  rw [show w ++ (u ++ w') ++ 0 :: rest = w ++ (u ++ (w' ++ 0 :: rest)) by simp]
  show finish ((do ws_skip; decode_value array sort (max_depth + 1) 0 : Reader UInt8 Json).read _) = _
  rw [hread]
  exact (read_bind_ok (read_skip hw' isSpace_zero)).trans rfl

end TranscodingServer
