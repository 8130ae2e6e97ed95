import TranscodingServer.Json.Grammar

/-!
# Strings: `decode_string` and `unescape`
-/

namespace TranscodingServer

open Reading JsonParser

theorem mem_escapes {e : UInt8} (h : isEscape e = true) :
    ∃ c, unescaped e = some c ∧ e ≠ 0 := by
  have hall : (quote :: backslash :: str "/bfnrt").all
      (fun e => (unescaped e).isSome && e != 0) = true := by decide
  have he := List.all_eq_true.mp hall e (List.contains_iff_mem.mp h)
  rw [Bool.and_eq_true, bne_iff_ne] at he
  obtain ⟨c, hc⟩ := Option.isSome_iff_exists.mp he.1
  exact ⟨c, hc, he.2⟩

/-- What `unescape` knows is what `decode_string` lets through. -/
theorem isEscape_of_unescaped {e c : UInt8} (h : unescaped e = some c) :
    isEscape e = true ∧ e ≠ 'u'.toUInt8 := by
  unfold unescaped at h
  repeat' split at h
  all_goals first
    | cases h; done
    | subst e; decide

theorem check_ne_zero {h : UInt8} (hc : check h = true) : h ≠ 0 := by
  rintro rfl
  exact absurd hc (by decide)

theorem unescape_chars {raw s : Str} (h : Chars raw s) : unescape raw = s := by
  induction h with
  | nil => rfl
  | plain _ hb _ _ ih =>
      rw [unescape.eq_def]
      simp only [if_neg hb, ih]
  | escape he _ ih =>
      have hu := (isEscape_of_unescaped he).2
      rw [unescape.eq_def]
      simp only [↓reduceIte, if_neg hu, he, Option.toList_some, List.singleton_append, ih]
  | code _ _ _ _ _ ih =>
      rw [unescape.eq_def]
      simp only [↓reduceIte, ih]

/-- Without the flag the characters are the string; `unescape` decodes them in any case. -/
theorem RString.s_chars {v : RString} {s : Str} (h : Chars v.raw s)
    (hflag : v.has_escaping = false → v.raw = s) : v.s = s := by
  unfold RString.s
  cases he : v.has_escaping with
  | false => exact hflag he
  | true => exact unescape_chars h

/-! ## From the reader -/

variable {full : Prop}

/-- What the loop of `decode_string` has read. -/
def ReadChars (v : RString) (t : Str) : Prop :=
  t = v.raw ++ [quote] ∧ ∃ s, Chars v.raw s ∧ (v.has_escaping = false → v.raw = s)

theorem pass_good {cs : Str} {escape : Bool} {data : List UInt8} {o : Outcome UInt8 RString}
    (hcs : (0 : UInt8) ∉ cs)
    (hread : ∀ v t, ReadChars v t → ReadChars ⟨cs ++ v.raw, escape || v.has_escaping⟩ (cs ++ t))
    (h : o.Good 0 full ReadChars data) : (passed cs escape o).Good 0 full ReadChars (cs ++ data) := by
  cases o with
  | error e =>
      cases e with
      | invalid rest =>
          obtain ⟨t, rfl, hfree⟩ := h
          exact ⟨cs ++ t, by rw [List.append_assoc], by simp [hcs, hfree]⟩
      | overrun => exact h
      | overflow => exact h
      | outOfFuel => exact h
  | ok r =>
      obtain ⟨t, ht, hfree, hP⟩ := h
      exact ⟨cs ++ t, by rw [ht, List.append_assoc], by simp [hcs, hfree], hread _ _ hP⟩

theorem ReadChars.plain {c : UInt8} (hc : c ≠ quote ∧ c ≠ backslash ∧ c ≠ 0) {v : RString} {t : Str}
    (h : ReadChars v t) : ReadChars ⟨[c] ++ v.raw, false || v.has_escaping⟩ ([c] ++ t) := by
  obtain ⟨rfl, s, hs, hflag⟩ := h
  refine ⟨rfl, c :: s, .plain hc.1 hc.2.1 hc.2.2 hs, fun he => ?_⟩
  rw [hflag he]
  rfl

theorem ReadChars.escape {e c : UInt8} (he : unescaped e = some c) {v : RString} {t : Str}
    (h : ReadChars v t) :
    ReadChars ⟨[backslash, e] ++ v.raw, true || v.has_escaping⟩ ([backslash, e] ++ t) := by
  obtain ⟨rfl, s, hs, _⟩ := h
  refine ⟨rfl, c :: s, .escape he hs, fun he => ?_⟩
  cases he

theorem ReadChars.code {h₁ h₂ h₃ h₄ : UInt8} (hc : check h₁ && check h₂ && check h₃ && check h₄)
    {v : RString} {t : Str} (h : ReadChars v t) :
    ReadChars ⟨[backslash, 'u'.toUInt8, h₁, h₂, h₃, h₄] ++ v.raw, true || v.has_escaping⟩
      ([backslash, 'u'.toUInt8, h₁, h₂, h₃, h₄] ++ t) := by
  obtain ⟨rfl, s, hs, _⟩ := h
  simp only [Bool.and_eq_true] at hc
  obtain ⟨⟨⟨hc₁, hc₂⟩, hc₃⟩, hc₄⟩ := hc
  refine ⟨rfl, _, .code hc₁ hc₂ hc₃ hc₄ hs, fun he => ?_⟩
  cases he

theorem stringLoop_good {data : List UInt8} (hstop : (0 : UInt8) ∈ data) :
    (stringLoop data).Good 0 full ReadChars data := by
  have hback : (0 : UInt8) ∉ [backslash] := by decide
  fun_induction stringLoop data with
  | case1 => cases hstop
  | case2 c data hc ih =>
      have hmem : (0 : UInt8) ∈ data := (List.mem_cons.mp hstop).resolve_left (Ne.symm hc.2.2)
      exact pass_good (by simpa using Ne.symm hc.2.2) (fun _ _ => ReadChars.plain hc) (ih hmem)
  | case3 data => exact ⟨[quote], rfl, by decide, rfl, [], .nil, fun _ => rfl⟩
  | case4 => exact absurd hstop hback
  | case5 h₁ h₂ h₃ h₄ data hc _ _ ih =>
      have hfree : (0 : UInt8) ∉ [backslash, 'u'.toUInt8, h₁, h₂, h₃, h₄] := by
        simp only [Bool.and_eq_true] at hc
        simp only [List.mem_cons, List.not_mem_nil, or_false, not_or]
        exact ⟨by decide, by decide, (check_ne_zero hc.1.1.1).symm, (check_ne_zero hc.1.1.2).symm,
          (check_ne_zero hc.1.2).symm, (check_ne_zero hc.2).symm⟩
      refine pass_good hfree (fun _ _ => ReadChars.code hc) (ih ?_)
      exact @stop_mem_of_append _ 0 [backslash, 'u'.toUInt8, h₁, h₂, h₃, h₄] data hstop hfree
  | case6 => exact ⟨[backslash], rfl, hback⟩
  | case7 data _ hall =>
      -- the digits end at the terminator at the latest
      have hmem : (0 : UInt8) ∈ data :=
        @stop_mem_of_append _ 0 [backslash, 'u'.toUInt8] data hstop (by decide)
      exact absurd rfl (check_ne_zero (List.all_eq_true.mp hall 0 hmem))
  | case8 => exact ⟨[backslash], rfl, hback⟩
  | case9 e data _ he _ _ ih =>
      obtain ⟨c, hc, hne⟩ := mem_escapes he
      have hfree : (0 : UInt8) ∉ [backslash, e] := by
        simp only [List.mem_cons, List.not_mem_nil, or_false, not_or]
        exact ⟨by decide, Ne.symm hne⟩
      refine pass_good hfree (fun _ _ => ReadChars.escape hc) (ih ?_)
      exact @stop_mem_of_append _ 0 [backslash, e] data hstop hfree
  | case10 => exact ⟨[backslash], rfl, hback⟩
  | case11 => exact ⟨[], rfl, List.not_mem_nil⟩

theorem Reads.string_parts {n : Nat} :
    Reads 0 full n (fun v t => t = quote :: (v.raw ++ [quote]) ∧
      ∃ s, Chars v.raw s ∧ (v.has_escaping = false → v.raw = s)) JsonParser.decode_string := by
  refine Reads.bind (Reads.consume (by decide)) fun b t ht => ?_
  cases b with
  | false => exact Reads.reject_bind
  | true =>
      intro data hstop hn
      have hloop : Reads 0 full (n - t.length) ReadChars (stringLoop : Reader UInt8 RString) :=
        fun data hstop _ => stringLoop_good hstop
      refine hloop.mono ?_ data hstop hn
      rintro v u ⟨rfl, hs⟩
      rw [ht]
      exact ⟨rfl, hs⟩

theorem Reads.decode_string {n : Nat} :
    Reads 0 full n (fun v t => Quoted v.s t) JsonParser.decode_string := by
  refine Reads.string_parts.mono ?_
  rintro v _ ⟨rfl, s, hs, hflag⟩
  rw [RString.s_chars hs hflag]
  exact ⟨v.raw, hs, rfl⟩

/-! ## From the text -/

theorem read_chars {raw s : Str} (h : Chars raw s) (rest : List UInt8) :
    ∃ v : RString, stringLoop (raw ++ quote :: rest) = .ok (v, rest) ∧ v.raw = raw ∧
      (v.has_escaping = false → raw = s) := by
  induction h with
  | nil =>
      refine ⟨⟨[], false⟩, ?_, rfl, fun _ => rfl⟩
      rw [List.nil_append, stringLoop.eq_def]
      simp only [ne_eq, not_true_eq_false, false_and, ↓reduceIte]
  | @plain c raw s hq hb h0 _ ih =>
      obtain ⟨v, hv, rfl, hflag⟩ := ih
      refine ⟨⟨[c] ++ v.raw, false || v.has_escaping⟩, ?_, rfl, fun he => by rw [hflag he]⟩
      rw [List.cons_append, stringLoop.eq_def]
      simp only [if_pos (And.intro hq (And.intro hb h0)), hv, passed]
  | @escape e c raw s he _ ih =>
      obtain ⟨v, hv, rfl, _⟩ := ih
      obtain ⟨hesc, hu⟩ := isEscape_of_unescaped he
      refine ⟨⟨[backslash, e] ++ v.raw, true || v.has_escaping⟩, ?_, rfl, fun he => by cases he⟩
      rw [List.cons_append, List.cons_append, stringLoop.eq_def]
      simp only [ne_eq, not_true_eq_false, false_and, and_false, ↓reduceIte, if_neg hu, hesc, hv, passed,
        show ¬(backslash = quote) by decide]
  | @code h₁ h₂ h₃ h₄ raw s hc₁ hc₂ hc₃ hc₄ _ ih =>
      obtain ⟨v, hv, rfl, _⟩ := ih
      refine ⟨⟨[backslash, 'u'.toUInt8, h₁, h₂, h₃, h₄] ++ v.raw, true || v.has_escaping⟩, ?_, rfl,
        fun he => by cases he⟩
      simp only [List.cons_append]
      rw [stringLoop.eq_def]
      simp only [ne_eq, not_true_eq_false, false_and, and_false, ↓reduceIte, hc₁, hc₂, hc₃, hc₄,
        Bool.and_self, hv, passed, show ¬(backslash = quote) by decide]
      rfl

theorem read_decode_string {s t : Str} (rest : Str) (h : Quoted s t) :
    ∃ v : RString, JsonParser.decode_string.read (t ++ rest) = .ok (v, rest) ∧ v.s = s := by
  obtain ⟨raw, hraw, rfl⟩ := h
  obtain ⟨v, hv, rfl, hflag⟩ := read_chars hraw rest
  refine ⟨v, ?_, RString.s_chars hraw hflag⟩
  rw [JsonParser.decode_string, List.cons_append, List.append_assoc, read_bind_ok read_consume]
  exact hv

end TranscodingServer
