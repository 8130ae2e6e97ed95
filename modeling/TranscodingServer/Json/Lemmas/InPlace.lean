import TranscodingServer.Json.Buffer

/-!
# Decoding in place

The loop never writes in front of what it has still to read, because no escape is shorter than what
it stands for.
-/

namespace TranscodingServer

open Reading JsonParser

theorem getElem?_offset (a gap rest : Buffer) (k : Nat) :
    (a ++ (gap ++ rest))[a.length + gap.length + k]? = rest[k]? := by
  rw [← List.append_assoc, ← List.length_append, List.getElem?_append_right (Nat.le_add_right _ _),
    Nat.add_sub_cancel_left]

theorem write_middle {a b : Buffer} {d : UInt8} {i : Nat} (hi : a.length = i) (c : UInt8) :
    Buffer.write (a ++ d :: b) i c = some (a ++ c :: b) := by
  have hlt : i < (a ++ d :: b).length := by
    rw [List.length_append, List.length_cons]
    omega
  rw [Buffer.write, if_pos hlt, List.set_append_right _ _ (Nat.le_of_eq hi), hi, Nat.sub_self]
  rfl

theorem writes_middle {a old b : Buffer} {cs : Str} (h : old.length = cs.length) {i : Nat}
    (hi : a.length = i) : Buffer.writes (a ++ (old ++ b)) i cs = some (a ++ (cs ++ b)) := by
  induction cs generalizing a old i with
  | nil =>
      rw [List.length_eq_zero_iff.mp h]
      rfl
  | cons c cs ih =>
      cases old with
      | nil => cases h
      | cons d old =>
          have hrest := @ih (a ++ [c]) old (Nat.succ.inj h) (i + 1) (by simp [hi])
          rw [Buffer.writes, List.cons_append, write_middle hi]
          simpa using hrest

theorem codeBytes_length (code : Nat) : (codeBytes code).length ≤ 3 := by
  unfold codeBytes
  split
  · exact Nat.le_refl _
  · split <;> simp

/-- What the loop does with the characters `raw` of `s`: between `tail` and `head` there is a gap,
which may hold anything. -/
def Decodes (raw s : Str) : Prop :=
  ∀ (a gap b : Buffer) (fuel end_ : Nat), end_ = a.length + gap.length + raw.length →
    raw.length < fuel → ∃ gap',
      unescapeLoop end_ fuel (a.length + gap.length) a.length (a ++ (gap ++ (raw ++ b))) =
        some (a ++ (s ++ (gap' ++ b)), a.length + s.length) ∧
      s.length + gap'.length = gap.length + raw.length

theorem writes_gap {a gap used rest : Buffer} {cs : Str} (h : cs.length ≤ used.length) :
    ∃ gap', Buffer.writes (a ++ (gap ++ (used ++ rest))) a.length cs =
      some (a ++ (cs ++ (gap' ++ rest))) ∧ cs.length + gap'.length = gap.length + used.length := by
  have hlen : ((gap ++ used).take cs.length).length = cs.length := by
    rw [List.length_take, List.length_append]
    omega
  have hbuf : a ++ (gap ++ (used ++ rest)) =
      a ++ ((gap ++ used).take cs.length ++ ((gap ++ used).drop cs.length ++ rest)) := by
    rw [← List.append_assoc (List.take _ _), List.take_append_drop, List.append_assoc]
  refine ⟨(gap ++ used).drop cs.length, ?_, ?_⟩
  · rw [hbuf, writes_middle hlen rfl]
  · rw [List.length_drop, List.length_append]
    omega

/-- One round: `used` is read at `head` and `cs` is written at `tail`. -/
theorem Decodes.round {raw s used cs : Str} (ih : Decodes raw s) (h : cs.length ≤ used.length)
    {a gap b : Buffer} {fuel end_ : Nat}
    (hend : end_ = a.length + gap.length + (used.length + raw.length)) (hfuel : raw.length < fuel) :
    ∃ gap', (do
        let buf ← Buffer.writes (a ++ (gap ++ (used ++ (raw ++ b)))) a.length cs
        unescapeLoop end_ fuel (a.length + gap.length + used.length) (a.length + cs.length) buf) =
      some (a ++ (cs ++ s ++ (gap' ++ b)), a.length + (cs ++ s).length) ∧
      (cs ++ s).length + gap'.length = gap.length + (used.length + raw.length) := by
  obtain ⟨gap', hwrites, hlen⟩ := @writes_gap a gap used (raw ++ b) cs h
  obtain ⟨gap'', hloop, hlen'⟩ := ih (a ++ cs) gap' b fuel end_
    (by rw [List.length_append]; omega) hfuel
  refine ⟨gap'', ?_, ?_⟩
  · have hhead : a.length + gap.length + used.length = (a ++ cs).length + gap'.length := by
      rw [List.length_append]
      omega
    have htail : a.length + cs.length = (a ++ cs).length := List.length_append.symm
    rw [List.append_assoc] at hloop
    rw [hwrites, Option.bind_eq_bind, Option.bind_some, hhead, htail, hloop]
    simp [Nat.add_assoc]
  · rw [List.length_append]
    omega

theorem decodes_chars {raw s : Str} (h : Chars raw s) : Decodes raw s := by
  induction h with
  | nil =>
      intro a gap b fuel end_ hend hfuel
      obtain ⟨fuel, rfl⟩ := Nat.exists_eq_succ_of_ne_zero (Nat.ne_of_gt hfuel)
      refine ⟨gap, ?_, by simp⟩
      rw [unescapeLoop, if_pos (by rw [hend]; rfl)]
      rfl
  | @plain c raw s hq hb h0 _ ih =>
      intro a gap b fuel end_ hend hfuel
      obtain ⟨fuel, rfl⟩ := Nat.exists_eq_succ_of_ne_zero (Nat.ne_of_gt (Nat.zero_lt_of_lt hfuel))
      rw [List.length_cons] at hend hfuel
      obtain ⟨gap', hround, hlen⟩ := @Decodes.round raw s [c] [c] ih (Nat.le_refl _) a gap b fuel end_
        (by rw [List.length_singleton]; omega) (by omega)
      refine ⟨gap', ?_, by simpa [Nat.add_comm, Nat.add_left_comm] using hlen⟩
      have hread := getElem?_offset a gap (c :: (raw ++ b)) 0
      rw [unescapeLoop, if_neg (by omega), List.cons_append, ← Nat.add_zero (a.length + gap.length), hread]
      simp only [List.getElem?_cons_zero, Option.bind_eq_bind, Option.bind_some, if_neg hb]
      exact hround
  | @escape e c raw s he _ ih =>
      intro a gap b fuel end_ hend hfuel
      obtain ⟨fuel, rfl⟩ := Nat.exists_eq_succ_of_ne_zero (Nat.ne_of_gt (Nat.zero_lt_of_lt hfuel))
      simp only [List.length_cons] at hend hfuel
      obtain ⟨gap', hround, hlen⟩ := @Decodes.round raw s [backslash, e] [c] ih (by simp) a gap b fuel
        end_ (by simp only [List.length_cons, List.length_nil]; omega) (by omega)
      refine ⟨gap', ?_, by simp only [List.length_cons, List.length_append, List.length_nil] at hlen ⊢; omega⟩
      have hread := getElem?_offset a gap (backslash :: e :: (raw ++ b))
      have hu := (isEscape_of_unescaped he).2
      rw [unescapeLoop, if_neg (by omega), List.cons_append, List.cons_append,
        ← Nat.add_zero (a.length + gap.length), hread 0]
      simp only [List.getElem?_cons_zero, Option.bind_eq_bind, Option.bind_some, ↓reduceIte,
        Nat.add_zero, hread 1, List.getElem?_cons_succ, if_neg hu, he, Option.toList_some]
      exact hround
  | @code h₁ h₂ h₃ h₄ raw s hc₁ hc₂ hc₃ hc₄ _ ih =>
      intro a gap b fuel end_ hend hfuel
      obtain ⟨fuel, rfl⟩ := Nat.exists_eq_succ_of_ne_zero (Nat.ne_of_gt (Nat.zero_lt_of_lt hfuel))
      simp only [List.length_cons] at hend hfuel
      have hle := codeBytes_length (hexCode h₁ h₂ h₃ h₄)
      obtain ⟨gap', hround, hlen⟩ := @Decodes.round raw s [backslash, 'u'.toUInt8, h₁, h₂, h₃, h₄]
        (codeBytes (hexCode h₁ h₂ h₃ h₄)) ih
        (by simp only [List.length_cons, List.length_nil]; omega) a gap b fuel end_
        (by simp only [List.length_cons, List.length_nil]; omega) (by omega)
      refine ⟨gap', ?_, by simp only [List.length_cons, List.length_nil] at hlen ⊢; omega⟩
      have hread := getElem?_offset a gap (backslash :: 'u'.toUInt8 :: h₁ :: h₂ :: h₃ :: h₄ :: (raw ++ b))
      simp only [List.cons_append]
      rw [unescapeLoop, if_neg (by omega), ← Nat.add_zero (a.length + gap.length), hread 0]
      simp only [List.getElem?_cons_zero, Option.bind_eq_bind, Option.bind_some, ↓reduceIte,
        Nat.add_zero, hread, List.getElem?_cons_succ]
      exact hround

/-! ## A string of the buffer -/

/-- The bytes from `lo` to `hi` of the buffer are those of a string value `v` that stands for `s`:
the flag, the characters, and room for a terminator. -/
structure StringRef.Holds (buf : Buffer) (lo hi : Nat) (v : StringRef) (s : Str) : Prop where
  start : v.start_ = lo + 1
  bytes : ∃ flag raw pad, (buf.drop lo).take (hi - lo) = flag :: (raw ++ pad) ∧ pad ≠ [] ∧
    v.end_ = lo + 1 + raw.length ∧ (flag = 0 ∧ raw = s ∨ flag ≠ 0 ∧ Chars raw s)
  inside : hi ≤ buf.length

/-- Writes elsewhere leave a string value what it is. -/
theorem StringRef.Holds.frame {buf buf' : Buffer} {lo hi : Nat} {v : StringRef} {s : Str}
    (h : v.Holds buf lo hi s) (hlen : buf'.length = buf.length)
    (hsame : ∀ i, lo ≤ i → i < hi → buf'[i]? = buf[i]?) : v.Holds buf' lo hi s := by
  refine ⟨h.start, ?_, by rw [hlen]; exact h.inside⟩
  have hslice : (buf'.drop lo).take (hi - lo) = (buf.drop lo).take (hi - lo) := by
    refine List.ext_getElem? fun i => ?_
    rw [List.getElem?_take, List.getElem?_take]
    split
    · rw [List.getElem?_drop, List.getElem?_drop, hsame _ (by omega) (by omega)]
    · rfl
  rw [hslice]
  exact h.bytes

/-- The buffer around a slice. -/
theorem buffer_split {buf slice : Buffer} {lo hi : Nat} (hslice : (buf.drop lo).take (hi - lo) = slice)
    (hne : slice ≠ []) (hinside : hi ≤ buf.length) :
    ∃ a b, buf = a ++ (slice ++ b) ∧ a.length = lo ∧ lo + slice.length = hi := by
  have hlen := congrArg List.length hslice
  have hpos := List.length_pos_iff.mpr hne
  rw [List.length_take, List.length_drop] at hlen
  refine ⟨buf.take lo, (buf.drop lo).drop (hi - lo), ?_, ?_, by omega⟩
  · rw [← hslice, List.take_append_drop, List.take_append_drop]
  · rw [List.length_take]
    omega

/-- A string value in a buffer that is written out. -/
theorem holds_mk {a raw pad b : Buffer} {flag : UInt8} {s : Str} (hpad : pad ≠ [])
    (hraw : flag = 0 ∧ raw = s ∨ flag ≠ 0 ∧ Chars raw s) :
    StringRef.Holds (a ++ (flag :: (raw ++ pad) ++ b)) a.length (a.length + 1 + raw.length + pad.length)
      ⟨a.length + 1, a.length + 1 + raw.length⟩ s := by
  refine ⟨rfl, ⟨flag, raw, pad, ?_, hpad, rfl, hraw⟩, ?_⟩
  · rw [List.drop_left, List.take_left' ?_]
    simp only [List.length_cons, List.length_append]
    omega
  · simp only [List.length_cons, List.length_append]
    omega

/-- The slice between `start_` and `end_`. -/
theorem slice_middle (a s b : Buffer) (c : UInt8) :
    ((a ++ c :: (s ++ b)).drop (a.length + 1)).take (a.length + 1 + s.length - (a.length + 1)) = s := by
  rw [Nat.add_sub_cancel_left, show a ++ c :: (s ++ b) = (a ++ [c]) ++ (s ++ b) by simp,
    List.drop_left' (by simp), List.take_left]

theorem unescape_flagged {a raw pad b : Buffer} {flag d : UInt8} {s : Str} (hflag : flag ≠ 0)
    (hraw : Chars raw s) :
    ∃ pad', StringRef.unescape ⟨a.length + 1, a.length + 1 + raw.length⟩
        (a ++ (flag :: (raw ++ d :: pad) ++ b)) =
      some (⟨a.length + 1, a.length + 1 + s.length⟩, a ++ (0 :: (s ++ 0 :: pad') ++ b)) ∧
      s.length + pad'.length = raw.length + pad.length := by
  obtain ⟨gap', hloop, hlen⟩ := decodes_chars hraw (a ++ [flag]) [] (d :: pad ++ b) (raw.length + 1)
    (a.length + 1 + raw.length) (by simp) (Nat.lt_succ_self _)
  have hstart : (a ++ [flag]).length = a.length + 1 := by simp
  have hbuf : a ++ [flag] ++ ([] ++ (raw ++ (d :: pad ++ b))) = a ++ (flag :: (raw ++ d :: pad) ++ b) := by
    simp
  rw [hbuf, hstart, List.length_nil, Nat.add_zero] at hloop
  have hread : (a ++ (flag :: (raw ++ d :: pad) ++ b))[a.length]? = some flag :=
    getElem?_offset a [] (flag :: (raw ++ d :: pad) ++ b) 0
  -- the terminator falls on what the gap and the old terminator leave behind the string
  obtain ⟨e, pad', hpad⟩ : ∃ e pad', gap' ++ d :: pad = e :: pad' := by
    cases gap' with
    | nil => exact ⟨d, pad, rfl⟩
    | cons e gap' => exact ⟨e, gap' ++ d :: pad, rfl⟩
  have hrest : a ++ [flag] ++ (s ++ (gap' ++ (d :: pad ++ b))) =
      (a ++ flag :: s) ++ e :: (pad' ++ b) := by
    rw [← List.append_assoc gap', hpad]
    simp
  refine ⟨pad', ?_, ?_⟩
  · have hend : Buffer.write ((a ++ flag :: s) ++ e :: (pad' ++ b)) (a.length + 1 + s.length) 0 =
        some ((a ++ flag :: s) ++ 0 :: (pad' ++ b)) :=
      write_middle (by simp only [List.length_append, List.length_cons]; omega) 0
    have hclear : Buffer.write ((a ++ flag :: s) ++ 0 :: (pad' ++ b)) a.length 0 =
        some (a ++ (0 :: (s ++ 0 :: pad') ++ b)) := by
      have hwrite := @write_middle a (s ++ 0 :: (pad' ++ b)) flag a.length rfl 0
      simpa using hwrite
    simp only [StringRef.unescape, Nat.add_eq_zero_iff, Nat.one_ne_zero, and_false, ↓reduceIte,
      Nat.add_sub_cancel, hread, Option.bind_eq_bind, Option.bind_some, ne_eq, hflag, not_false_eq_true,
      Nat.add_sub_cancel_left, hloop, hrest, hend, hclear, Option.pure_def]
  · have hlen' := congrArg List.length hpad
    simp only [List.length_append, List.length_cons, List.length_nil] at hlen hlen'
    omega

/-- `s` returns the string, keeps the value what it is and writes nowhere else. -/
theorem StringRef.Holds.s_spec {buf : Buffer} {lo hi : Nat} {v : StringRef} {s : Str}
    (h : v.Holds buf lo hi s) :
    ∃ v' buf', v.s buf = some (s, v', buf') ∧ v'.Holds buf' lo hi s ∧ buf'.length = buf.length ∧
      ∀ i, i < lo ∨ hi ≤ i → buf'[i]? = buf[i]? := by
  obtain ⟨hstart, ⟨flag, raw, pad, hslice, hpad, hend, hraw⟩, hinside⟩ := h
  obtain ⟨a, b, rfl, rfl, rfl⟩ := buffer_split hslice (List.cons_ne_nil _ _) hinside
  obtain ⟨start_, end_⟩ := v
  simp only at hstart hend
  subst hstart hend
  have hhi : ∀ s pad : Buffer, a.length + (flag :: (s ++ pad)).length =
      a.length + 1 + s.length + pad.length := by
    intro s pad
    simp only [List.length_cons, List.length_append]
    omega
  rcases hraw with ⟨rfl, rfl⟩ | ⟨hflag, hraw⟩
  · refine ⟨⟨a.length + 1, a.length + 1 + raw.length⟩, a ++ (0 :: (raw ++ pad) ++ b), ?_, ?_, rfl,
      fun _ _ => rfl⟩
    · have hread : (a ++ (0 :: (raw ++ pad) ++ b))[a.length]? = some 0 :=
        getElem?_offset a [] (0 :: (raw ++ pad) ++ b) 0
      have hs := slice_middle a raw (pad ++ b) 0
      simp only [List.cons_append, List.append_assoc] at hread ⊢
      simp only [StringRef.s, StringRef.unescape, Nat.add_eq_zero_iff, Nat.one_ne_zero, and_false,
        ↓reduceIte, Nat.add_sub_cancel, hread, Option.bind_eq_bind, Option.bind_some, ne_eq,
        not_true_eq_false, Option.pure_def, hs]
    · rw [hhi]
      exact holds_mk hpad (.inl ⟨rfl, rfl⟩)
  · obtain ⟨d, pad, rfl⟩ := List.exists_cons_of_ne_nil hpad
    obtain ⟨pad', hunescape, hlen⟩ := @unescape_flagged a raw pad b flag d s hflag hraw
    have hlen' : (0 :: (s ++ 0 :: pad')).length = (flag :: (raw ++ d :: pad)).length := by
      simp only [List.length_cons, List.length_append]
      omega
    refine ⟨⟨a.length + 1, a.length + 1 + s.length⟩, a ++ (0 :: (s ++ 0 :: pad') ++ b), ?_, ?_, ?_, ?_⟩
    · have hs := slice_middle a s (0 :: (pad' ++ b)) 0
      rw [StringRef.s, hunescape]
      simp only [Option.bind_eq_bind, Option.bind_some, Option.pure_def, List.cons_append,
        List.append_assoc, hs]
    · rw [← hlen', List.length_cons, List.length_append,
        show a.length + (s.length + (0 :: pad').length + 1) =
          a.length + 1 + s.length + (0 :: pad').length by omega]
      exact holds_mk (List.cons_ne_nil _ _) (.inl ⟨rfl, rfl⟩)
    · simp only [List.length_append, hlen']
    · rintro i (hi | hi)
      · rw [List.getElem?_append_left hi, List.getElem?_append_left hi]
      · rw [← hlen'] at hi
        rw [List.getElem?_append_right (by omega), List.getElem?_append_right (by omega),
          List.getElem?_append_right (by omega), List.getElem?_append_right (by omega), hlen']

/-! ## The strings of a buffer -/

/-- String values at disjoint places of one buffer. -/
structure Strings (buf : Buffer) (refs : List StringRef) (texts : List Str) (lo hi : Nat → Nat) :
    Prop where
  length : refs.length = texts.length
  holds : ∀ (i : Nat) v s, refs[i]? = some v → texts[i]? = some s → v.Holds buf (lo i) (hi i) s
  disjoint : ∀ i < refs.length, ∀ j < refs.length, i ≠ j → hi i ≤ lo j ∨ hi j ≤ lo i

theorem Strings.s_step {buf : Buffer} {refs : List StringRef} {texts : List Str} {lo hi : Nat → Nat}
    (h : Strings buf refs texts lo hi) {i : Nat} {v : StringRef} {s : Str} (hv : refs[i]? = some v)
    (hs : texts[i]? = some s) :
    ∃ v' buf', v.s buf = some (s, v', buf') ∧ Strings buf' (refs.set i v') texts lo hi := by
  obtain ⟨v', buf', hcall, hholds, hlen, hsame⟩ := (h.holds i v s hv hs).s_spec
  have hlt : i < refs.length := (List.getElem?_eq_some_iff.mp hv).1
  refine ⟨v', buf', hcall, by rw [List.length_set, h.length], ?_, by rw [List.length_set]; exact h.disjoint⟩
  intro j w t hw ht
  by_cases hij : i = j
  · subst hij
    rw [List.getElem?_set_self hlt, Option.some.injEq] at hw
    rw [hs, Option.some.injEq] at ht
    rw [← hw, ← ht]
    exact hholds
  · rw [List.getElem?_set_ne hij] at hw
    refine (h.holds j w t hw ht).frame hlen fun k hlo hhi => hsame k ?_
    rcases h.disjoint i hlt j (List.getElem?_eq_some_iff.mp hw).1 hij with hd | hd
    · exact .inr (Nat.le_trans hd hlo)
    · exact .inl (Nat.lt_of_lt_of_le hhi hd)

end TranscodingServer
