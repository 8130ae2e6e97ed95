import TranscodingServer.Json.Grammar

/-!
# Numbers: the automaton of `decode_number`
-/

namespace TranscodingServer

open Reading JsonParser

namespace JsonParser

/-- One character of the plain automaton, without the inner loop over digits. -/
def NumberParsingState.step (state : NumberParsingState) (c : UInt8) : NumberParsingState :=
  match NumberChar.of c with
  | some k => state.next k
  | none => .Invalid

def NumberParsingState.Accepts (state : NumberParsingState) (t : Str) : Prop :=
  (t.foldl NumberParsingState.step state).accepting = true

end JsonParser

theorem numberChar_cases {c : UInt8} {k : NumberChar} (h : NumberChar.of c = some k) :
    isDecimal c = true ∧ (k = .zero ∧ c = '0'.toUInt8 ∨ k = .nonzero ∧ c ≠ '0'.toUInt8) ∨
    k = .point ∧ c = '.'.toUInt8 ∨ k = .minus ∧ c = '-'.toUInt8 ∨ k = .plus ∧ c = '+'.toUInt8 ∨
    k = .exponent ∧ (c = 'e'.toUInt8 ∨ c = 'E'.toUInt8) := by
  unfold NumberChar.of at h
  split at h
  · rename_i hc
    cases h
    exact .inl ⟨by rw [hc]; decide, .inl ⟨rfl, hc⟩⟩
  · rename_i h0
    split at h
    · rename_i hd
      cases h
      exact .inl ⟨hd, .inr ⟨rfl, h0⟩⟩
    · repeat' split at h
      all_goals cases h
      all_goals simp [*]

theorem numberChar_digit {c : UInt8} (h : isDecimal c = true) :
    NumberChar.of c = some (if c = '0'.toUInt8 then .zero else .nonzero) := by
  unfold NumberChar.of
  by_cases h0 : c = '0'.toUInt8
  · rw [if_pos h0, if_pos h0]
  · rw [if_neg h0, if_pos h, if_neg h0]

/-- No character of a number is the terminator. -/
theorem numberChar_ne_zero {c : UInt8} {k : NumberChar} (h : NumberChar.of c = some k) : c ≠ 0 := by
  rintro rfl
  have hnone : NumberChar.of 0 = none := by decide
  rw [hnone] at h
  cases h

theorem step_invalid (c : UInt8) : NumberParsingState.Invalid.step c = .Invalid := by
  unfold NumberParsingState.step
  cases NumberChar.of c with
  | none => rfl
  | some k => cases k <;> rfl

section Automaton

variable {state : NumberParsingState} {c : UInt8} {t : Str}

theorem not_accepts_invalid : ¬NumberParsingState.Invalid.Accepts t := by
  unfold NumberParsingState.Accepts
  induction t with
  | nil => decide
  | cons c t ih =>
      rw [List.foldl_cons, step_invalid]
      exact ih

theorem accepts_nil : state.Accepts [] ↔ state.accepting = true := Iff.rfl

theorem accepts_cons :
    state.Accepts (c :: t) ↔ ∃ k, NumberChar.of c = some k ∧ (state.next k).Accepts t := by
  have hstep : state.Accepts (c :: t) ↔ (state.step c).Accepts t := Iff.rfl
  rw [hstep, NumberParsingState.step]
  cases NumberChar.of c with
  | none => simp [not_accepts_invalid]
  | some k => simp

/-- In these states the automaton stays while digits come. -/
def Loops (state : NumberParsingState) : Prop :=
  state.next .zero = state ∧ state.next .nonzero = state

theorem Loops.accepts_digits (hloop : Loops state) {ds : Str} (hds : Digits ds) (u : Str) :
    state.Accepts (ds ++ u) ↔ state.Accepts u := by
  induction ds with
  | nil => rfl
  | cons c ds ih =>
      have hc : NumberChar.of c = _ := numberChar_digit (hds c List.mem_cons_self)
      have hnext : state.next (if c = '0'.toUInt8 then .zero else .nonzero) = state := by
        split
        · exact hloop.1
        · exact hloop.2
      have hrest := ih fun d hd => hds d (List.mem_cons_of_mem c hd)
      rw [List.cons_append, accepts_cons, hc]
      simp [hnext, hrest]

/-- What such a state accepts are digits and then a rest that does not begin with one. -/
theorem Loops.accepts_iff (hloop : Loops state) :
    state.Accepts t ↔ ∃ ds u, t = ds ++ u ∧ Digits ds ∧
      (u = [] ∧ state.accepting = true ∨ ∃ c u' k, u = c :: u' ∧ NumberChar.of c = some k ∧
        isDecimal c = false ∧ (state.next k).Accepts u') := by
  constructor
  · intro h
    have hsplit := List.takeWhile_append_dropWhile (p := isDecimal) (l := t)
    have hds : Digits (t.takeWhile isDecimal) := fun c hc => List.mem_takeWhile_imp hc
    refine ⟨_, _, hsplit.symm, hds, ?_⟩
    rw [← hsplit, hloop.accepts_digits hds] at h
    cases hu : t.dropWhile isDecimal with
    | nil =>
        rw [hu] at h
        exact .inl ⟨rfl, h⟩
    | cons c u =>
        rw [hu] at h
        obtain ⟨k, hk, hu'⟩ := accepts_cons.mp h
        have hc : ¬isDecimal c = true := by
          have := List.head?_dropWhile_not isDecimal t
          rw [hu] at this
          simpa using this
        exact .inr ⟨c, u, k, rfl, hk, by simpa using hc, hu'⟩
  · rintro ⟨ds, u, rfl, hds, h⟩
    rw [hloop.accepts_digits hds]
    rcases h with ⟨rfl, h⟩ | ⟨c, u, k, rfl, hk, _, h⟩
    · exact h
    · exact accepts_cons.mpr ⟨k, hk, h⟩

end Automaton

theorem accepts_digitsAfterE {t : Str} : NumberParsingState.DigitsAfterE.Accepts t ↔ Digits t := by
  rw [Loops.accepts_iff ⟨rfl, rfl⟩]
  constructor
  · rintro ⟨ds, u, rfl, hds, ⟨rfl, _⟩ | ⟨c, u, k, rfl, hk, hc, hu⟩⟩
    · rwa [List.append_nil]
    · rcases numberChar_cases hk with ⟨hd, _⟩ | ⟨rfl, _⟩ | ⟨rfl, _⟩ | ⟨rfl, _⟩ | ⟨rfl, _⟩
      · rw [hd] at hc; cases hc
      all_goals exact absurd hu not_accepts_invalid
  · intro h
    exact ⟨t, [], by simp, h, .inl ⟨rfl, rfl⟩⟩

theorem accepts_e {t : Str} : NumberParsingState.E.Accepts t ↔
    ∃ c ds, t = c :: ds ∧ (isDecimal c = true ∨ c = '-'.toUInt8 ∨ c = '+'.toUInt8) ∧ Digits ds := by
  cases t with
  | nil => simp [accepts_nil, NumberParsingState.accepting]
  | cons c t =>
      rw [accepts_cons]
      constructor
      · rintro ⟨k, hk, ht⟩
        rcases numberChar_cases hk with ⟨hd, ⟨rfl, _⟩ | ⟨rfl, _⟩⟩ | ⟨rfl, _⟩ | ⟨rfl, hc⟩ | ⟨rfl, hc⟩ |
          ⟨rfl, _⟩
        · exact ⟨c, t, rfl, .inl hd, accepts_digitsAfterE.mp ht⟩
        · exact ⟨c, t, rfl, .inl hd, accepts_digitsAfterE.mp ht⟩
        · exact absurd ht not_accepts_invalid
        · exact ⟨c, t, rfl, .inr (.inl hc), accepts_digitsAfterE.mp ht⟩
        · exact ⟨c, t, rfl, .inr (.inr hc), accepts_digitsAfterE.mp ht⟩
        · exact absurd ht not_accepts_invalid
      · rintro ⟨d, ds, hcons, hd, hds⟩
        obtain ⟨rfl, rfl⟩ := List.cons.inj hcons
        rcases hd with hd | rfl | rfl
        · refine ⟨_, numberChar_digit hd, ?_⟩
          split <;> exact accepts_digitsAfterE.mpr hds
        · exact ⟨.minus, rfl, accepts_digitsAfterE.mpr hds⟩
        · exact ⟨.plus, rfl, accepts_digitsAfterE.mpr hds⟩

theorem exponent_iff {c : UInt8} {u : Str} :
    Exponent (c :: u) ↔ (c = 'e'.toUInt8 ∨ c = 'E'.toUInt8) ∧ NumberParsingState.E.Accepts u := by
  rw [accepts_e]
  constructor
  · rintro ⟨e, d, ds, hcons, he, hd, hds⟩
    obtain ⟨rfl, rfl⟩ := List.cons.inj hcons
    exact ⟨he, d, ds, rfl, hd, hds⟩
  · rintro ⟨he, d, ds, rfl, hd, hds⟩
    exact ⟨c, d, ds, rfl, he, hd, hds⟩

theorem numberChar_exponent {c : UInt8} (h : c = 'e'.toUInt8 ∨ c = 'E'.toUInt8) :
    NumberChar.of c = some .exponent ∧ isDecimal c = false := by
  rcases h with rfl | rfl <;> exact ⟨rfl, rfl⟩

theorem accepts_afterPoints {t : Str} : NumberParsingState.DigitsAfterPoints.Accepts t ↔
    ∃ ds exp, t = ds ++ exp ∧ Digits ds ∧ (exp = [] ∨ Exponent exp) := by
  rw [Loops.accepts_iff ⟨rfl, rfl⟩]
  constructor
  · rintro ⟨ds, u, rfl, hds, ⟨rfl, _⟩ | ⟨c, u, k, rfl, hk, hc, hu⟩⟩
    · exact ⟨ds, [], rfl, hds, .inl rfl⟩
    · rcases numberChar_cases hk with ⟨hd, _⟩ | ⟨rfl, _⟩ | ⟨rfl, _⟩ | ⟨rfl, _⟩ | ⟨rfl, he⟩
      · rw [hd] at hc; cases hc
      · exact absurd hu not_accepts_invalid
      · exact absurd hu not_accepts_invalid
      · exact absurd hu not_accepts_invalid
      · exact ⟨ds, c :: u, rfl, hds, .inr (exponent_iff.mpr ⟨he, hu⟩)⟩
  · rintro ⟨ds, exp, rfl, hds, rfl | hexp⟩
    · exact ⟨ds, [], rfl, hds, .inl ⟨rfl, rfl⟩⟩
    · cases exp with
      | nil => obtain ⟨_, _, _, h, _⟩ := hexp; cases h
      | cons c u =>
          obtain ⟨he, hu⟩ := exponent_iff.mp hexp
          obtain ⟨hk, hc⟩ := numberChar_exponent he
          exact ⟨ds, c :: u, rfl, hds, .inr ⟨c, u, .exponent, rfl, hk, hc, hu⟩⟩

/-- A fraction with the exponent behind it. -/
theorem accepts_point {u : Str} : NumberParsingState.DigitsAfterPoints.Accepts u ↔
    ∃ frac exp, '.'.toUInt8 :: u = frac ++ exp ∧ Fraction frac ∧ (exp = [] ∨ Exponent exp) := by
  rw [accepts_afterPoints]
  constructor
  · rintro ⟨ds, exp, rfl, hds, hexp⟩
    exact ⟨'.'.toUInt8 :: ds, exp, rfl, ⟨ds, rfl, hds⟩, hexp⟩
  · rintro ⟨_, exp, h, ⟨ds, rfl, hds⟩, hexp⟩
    exact ⟨ds, exp, List.tail_eq_of_cons_eq h, hds, hexp⟩

theorem accepts_zeroFirst {t : Str} : NumberParsingState.ZeroFirst.Accepts t ↔
    t = [] ∨ ∃ frac exp, t = frac ++ exp ∧ Fraction frac ∧ (exp = [] ∨ Exponent exp) := by
  cases t with
  | nil => simp [accepts_nil, NumberParsingState.accepting]
  | cons c t =>
      rw [accepts_cons]
      constructor
      · rintro ⟨k, hk, ht⟩
        rcases numberChar_cases hk with ⟨_, ⟨rfl, _⟩ | ⟨rfl, _⟩⟩ | ⟨rfl, rfl⟩ | ⟨rfl, _⟩ | ⟨rfl, _⟩ |
          ⟨rfl, _⟩
        · exact absurd ht not_accepts_invalid
        · exact absurd ht not_accepts_invalid
        · exact .inr (accepts_point.mp ht)
        all_goals exact absurd ht not_accepts_invalid
      · rintro (h | ⟨frac, exp, h, hfrac, hexp⟩)
        · cases h
        · obtain ⟨ds, rfl, hds⟩ := hfrac
          obtain ⟨rfl, rfl⟩ := List.cons.inj h
          exact ⟨.point, rfl, accepts_point.mpr ⟨_, exp, rfl, ⟨ds, rfl, hds⟩, hexp⟩⟩

theorem accepts_digits {t : Str} : NumberParsingState.Digits.Accepts t ↔
    ∃ ds frac exp, t = ds ++ (frac ++ exp) ∧ Digits ds ∧ (frac = [] ∨ Fraction frac) ∧
      (exp = [] ∨ Exponent exp) := by
  rw [Loops.accepts_iff ⟨rfl, rfl⟩]
  constructor
  · rintro ⟨ds, u, rfl, hds, ⟨rfl, _⟩ | ⟨c, u, k, rfl, hk, hc, hu⟩⟩
    · exact ⟨ds, [], [], rfl, hds, .inl rfl, .inl rfl⟩
    · rcases numberChar_cases hk with ⟨hd, _⟩ | ⟨rfl, rfl⟩ | ⟨rfl, _⟩ | ⟨rfl, _⟩ | ⟨rfl, he⟩
      · rw [hd] at hc; cases hc
      · obtain ⟨frac, exp, h, hfrac, hexp⟩ := accepts_point.mp hu
        exact ⟨ds, frac, exp, by rw [h], hds, .inr hfrac, hexp⟩
      · exact absurd hu not_accepts_invalid
      · exact absurd hu not_accepts_invalid
      · exact ⟨ds, [], c :: u, rfl, hds, .inl rfl, .inr (exponent_iff.mpr ⟨he, hu⟩)⟩
  · rintro ⟨ds, frac, exp, rfl, hds, rfl | hfrac, hexp⟩
    · rcases hexp with rfl | hexp
      · exact ⟨ds, [], rfl, hds, .inl ⟨rfl, rfl⟩⟩
      · cases exp with
        | nil => obtain ⟨_, _, _, h, _⟩ := hexp; cases h
        | cons c u =>
            obtain ⟨he, hu⟩ := exponent_iff.mp hexp
            obtain ⟨hk, hc⟩ := numberChar_exponent he
            exact ⟨ds, c :: u, rfl, hds, .inr ⟨c, u, .exponent, rfl, hk, hc, hu⟩⟩
    · obtain ⟨ds', rfl, hds'⟩ := hfrac
      exact ⟨ds, '.'.toUInt8 :: (ds' ++ exp), rfl, hds,
        .inr ⟨_, _, .point, rfl, rfl, rfl, accepts_point.mpr ⟨_, exp, rfl, ⟨ds', rfl, hds'⟩, hexp⟩⟩⟩

/-- The number without its sign: both first states go on in the same way on a digit. -/
theorem accepts_unsigned {state : NumberParsingState}
    (hzero : state.next .zero = .ZeroFirst) (hnonzero : state.next .nonzero = .Digits) {c : UInt8}
    {t : Str} (hc : isDecimal c = true) :
    state.Accepts (c :: t) ↔ ∃ int frac exp, c :: t = int ++ (frac ++ exp) ∧ IntPart int ∧
      (frac = [] ∨ Fraction frac) ∧ (exp = [] ∨ Exponent exp ∧ (int = str "0" → frac ≠ [])) := by
  rw [accepts_cons, numberChar_digit hc]
  by_cases h0 : c = '0'.toUInt8
  · subst h0
    simp only [↓reduceIte, Option.some.injEq, exists_eq_left', hzero, accepts_zeroFirst]
    constructor
    · rintro (rfl | ⟨frac, exp, rfl, hfrac, hexp⟩)
      · exact ⟨str "0", [], [], rfl, .inl rfl, .inl rfl, .inl rfl⟩
      · refine ⟨str "0", frac, exp, rfl, .inl rfl, .inr hfrac, hexp.imp_right fun h => ⟨h, fun _ hnil => ?_⟩⟩
        obtain ⟨_, h, _⟩ := hfrac
        rw [hnil] at h
        cases h
    · rintro ⟨int, frac, exp, h, rfl | ⟨d, ds, rfl, _, hd, _⟩, hfrac, hexp⟩
      · have ht : t = frac ++ exp := List.tail_eq_of_cons_eq h
        rcases hfrac with rfl | hfrac
        · rcases hexp with rfl | ⟨_, hne⟩
          · exact .inl ht
          · exact absurd rfl (hne rfl)
        · exact .inr ⟨frac, exp, ht, hfrac, hexp.imp_right And.left⟩
      · exact absurd (List.head_eq_of_cons_eq h).symm hd
  · simp only [if_neg h0, Option.some.injEq, exists_eq_left', hnonzero, accepts_digits]
    have hint : ∀ ds, c :: ds ≠ str "0" := fun ds h => h0 (List.head_eq_of_cons_eq h)
    constructor
    · rintro ⟨ds, frac, exp, rfl, hds, hfrac, hexp⟩
      exact ⟨c :: ds, frac, exp, rfl, .inr ⟨c, ds, rfl, hc, h0, hds⟩, hfrac,
        hexp.imp_right fun h => ⟨h, fun h => absurd h (hint ds)⟩⟩
    · rintro ⟨int, frac, exp, h, rfl | ⟨d, ds, rfl, _, _, hds⟩, hfrac, hexp⟩
      · exact absurd (List.head_eq_of_cons_eq h) h0
      · exact ⟨ds, frac, exp, List.tail_eq_of_cons_eq h, hds, hfrac, hexp.imp_right And.left⟩

theorem IntPart.exists_digit {int : Str} (h : IntPart int) :
    ∃ c t, int = c :: t ∧ isDecimal c = true := by
  rcases h with rfl | ⟨c, ds, rfl, hc, _⟩
  · exact ⟨'0'.toUInt8, [], rfl, rfl⟩
  · exact ⟨c, ds, rfl, hc⟩

/-- The automaton and the grammar agree. -/
theorem accepts_minus {t : Str} : NumberParsingState.Minus.Accepts t ↔ Number t := by
  constructor
  · intro h
    cases t with
    | nil => cases h
    | cons c t =>
        obtain ⟨k, hk, ht⟩ := accepts_cons.mp h
        rcases numberChar_cases hk with ⟨hd, _⟩ | ⟨rfl, _⟩ | ⟨rfl, rfl⟩ | ⟨rfl, _⟩ | ⟨rfl, _⟩
        · obtain ⟨int, frac, exp, he, hrest⟩ := (accepts_unsigned rfl rfl hd).mp h
          exact ⟨[], int, frac, exp, he, .inl rfl, hrest⟩
        · exact absurd ht not_accepts_invalid
        · cases t with
          | nil => cases ht
          | cons d t =>
              obtain ⟨k, hk, hu⟩ := accepts_cons.mp ht
              rcases numberChar_cases hk with ⟨hd, _⟩ | ⟨rfl, _⟩ | ⟨rfl, _⟩ | ⟨rfl, _⟩ | ⟨rfl, _⟩
              · obtain ⟨int, frac, exp, he, hrest⟩ := (accepts_unsigned rfl rfl hd).mp ht
                exact ⟨str "-", int, frac, exp, by rw [← he]; rfl, .inr rfl, hrest⟩
              all_goals exact absurd hu not_accepts_invalid
        all_goals exact absurd ht not_accepts_invalid
  · rintro ⟨sign, int, frac, exp, rfl, hsign, hint, hfrac, hexp⟩
    obtain ⟨c, t, rfl, hc⟩ := hint.exists_digit
    rcases hsign with rfl | rfl
    · exact (accepts_unsigned rfl rfl hc).mpr ⟨_, frac, exp, rfl, hint, hfrac, hexp⟩
    · exact accepts_cons.mpr ⟨.minus, rfl,
        (accepts_unsigned rfl rfl hc).mpr ⟨_, frac, exp, rfl, hint, hfrac, hexp⟩⟩

/-! ## The loop with its inner loop -/

theorem loops_next_nonzero (state : NumberParsingState) : Loops (state.next .nonzero) := by
  cases state <;> exact ⟨rfl, rfl⟩

theorem Loops.accepts_cons {state : NumberParsingState} (hloop : Loops state) {c : UInt8} {t : Str}
    (hc : isDecimal c = true) : state.Accepts (c :: t) ↔ state.Accepts t :=
  @Loops.accepts_digits state hloop [c] (by simpa [Digits] using hc) t

variable {full : Prop}

theorem cons_good {P Q : Str → Str → Prop} {c : UInt8} (hc : c ≠ 0) {data : List UInt8}
    {o : Outcome UInt8 Str} (hPQ : ∀ u t, P u t → Q (c :: u) (c :: t)) (h : o.Good 0 full P data) :
    Outcome.Good 0 full Q (c :: data) (o.map fun (t, data) => (c :: t, data)) := by
  cases o with
  | error e =>
      cases e with
      | invalid rest =>
          obtain ⟨t, rfl, hfree⟩ := h
          exact ⟨c :: t, rfl, by simp [Ne.symm hc, hfree]⟩
      | overrun => exact h
      | overflow => exact h
      | outOfFuel => exact h
  | ok r =>
      obtain ⟨t, ht, hfree, hP⟩ := h
      exact ⟨c :: t, by rw [ht]; rfl, by simp [Ne.symm hc, hfree], hPQ _ _ hP⟩

theorem numberLoop_good {inner : Bool} {state : NumberParsingState} {data : List UInt8}
    (hinner : inner = true → Loops state) (hstop : (0 : UInt8) ∈ data) :
    (numberLoop inner state data).Good 0 full (fun u t => u = t ∧ state.Accepts t) data := by
  induction data generalizing inner state with
  | nil => cases hstop
  | cons c data ih =>
      rw [numberLoop]
      split
      · rename_i hin
        simp only [Bool.and_eq_true] at hin
        have hloop := hinner hin.1
        have hne : c ≠ 0 := numberChar_ne_zero (numberChar_digit hin.2)
        have hmem := (List.mem_cons.mp hstop).resolve_left (Ne.symm hne)
        refine cons_good hne ?_ (ih (fun _ => hloop) hmem)
        rintro u t ⟨rfl, h⟩
        exact ⟨rfl, (hloop.accepts_cons hin.2).mpr h⟩
      · split
        · exact ⟨[], rfl, List.not_mem_nil⟩
        · cases hk : NumberChar.of c with
          | some k =>
              have hne := numberChar_ne_zero hk
              have hmem := (List.mem_cons.mp hstop).resolve_left (Ne.symm hne)
              refine cons_good hne ?_ (ih (fun hnon => ?_) hmem)
              · rintro u t ⟨rfl, h⟩
                exact ⟨rfl, accepts_cons.mpr ⟨k, hk, h⟩⟩
              · rw [of_decide_eq_true hnon]
                exact loops_next_nonzero state
          | none =>
              simp only
              split
              · rename_i hacc
                exact ⟨[], rfl, List.not_mem_nil, rfl, hacc⟩
              · exact ⟨[], rfl, List.not_mem_nil⟩

theorem Reads.decode_number {n : Nat} :
    Reads 0 full n (fun u t => u = t ∧ Number t) JsonParser.decode_number := by
  intro data hstop hn
  have hloop : Reads 0 full n (fun u t => u = t ∧ NumberParsingState.Minus.Accepts t)
      JsonParser.decode_number :=
    fun data hstop _ => numberLoop_good (fun h => by cases h) hstop
  exact hloop.mono (fun u t h => ⟨h.1, accepts_minus.mp h.2⟩) data hstop hn

/-- No character of a number, as the one that ends it. -/
def EndsNumber (rest : List UInt8) : Prop := ∃ c rest', rest = c :: rest' ∧ NumberChar.of c = none

theorem numberLoop_accepts {inner : Bool} {state : NumberParsingState} {t rest : List UInt8}
    (hinner : inner = true → Loops state) (ht : state.Accepts t) (hrest : EndsNumber rest) :
    numberLoop inner state (t ++ rest) = .ok (t, rest) := by
  have hvalid : ∀ {state : NumberParsingState} {t}, state.Accepts t → state ≠ .Invalid := by
    rintro _ _ h rfl
    exact not_accepts_invalid h
  induction t generalizing inner state with
  | nil =>
      obtain ⟨c, rest, rfl, hc⟩ := hrest
      have hd : isDecimal c = false := by
        by_contra hd
        rw [numberChar_digit (by simpa using hd)] at hc
        cases hc
      have hacc : state.accepting = true := ht
      rw [List.nil_append, numberLoop]
      simp only [hd, Bool.and_false, Bool.false_eq_true, ↓reduceIte, hvalid ht, hc, hacc]
  | cons c t ih =>
      rw [List.cons_append, numberLoop]
      split
      · rename_i hin
        simp only [Bool.and_eq_true] at hin
        have hloop := hinner hin.1
        rw [ih (fun _ => hloop) ((hloop.accepts_cons hin.2).mp ht)]
        rfl
      · obtain ⟨k, hk, hnext⟩ := accepts_cons.mp ht
        have hin : decide (k = .nonzero) = true → Loops (state.next k) := by
          intro hnon
          rw [of_decide_eq_true hnon]
          exact loops_next_nonzero state
        rw [if_neg (hvalid ht), hk]
        simp only
        rw [ih hin hnext]
        rfl

theorem read_decode_number {t rest : Str} (h : Number t) (hrest : EndsNumber rest) :
    JsonParser.decode_number.read (t ++ rest) = .ok (t, rest) :=
  numberLoop_accepts (fun h => by cases h) (accepts_minus.mpr h) hrest

end TranscodingServer
