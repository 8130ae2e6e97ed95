import TranscodingServer.Json.Lemmas.Strings
import TranscodingServer.Json.Lemmas.Numbers

/-!
# Values: the recursion of `decode_value`

One level of nesting is proved once for readers of the values inside; the induction is on the levels
that the depth still allows.
-/

namespace TranscodingServer

open Reading JsonParser

variable {α σ : Type} {array : Store σ} {sort : List (Str × Json) → List (Str × Json)}

theorem isSpace_zero : isSpace 0 = false := by decide

/-! ## From the reader -/

section Reads

/-! An array with room for as many items as the text has characters is not overrun. -/

variable {full : Prop} {P : α → Str → Prop} {n depth : Nat}

theorem Reads.decode_items {opening close : UInt8} {item : Reader UInt8 α} (hopening : 0 ≠ opening)
    (hclose : 0 ≠ close) (hne : ∀ a t, P a t → t ≠ [])
    (hitem : depth ≤ max_depth → Reads 0 full n P item) (hroom : ¬full → array.Room n) :
    Reads 0 full n (fun l t => depth ≤ max_depth ∧ Bracketed array.Room opening close P l t)
      (JsonParser.decode_items array opening close item depth) := by
  refine Reads.bind (Reads.consume hopening) fun b t ht => ?_
  cases b with
  | false => exact Reads.reject_bind
  | true =>
      refine Reads.ite (fun h => by cases h) fun _ => ?_
      refine Reads.ite (fun _ => Reads.reject_bind) fun hdepth => ?_
      have hle : depth ≤ max_depth := Nat.not_lt.mp hdepth
      refine Reads.bind (Reads.skip isSpace_zero) fun _ w hw => ?_
      refine Reads.bind (Reads.consume hclose) fun b u hu => ?_
      cases b with
      | true =>
          refine Reads.pure ⟨hle, w, [close], hw, ?_, .inl ⟨rfl, rfl⟩⟩
          rw [ht, hu]
          simp
      | false =>
          refine Reads.get_bind fun data hdata => ?_
          have hlen : data.length ≤ n := by omega
          refine (Reads.items isSpace_zero hclose (by decide) hne ((hitem hle).le hlen)
            fun hnot => (hroom hnot).le hlen).mono fun l v hv => ?_
          refine ⟨hle, w, v, hw, ?_, .inr hv⟩
          rw [ht, hu]
          simp

theorem Field.ne_nil {P : Json → Str → Prop} {f : Str × Json} {t : Str} (h : Field P f t) :
    t ≠ [] := by
  obtain ⟨q, w, w', u, ⟨raw, _, rfl⟩, _, _, _, rfl⟩ := h
  simp

theorem Reads.decode_member {P : Json → Str → Prop} {value : Reader UInt8 Json}
    (hvalue : Reads 0 full n P value) : Reads 0 full n (Field P) (JsonParser.decode_member value) := by
  refine Reads.bind Reads.decode_string fun v q hq => ?_
  refine Reads.bind (Reads.skip isSpace_zero) fun _ w hw => ?_
  refine Reads.bind (Reads.consume (by decide)) fun b t ht => ?_
  cases b with
  | false => exact Reads.reject_bind
  | true =>
      refine Reads.bind (Reads.skip isSpace_zero) fun _ w' hw' => ?_
      refine Reads.bind (hvalue.le (by omega)) fun j u hu => ?_
      refine Reads.pure ⟨q, w, w', u, hq, hw, hw', hu, ?_⟩
      rw [ht]
      simp

/-- A value read at `depth`, given what is read two levels below. -/
def ValueAt (fits : Nat → Prop) (sort : List (Str × Json) → List (Str × Json)) (depth : Nat)
    (P : Json → Str → Prop) (v : Json) (t : Str) : Prop :=
  Scalar v t ∨ depth + 1 ≤ max_depth ∧
    ((∃ l, v = .list l ∧ Bracketed fits '['.toUInt8 ']'.toUInt8 P l t) ∨
      ∃ fields, v = .object (sort fields) ∧ Bracketed fits '{'.toUInt8 '}'.toUInt8 (Field P) fields t)

theorem Reads.decode_value_succ {P : Json → Str → Prop} {fuel : Nat} (hne : ∀ v t, P v t → t ≠ [])
    (hvalue : depth + 1 ≤ max_depth →
      Reads 0 full n P (decode_value array sort fuel (depth + 1 + 1)))
    (hroom : ¬full → array.Room n) :
    Reads 0 full n (ValueAt array.Room sort depth P) (decode_value array sort (fuel + 1) depth) := by
  refine Reads.bind Reads.peek fun c t ht => ?_
  subst ht
  refine Reads.ite (fun _ => ?_) fun _ => Reads.ite (fun _ => ?_) fun _ => Reads.ite (fun _ => ?_)
    fun _ => Reads.ite (fun _ => ?_) fun _ => Reads.ite (fun _ => ?_) fun _ =>
    Reads.ite (fun _ => ?_) fun _ => ?_
  · refine Reads.bind (Reads.decode_items (by decide) (by decide) hne hvalue hroom) fun l t ht => ?_
    refine Reads.pure (.inr ⟨ht.1, .inl ⟨l, rfl, ?_⟩⟩)
    simpa using ht.2
  · refine Reads.bind (Reads.decode_items (by decide) (by decide) (fun _ _ => Field.ne_nil)
      (fun hle => Reads.decode_member (hvalue hle)) hroom) fun fields t ht => ?_
    refine Reads.pure (.inr ⟨ht.1, .inr ⟨fields, rfl, ?_⟩⟩)
    simpa using ht.2
  · refine Reads.bind Reads.decode_string fun v t ht => Reads.pure (.inl (.string ?_))
    simpa using ht
  · refine Reads.bind (Reads.word (by decide)) fun _ t ht => Reads.pure (.inl ?_)
    rw [ht]
    exact .isTrue
  · refine Reads.bind (Reads.word (by decide)) fun _ t ht => Reads.pure (.inl ?_)
    rw [ht]
    exact .isFalse
  · refine Reads.bind (Reads.word (by decide)) fun _ t ht => Reads.pure (.inl ?_)
    rw [ht]
    exact .null
  · refine Reads.bind Reads.decode_number fun u t ht => Reads.pure (.inl ?_)
    obtain ⟨rfl, hu⟩ := ht
    simpa using Scalar.number hu

end Reads

/-! ## The first character -/

theorem Number.first {t : Str} (h : Number t) :
    ∃ c t' k, t = c :: t' ∧ NumberChar.of c = some k := by
  cases t with
  | nil =>
      have hacc := accepts_minus.mpr h
      cases hacc
  | cons c t =>
      obtain ⟨k, hk, _⟩ := accepts_cons.mp (accepts_minus.mpr h)
      exact ⟨c, t, k, rfl, hk⟩

theorem isSpace_of_numberChar {c : UInt8} (h : NumberChar.of c ≠ none) : isSpace c = false := by
  by_contra hc
  simp only [isSpace, Bool.not_eq_false, Bool.or_eq_true, decide_eq_true_eq] at hc
  rcases hc with ((rfl | rfl) | rfl) | rfl <;> exact h rfl

/-- A value begins with something that neither white space nor the end of a list does. -/
def Begins (t : Str) : Prop := ∃ c t', t = c :: t' ∧ isSpace c = false ∧ c ≠ ']'.toUInt8

theorem Scalar.begins {v : Json} {t : Str} (h : Scalar v t) : Begins t := by
  cases h with
  | null => exact ⟨_, _, rfl, rfl, by decide⟩
  | isFalse => exact ⟨_, _, rfl, rfl, by decide⟩
  | isTrue => exact ⟨_, _, rfl, rfl, by decide⟩
  | number h =>
      obtain ⟨c, t', k, rfl, hk⟩ := h.first
      have hne : NumberChar.of c ≠ none := by simp [hk]
      refine ⟨c, t', rfl, isSpace_of_numberChar hne, ?_⟩
      rintro rfl
      exact hne rfl
  | string h =>
      obtain ⟨raw, _, rfl⟩ := h
      exact ⟨_, _, rfl, rfl, by decide⟩

variable {fits : Nat → Prop}

theorem Value.begins {k : Nat} {v : Json} {t : Str} (h : Value fits sort k v t) : Begins t := by
  cases k with
  | zero => exact Scalar.begins h
  | succ k =>
      rcases h with h | ⟨_, _, _, _, _, rfl, _⟩ | ⟨_, _, _, _, _, rfl, _⟩
      · exact h.begins
      · exact ⟨_, _, rfl, rfl, by decide⟩
      · exact ⟨_, _, rfl, rfl, by decide⟩

theorem Value.ne_nil {k : Nat} {v : Json} {t : Str} (h : Value fits sort k v t) : t ≠ [] := by
  obtain ⟨c, t', rfl, _⟩ := h.begins
  simp

/-! ## The lists in a value -/

section Fits

variable {P : α → Str → Prop} {k : Nat} (hzero : fits 0)

include hzero

theorem Bracketed.fits_length {opening close : UInt8} {l : List α} {t : Str}
    (h : Bracketed fits opening close P l t) : fits l.length := by
  obtain ⟨_, _, _, _, ⟨rfl, _⟩ | ⟨_, hfits⟩⟩ := h
  · exact hzero
  · exact hfits

theorem Value.list_fits {l : List Json} {t : Str} (h : Value fits sort k (.list l) t) :
    fits l.length := by
  cases k with
  | zero => cases h
  | succ k =>
      rcases h with h | ⟨_, hl, h⟩ | ⟨_, hobject, _⟩
      · cases h
      · cases hl
        exact h.fits_length hzero
      · cases hobject

/-- The list in a field of an object. -/
theorem Value.get?_fits (hsort : ∀ fields, (sort fields).Perm fields) {v : Json} {t key : Str}
    {l : List Json} (h : Value fits sort k v t) (hget : v.get? key = some (.list l)) :
    fits l.length := by
  cases v with
  | object fields =>
      cases k with
      | zero => cases h
      | succ k =>
          rcases h with h | ⟨_, hl, _⟩ | ⟨fields', hobject, h⟩
          · cases h
          · cases hl
          · cases hobject
            obtain ⟨_, _, hfields, _⟩ := List.lookup_eq_some_iff.mp hget
            have hmem : (key, .list l) ∈ fields' := by
              rw [← (hsort fields').mem_iff, hfields]
              simp
            obtain ⟨_, _, _, _, ⟨rfl, _⟩ | ⟨hitems, _⟩⟩ := h
            · cases hmem
            · obtain ⟨_, _, _, _, _, _, _, _, hvalue, _⟩ := hitems.mem hmem
              exact hvalue.list_fits hzero
  | null => cases hget
  | bool b => cases hget
  | number t => cases hget
  | string s => cases hget
  | list l => cases hget

end Fits

/-- A list is no longer than its text. -/
theorem Bracketed.short {fits' : Nat → Prop} {P Q : α → Str → Prop} {opening close : UInt8}
    {l : List α} {t : Str} (h : Bracketed fits opening close P l t)
    (hfits : ∀ n ≤ t.length, fits' n) (hPQ : ∀ a u, P a u → u.length ≤ t.length → Q a u) :
    Bracketed fits' opening close Q l t := by
  obtain ⟨w, u, hw, rfl, h⟩ := h
  refine ⟨w, u, hw, rfl, h.imp id fun ⟨hitems, _⟩ => ?_⟩
  have hlen : u.length ≤ (opening :: (w ++ u)).length := by
    simp only [List.length_cons, List.length_append]
    omega
  exact ⟨hitems.mono fun a v ha hv => hPQ a v ha (Nat.le_trans hv hlen),
    hfits _ (Nat.le_trans hitems.length_le hlen)⟩

/-- On a text that is short enough every number of items fits. -/
theorem Value.short {fits' : Nat → Prop} {k : Nat} {v : Json} {t : Str} (h : Value fits sort k v t)
    (hfits : ∀ n ≤ t.length, fits' n) : Value fits' sort k v t := by
  induction k generalizing v t with
  | zero => exact h
  | succ k ih =>
      have hvalue : ∀ v u, Value fits sort k v u → u.length ≤ t.length → Value fits' sort k v u :=
        fun v u hv hu => ih hv fun n hn => hfits n (Nat.le_trans hn hu)
      rcases h with h | ⟨l, rfl, h⟩ | ⟨fields, rfl, h⟩
      · exact .inl h
      · exact .inr (.inl ⟨l, rfl, h.short hfits hvalue⟩)
      · refine .inr (.inr ⟨fields, rfl, h.short hfits ?_⟩)
        rintro f _ ⟨q, w, w', u, hq, hw, hw', hv, rfl⟩ hlen
        refine ⟨q, w, w', u, hq, hw, hw', hvalue _ _ hv (Nat.le_trans ?_ hlen), rfl⟩
        simp only [List.length_append, List.length_cons]
        omega

/-! ## What `decode_value` accepts -/

theorem Reads.decode_value {full : Prop} {k fuel depth n : Nat} (hdepth : depth + 2 * k = max_depth)
    (hfuel : k < fuel) (hroom : ¬full → array.Room n) :
    Reads 0 full n (Value array.Room sort k) (JsonParser.decode_value array sort fuel depth) := by
  induction k generalizing fuel depth with
  | zero =>
      obtain ⟨fuel, rfl⟩ := Nat.exists_eq_succ_of_ne_zero (Nat.ne_of_gt hfuel)
      refine (Reads.decode_value_succ (P := fun _ _ => False) (fun _ _ h => h.elim) ?_ hroom).mono ?_
      · intro hle
        omega
      · rintro v t (h | ⟨hle, _⟩)
        · exact h
        · omega
  | succ k ih =>
      obtain ⟨fuel, rfl⟩ := Nat.exists_eq_succ_of_ne_zero (Nat.ne_of_gt (Nat.zero_lt_of_lt hfuel))
      refine (Reads.decode_value_succ (P := Value array.Room sort k) (fun _ _ => Value.ne_nil)
        (fun _ => ih (by omega) (by omega)) hroom).mono ?_
      rintro v t (h | ⟨_, h⟩)
      · exact .inl h
      · exact .inr h

/-! ## What a text makes `decode_value` do -/

theorem endsNumber_of_space {w rest : Str} {c : UInt8} (hw : Spaces w)
    (hc : NumberChar.of c = none) : EndsNumber (w ++ c :: rest) := by
  cases w with
  | nil => exact ⟨c, rest, rfl, hc⟩
  | cons d w =>
      refine ⟨d, w ++ c :: rest, rfl, ?_⟩
      by_contra hd
      have hspace := hw d List.mem_cons_self
      rw [isSpace_of_numberChar hd] at hspace
      cases hspace

section Accepts

variable {P : α → Str → Prop} {opening close : UInt8} {item : Reader UInt8 α} {depth : Nat}

theorem Accepts.decode_items (hclose : isSpace close = false ∧ NumberChar.of close = none)
    (hcomma : ','.toUInt8 ≠ close) (hitem : Accepts EndsNumber P item)
    (hfirst : ∀ a t, P a t → ∃ c t', t = c :: t' ∧ isSpace c = false ∧ c ≠ close)
    (hdepth : depth ≤ max_depth) {l : List α} {t : Str} (h : Bracketed array.Room opening close P l t)
    (rest : Str) :
    (JsonParser.decode_items array opening close item depth).read (t ++ rest) = .ok (l, rest) := by
  obtain ⟨w, u, hw, rfl, ⟨rfl, rfl⟩ | ⟨hitems, hroom⟩⟩ := h
  · rw [JsonParser.decode_items,
      show opening :: (w ++ [close]) ++ rest = opening :: (w ++ close :: rest) by simp,
      read_bind_ok read_consume]
    simp only [Bool.not_true, Bool.false_eq_true, ↓reduceIte, if_neg (Nat.not_lt.mpr hdepth)]
    rw [ws_skip, read_bind_ok (read_skip hw hclose.1), read_bind_ok read_consume]
    rfl
  · obtain ⟨c, u', hu, hc, hne⟩ : ∃ c u', u = c :: u' ∧ isSpace c = false ∧ c ≠ close := by
      cases hitems with
      | last hP =>
          obtain ⟨c, t', rfl, hc⟩ := hfirst _ _ hP
          exact ⟨c, _, rfl, hc⟩
      | more hP =>
          obtain ⟨c, t', rfl, hc⟩ := hfirst _ _ hP
          exact ⟨c, _, rfl, hc⟩
    have hskip : (skip isSpace).read (w ++ (u ++ rest)) = .ok ((), u ++ rest) := by
      rw [hu]
      exact read_skip hw hc
    have hconsume : (consume close).read (u ++ rest) = .ok (false, u ++ rest) := by
      rw [hu]
      exact read_consume_ne hne
    have hread := Accepts.items hitem
      (fun a t hP => (hfirst a t hP).imp fun c h => h.imp fun t' h => ⟨h.1, h.2.1⟩)
      hclose.1 (by decide) hcomma ?_ rest hitems hroom (m := (u ++ rest).length) (by simp)
    · rw [JsonParser.decode_items,
        show opening :: (w ++ u) ++ rest = opening :: (w ++ (u ++ rest)) by simp,
        read_bind_ok read_consume]
      simp only [Bool.not_true, Bool.false_eq_true, ↓reduceIte, if_neg (Nat.not_lt.mpr hdepth)]
      rw [ws_skip, read_bind_ok hskip, read_bind_ok hconsume]
      simp only [Bool.false_eq_true, ↓reduceIte]
      rw [read_bind_ok read_get, hread]
    · rintro w' c rest' hw' (rfl | rfl)
      · exact endsNumber_of_space hw' hclose.2
      · exact endsNumber_of_space hw' rfl

end Accepts

theorem Accepts.decode_member {P : Json → Str → Prop} {value : Reader UInt8 Json}
    (hvalue : Accepts EndsNumber P value)
    (hbegins : ∀ v t, P v t → Begins t) :
    Accepts EndsNumber (Field P) (JsonParser.decode_member value) := by
  rintro ⟨key, v⟩ _ rest ⟨q, w, w', u, hq, hw, hw', hu, rfl⟩ hrest
  obtain ⟨key', hread, hkey⟩ := read_decode_string (w ++ ':'.toUInt8 :: (w' ++ (u ++ rest))) hq
  obtain ⟨c, u', hc, hspace, _⟩ := hbegins v u hu
  have hskip : (skip isSpace).read (w' ++ (u ++ rest)) = .ok ((), u ++ rest) := by
    rw [hc]
    exact read_skip hw' hspace
  rw [JsonParser.decode_member,
    show q ++ (w ++ ':'.toUInt8 :: (w' ++ u)) ++ rest = q ++ (w ++ ':'.toUInt8 :: (w' ++ (u ++ rest))) by
      simp,
    read_bind_ok hread, ws_skip, read_bind_ok (read_skip hw (by decide)), read_bind_ok read_consume]
  simp only [Bool.not_true, Bool.false_eq_true, ↓reduceIte]
  rw [read_bind_ok hskip, read_bind_ok (hvalue v u rest hu hrest), hkey]
  rfl

theorem read_scalar {fuel depth : Nat} {v : Json} {t rest : Str} (h : Scalar v t)
    (hrest : EndsNumber rest) :
    (decode_value array sort (fuel + 1) depth).read (t ++ rest) = .ok (v, rest) := by
  cases h with
  | null =>
      have hword : (word (str "null")).read (str "null" ++ rest) = .ok ((), rest) := read_word _
      exact (read_bind_ok (read_peek _ (str "ull" ++ rest))).trans (read_bind_ok hword)
  | isFalse =>
      have hword : (word (str "false")).read (str "false" ++ rest) = .ok ((), rest) := read_word _
      exact (read_bind_ok (read_peek _ (str "alse" ++ rest))).trans (read_bind_ok hword)
  | isTrue =>
      have hword : (word (str "true")).read (str "true" ++ rest) = .ok ((), rest) := read_word _
      exact (read_bind_ok (read_peek _ (str "rue" ++ rest))).trans (read_bind_ok hword)
  | number h =>
      have hread := read_decode_number h hrest
      obtain ⟨c, t', k, rfl, hk⟩ := h.first
      have hne : ∀ d, NumberChar.of d = none → c ≠ d := by
        rintro _ hd rfl
        rw [hk] at hd
        cases hd
      rw [decode_value, List.cons_append, read_bind_ok (read_peek _ _)]
      simp only [if_neg (hne '['.toUInt8 rfl), if_neg (hne '{'.toUInt8 rfl), if_neg (hne quote rfl),
        if_neg (hne 't'.toUInt8 rfl), if_neg (hne 'f'.toUInt8 rfl), if_neg (hne 'n'.toUInt8 rfl)]
      exact read_bind_ok hread
  | string h =>
      obtain ⟨v, hread, rfl⟩ := read_decode_string rest h
      obtain ⟨raw, _, rfl⟩ := h
      exact (read_bind_ok (read_peek _ (raw ++ [quote] ++ rest))).trans (read_bind_ok hread)

theorem Accepts.decode_value {k fuel depth : Nat} (hdepth : depth + 2 * k = max_depth)
    (hfuel : k < fuel) :
    Accepts EndsNumber (Value array.Room sort k) (JsonParser.decode_value array sort fuel depth) := by
  induction k generalizing fuel depth with
  | zero =>
      obtain ⟨fuel, rfl⟩ := Nat.exists_eq_succ_of_ne_zero (Nat.ne_of_gt hfuel)
      exact fun v t rest h hrest => read_scalar h hrest
  | succ k ih =>
      obtain ⟨fuel, rfl⟩ := Nat.exists_eq_succ_of_ne_zero (Nat.ne_of_gt (Nat.zero_lt_of_lt hfuel))
      have hvalue := @ih fuel (depth + 1 + 1) (by omega) (by omega)
      rintro v t rest (h | ⟨l, rfl, h⟩ | ⟨fields, rfl, h⟩) hrest
      · exact read_scalar h hrest
      · have hread := Accepts.decode_items (by decide) (by decide) hvalue ?_
          (show depth + 1 ≤ max_depth by omega) h rest
        · obtain ⟨w, u, _, rfl, _⟩ := h
          exact (read_bind_ok (read_peek _ (w ++ u ++ rest))).trans (read_bind_ok hread)
        · exact fun v t ht => ht.begins
      · have hread := Accepts.decode_items (by decide) (by decide)
          (Accepts.decode_member hvalue fun _ _ => Value.begins) ?_
          (show depth + 1 ≤ max_depth by omega) h rest
        · obtain ⟨w, u, _, rfl, _⟩ := h
          exact (read_bind_ok (read_peek _ (w ++ u ++ rest))).trans (read_bind_ok hread)
        · rintro ⟨key, v⟩ _ ⟨q, w, w', u, ⟨raw, _, rfl⟩, _, _, _, rfl⟩
          exact ⟨quote, _, rfl, rfl, by decide⟩

end TranscodingServer
