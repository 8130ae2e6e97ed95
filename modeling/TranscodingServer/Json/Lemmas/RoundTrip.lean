import TranscodingServer.Json.Lemmas.Documents
import TranscodingServer.Json.Lemmas.Lookup
import TranscodingServer.Json.Writer

/-!
# What the writer writes is a text of the value
-/

namespace TranscodingServer

open Reading JsonParser

/-! ## Strings -/

theorem code_of_control : ∀ n < 0x20,
    check (to_hex (UInt8.ofNat n / 16)) = true ∧ check (to_hex (UInt8.ofNat n % 16)) = true ∧
    codeBytes (hexCode '0'.toUInt8 '0'.toUInt8 (to_hex (UInt8.ofNat n / 16))
      (to_hex (UInt8.ofNat n % 16))) = [UInt8.ofNat n] := by
  decide

theorem chars_escapeChar (c : UInt8) {raw s : Str} (h : Chars raw s) :
    Chars (escapeChar c ++ raw) (c :: s) := by
  unfold escapeChar
  split
  · rename_i hc
    subst hc
    exact .escape rfl h
  · rename_i hq
    split
    · rename_i hc
      subst hc
      exact .escape rfl h
    · rename_i hb
      repeat' split
      all_goals rename_i hc
      any_goals
        subst hc
        exact .escape rfl h
      · have hn : c.toNat < 0x20 := by
          have hlt := UInt8.lt_iff_toNat_lt.mp hc
          exact hlt
        obtain ⟨hhi, hlo, hcode⟩ := code_of_control c.toNat hn
        rw [UInt8.ofNat_toNat] at hhi hlo hcode
        have hzero : check '0'.toUInt8 = true := by decide
        have hchars := Chars.code hzero hzero hhi hlo h
        rw [hcode] at hchars
        exact hchars
      · refine .plain hq hb ?_ h
        rintro rfl
        exact hc (by decide)

theorem chars_escape (s : Str) : Chars (escape s) s := by
  induction s with
  | nil => exact .nil
  | cons c s ih => exact chars_escapeChar c ih

theorem quoted_dump_string (s : Str) : Quoted s (dump_string s) := ⟨escape s, chars_escape s, rfl⟩

/-! ## Integers -/

theorem digitChar_digit : ∀ n < 10, isDecimal (n.digitChar).toUInt8 = true ∧
    (n.digitChar).toUInt8.toNat - '0'.toUInt8.toNat = n ∧
    ((n.digitChar).toUInt8 = '0'.toUInt8 → n = 0) := by
  decide

/-- The digits of a positive number do not begin with 0. -/
theorem toDigits_spec (n : Nat) : ∃ c ds, (Nat.toDigits 10 n).map Char.toUInt8 = c :: ds ∧
    isDecimal c = true ∧ Digits ds ∧ (c = '0'.toUInt8 → n = 0 ∧ ds = []) ∧ readNat (c :: ds) = n := by
  induction n using Nat.strongRecOn with
  | _ n ih =>
      rw [Nat.toDigits_eq_if (by decide)]
      split
      · rename_i hn
        obtain ⟨hd, hval, hzero⟩ := digitChar_digit n hn
        refine ⟨_, [], rfl, hd, by simp [Digits], fun h => ⟨hzero h, rfl⟩, ?_⟩
        simpa [readNat] using hval
      · rename_i hn
        obtain ⟨c, ds, hdigits, hc, hds, hzero, hval⟩ := ih (n / 10) (by omega)
        obtain ⟨hd, hlast, _⟩ := digitChar_digit (n % 10) (by omega)
        refine ⟨c, ds ++ [(n % 10).digitChar.toUInt8], ?_, hc, ?_, ?_, ?_⟩
        · rw [List.map_append, hdigits]
          rfl
        · intro d hmem
          rcases List.mem_append.mp hmem with h | h
          · exact hds d h
          · rw [List.mem_singleton.mp h]
            exact hd
        · intro h
          have := (hzero h).1
          omega
        · rw [← List.cons_append, readNat, List.foldl_append, ← readNat, hval]
          simp only [List.foldl_cons, List.foldl_nil, hlast]
          omega

theorem intPart_toDigits (n : Nat) : IntPart ((Nat.toDigits 10 n).map Char.toUInt8) := by
  obtain ⟨c, ds, h, hc, hds, hzero, _⟩ := toDigits_spec n
  rw [h]
  by_cases h0 : c = '0'.toUInt8
  · rw [h0, (hzero h0).2]
    exact .inl rfl
  · exact .inr ⟨c, ds, rfl, hc, h0, hds⟩

theorem number_to_string (i : Int) : Number (to_string i) := by
  cases i with
  | ofNat n => exact ⟨[], _, [], [], by simp [to_string], .inl rfl, intPart_toDigits n, .inl rfl, .inl rfl⟩
  | negSucc n =>
      exact ⟨str "-", _, [], [], by simp only [to_string, List.append_nil]; rfl, .inr rfl,
        intPart_toDigits (n + 1), .inl rfl, .inl rfl⟩

section Values

variable (sort : List (Str × Json) → List (Str × Json))

mutual
/-- The value as the reader sees it. -/
def Wvalue.json : Wvalue → Json
  | .null => .null
  | .bool b => .bool b
  | .number si => .number (to_string si)
  | .string s => .string s
  | .list l => .list (Wvalue.jsonList l)
  | .object o => .object (sort (Wvalue.jsonObject o))

def Wvalue.jsonList : List Wvalue → List Json
  | [] => []
  | x :: l => x.json :: Wvalue.jsonList l

def Wvalue.jsonObject : List (Str × Wvalue) → List (Str × Json)
  | [] => []
  | kv :: o => (kv.1, kv.2.json) :: Wvalue.jsonObject o
end

variable (fits : Nat → Prop)

/-- Nested at most `k` deep, the numbers of items such that they fit. -/
def Wvalue.Within : Nat → Wvalue → Prop
  | 0, .list _ => False
  | 0, .object _ => False
  | k + 1, .list l => fits l.length ∧ ∀ x ∈ l, x.Within k
  | k + 1, .object o => fits o.length ∧ ∀ kv ∈ o, kv.2.Within k
  | _, _ => True

variable {sort fits}

theorem jsonObject_eq (o : List (Str × Wvalue)) :
    Wvalue.jsonObject sort o = o.map fun kv => (kv.1, kv.2.json sort) := by
  induction o with
  | nil => rfl
  | cons kv o ih => rw [Wvalue.jsonObject, ih, List.map_cons]

theorem items_dumpList {k : Nat} {x : Wvalue} {l : List Wvalue}
    (h : ∀ y ∈ x :: l, Value fits sort k (y.json sort) y.dump) :
    Items isSpace ']'.toUInt8 ','.toUInt8 (Value fits sort k) (Wvalue.jsonList sort (x :: l))
      (Wvalue.dumpList true (x :: l) ++ [']'.toUInt8]) := by
  induction l generalizing x with
  | nil => simpa [Wvalue.dumpList, Wvalue.jsonList, separator] using
      Items.last (w := []) (h x List.mem_cons_self) (by simp)
  | cons y l ih =>
      have hrest := ih fun z hz => h z (List.mem_cons_of_mem x hz)
      simpa [Wvalue.dumpList, Wvalue.jsonList, separator] using
        @Items.more _ _ _ _ _ _ _ _ [] [] _ _ (h x List.mem_cons_self) (by simp) (by simp) hrest

theorem items_dumpObject {k : Nat} {x : Str × Wvalue} {o : List (Str × Wvalue)}
    (h : ∀ kv ∈ x :: o, Value fits sort k (kv.2.json sort) kv.2.dump) :
    Items isSpace '}'.toUInt8 ','.toUInt8 (Field (Value fits sort k)) (Wvalue.jsonObject sort (x :: o))
      (Wvalue.dumpObject true (x :: o) ++ ['}'.toUInt8]) := by
  have hfield : ∀ kv ∈ x :: o, Field (Value fits sort k) (kv.1, kv.2.json sort)
      (dump_string kv.1 ++ ':'.toUInt8 :: kv.2.dump) := fun kv hkv =>
    ⟨_, [], [], _, quoted_dump_string kv.1, by simp [Spaces], by simp [Spaces], h kv hkv, rfl⟩
  induction o generalizing x with
  | nil => simpa [Wvalue.dumpObject, Wvalue.jsonObject, separator] using
      Items.last (w := []) (hfield x List.mem_cons_self) (by simp)
  | cons y o ih =>
      have hrest := ih (fun z hz => h z (List.mem_cons_of_mem x hz))
        fun z hz => hfield z (List.mem_cons_of_mem x hz)
      simpa [Wvalue.dumpObject, Wvalue.jsonObject, separator] using
        @Items.more _ _ _ _ _ _ _ _ [] [] _ _ (hfield x List.mem_cons_self) (by simp) (by simp) hrest

theorem length_jsonList (l : List Wvalue) : (Wvalue.jsonList sort l).length = l.length := by
  induction l with
  | nil => rfl
  | cons x l ih => rw [Wvalue.jsonList, List.length_cons, ih, List.length_cons]

theorem length_jsonObject (o : List (Str × Wvalue)) :
    (Wvalue.jsonObject sort o).length = o.length := by rw [jsonObject_eq, List.length_map]

theorem value_dump {w : Wvalue} {k : Nat} (h : w.Within fits k) :
    Value fits sort k (w.json sort) w.dump := by
  induction k generalizing w with
  | zero =>
      cases w with
      | null => exact Scalar.null
      | bool b =>
          cases b with
          | false => exact Scalar.isFalse
          | true => exact Scalar.isTrue
      | number si => exact Scalar.number (number_to_string si)
      | string s => exact Scalar.string (quoted_dump_string s)
      | list l => exact h.elim
      | object o => exact h.elim
  | succ k ih =>
      cases w with
      | null => exact .inl .null
      | bool b =>
          cases b with
          | false => exact .inl .isFalse
          | true => exact .inl .isTrue
      | number si => exact .inl (.number (number_to_string si))
      | string s => exact .inl (.string (quoted_dump_string s))
      | list l =>
          obtain ⟨hfits, hl⟩ := h
          refine .inr (.inl ⟨_, rfl, [], _, by simp [Spaces], rfl, ?_⟩)
          cases l with
          | nil => exact .inl ⟨rfl, rfl⟩
          | cons x l =>
              rw [length_jsonList]
              exact .inr ⟨items_dumpList fun y hy => ih (hl y hy), hfits⟩
      | object o =>
          obtain ⟨hfits, ho⟩ := h
          refine .inr (.inr ⟨_, rfl, [], _, by simp [Spaces], rfl, ?_⟩)
          cases o with
          | nil => exact .inl ⟨rfl, rfl⟩
          | cons kv o =>
              rw [length_jsonObject]
              exact .inr ⟨items_dumpObject fun y hy => ih (ho y hy), hfits⟩

theorem document_dump {w : Wvalue} (h : w.Within fits (max_depth / 2)) :
    DocumentOf fits sort (w.json sort) w.dump :=
  ⟨[], w.dump, [], by simp [Spaces], by simp [Spaces], value_dump h, by simp⟩

end Values

/-! ## Bounds -/

section Within

variable {fits : Nat → Prop} {k : Nat}

theorem within_list {l : List Wvalue} (hfits : fits l.length) (h : ∀ x ∈ l, x.Within fits k) :
    (Wvalue.list l).Within fits (k + 1) := ⟨hfits, h⟩

theorem Wvalue.Within.le {w : Wvalue} {m : Nat} (h : w.Within fits k) (hm : k ≤ m) :
    w.Within fits m := by
  induction k generalizing w m with
  | zero =>
      cases w with
      | null | bool b | number si | string s => cases m <;> trivial
      | list l => exact h.elim
      | object o => exact h.elim
  | succ k ih =>
      obtain ⟨m, rfl⟩ := Nat.exists_eq_succ_of_ne_zero (Nat.ne_of_gt (Nat.zero_lt_of_lt hm))
      cases w with
      | null | bool b | number si | string s => trivial
      | list l => exact ⟨h.1, fun x hx => ih (h.2 x hx) (Nat.le_of_succ_le_succ hm)⟩
      | object o => exact ⟨h.1, fun kv hkv => ih (h.2 kv hkv) (Nat.le_of_succ_le_succ hm)⟩

end Within

/-! ## The order of the fields -/

section Arranged

mutual
theorem Wvalue.Arranged.refl : ∀ w : Wvalue, w.Arranged w
  | .null => .null
  | .bool b => .bool b
  | .number si => .number si
  | .string s => .string s
  | .list l => .list (Wvalue.ArrangedList.refl l)
  | .object o => .object (Wvalue.ArrangedObject.refl o) .rfl

theorem Wvalue.ArrangedList.refl : ∀ l : List Wvalue, Wvalue.ArrangedList l l
  | [] => .nil
  | x :: l => .cons (Wvalue.Arranged.refl x) (Wvalue.ArrangedList.refl l)

theorem Wvalue.ArrangedObject.refl : ∀ o : List (Str × Wvalue), Wvalue.ArrangedObject o o
  | [] => .nil
  | (_, x) :: o => .cons (Wvalue.Arranged.refl x) (Wvalue.ArrangedObject.refl o)
end

variable {l m : List Wvalue} {o p : List (Str × Wvalue)}

theorem Wvalue.ArrangedList.mem (h : Wvalue.ArrangedList l m) {y : Wvalue} (hy : y ∈ m) :
    ∃ x ∈ l, x.Arranged y := by
  induction l generalizing m with
  | nil =>
      cases h
      cases hy
  | cons x l ih =>
      cases h with
      | cons hx hl =>
          rcases List.mem_cons.mp hy with rfl | hy
          · exact ⟨x, List.mem_cons_self, hx⟩
          · obtain ⟨x', hx', harranged⟩ := ih hl hy
            exact ⟨x', List.mem_cons_of_mem x hx', harranged⟩

theorem Wvalue.ArrangedList.length_eq (h : Wvalue.ArrangedList l m) : m.length = l.length := by
  induction l generalizing m with
  | nil =>
      cases h
      rfl
  | cons x l ih =>
      cases h with
      | cons _ hl => rw [List.length_cons, ih hl, List.length_cons]

theorem Wvalue.ArrangedObject.mem (h : Wvalue.ArrangedObject o p) {kv : Str × Wvalue} (hkv : kv ∈ p) :
    ∃ x, (kv.1, x) ∈ o ∧ x.Arranged kv.2 := by
  induction o generalizing p with
  | nil =>
      cases h
      cases hkv
  | cons x o ih =>
      cases h with
      | cons hx ho =>
          rcases List.mem_cons.mp hkv with rfl | hkv
          · exact ⟨_, List.mem_cons_self, hx⟩
          · obtain ⟨x', hx', harranged⟩ := ih ho hkv
            exact ⟨x', List.mem_cons_of_mem _ hx', harranged⟩

theorem Wvalue.ArrangedObject.keys_eq (h : Wvalue.ArrangedObject o p) :
    p.map Prod.fst = o.map Prod.fst := by
  induction o generalizing p with
  | nil =>
      cases h
      rfl
  | cons x o ih =>
      cases h with
      | cons _ ho => rw [List.map_cons, ih ho, List.map_cons]

theorem Wvalue.ArrangedObject.lookup (h : Wvalue.ArrangedObject o p) {key : Str} {x : Wvalue}
    (hx : o.lookup key = some x) : ∃ y, x.Arranged y ∧ p.lookup key = some y := by
  induction o generalizing p with
  | nil => cases hx
  | cons kv o ih =>
      cases h with
      | @cons key' _ y _ _ hy ho =>
          rw [List.lookup_cons] at hx ⊢
          cases hkey : key == key' with
          | true =>
              rw [hkey] at hx
              cases hx
              exact ⟨y, hy, rfl⟩
          | false =>
              rw [hkey] at hx
              exact ih ho hx

end Arranged

end TranscodingServer
