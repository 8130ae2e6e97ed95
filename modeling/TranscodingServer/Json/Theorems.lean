import TranscodingServer.Json.Lemmas.Elements
import TranscodingServer.Json.Lemmas.InPlace
import TranscodingServer.Json.Lemmas.RoundTrip

/-!
# What holds of the JSON reader and writer

`sort` is the `std::sort` of the fields of an object; where nothing is said about it, it may do
anything.
-/

namespace TranscodingServer

open Reading JsonParser

variable {sort : List (Str × Json) → List (Str × Json)}

theorem room_eq : Elements.store.Room = (· ≤ max_elements) :=
  funext fun k => propext (room_elements k)

theorem unbounded_room_eq : Store.unbounded.Room = fun _ => True :=
  funext fun k => eq_true (Store.room_unbounded k)

/-- The reader stops at the first NUL byte. -/
theorem load_of_c_str {text : Str} {v : Json} (h : Loadable sort v (c_str text)) :
    load sort text = .ok v := by
  obtain ⟨rest, hnul⟩ := append_nul text
  rw [Loadable, ← room_eq] at h
  rw [load, hnul, read_document h rest]
  rfl

/-- What becomes of a text: its arrays are too short only if it is longer than the longest of them. -/
theorem load_cases (text : Str) :
    (∃ v, load sort text = .ok v ∧ Loadable sort v (c_str text)) ∨
    (∃ seen data, load sort text = .error (.invalid data) ∧ text ++ [0] = seen ++ data ∧
      (0 : UInt8) ∉ seen ∧ data ≠ []) ∨
    load sort text = .error .overflow ∧ max_elements ≤ text.length := by
  have hstop : (0 : UInt8) ∈ text ++ [0] := by simp
  have hroom : ¬max_elements ≤ text.length → Elements.store.Room (text ++ [0]).length := by
    intro hshort
    rw [room_elements, List.length_append]
    exact Nat.lt_of_not_le hshort
  rcases @parse_read _ Elements.store sort _ _ hstop hroom with
    ⟨v, t, rest, hread, htext, hfree, hdoc⟩ | ⟨t, rest, hread, htext, hfree⟩ | ⟨hread, hlong⟩
  · have ht : c_str text = t := by
      obtain ⟨rest', hnul⟩ := append_nul text
      rw [← c_str_append (c_str_no_nul text) rest', ← hnul, htext, c_str_append hfree]
    rw [room_eq, ← ht] at hdoc
    exact .inl ⟨v, by rw [load, hread]; rfl, hdoc⟩
  · refine .inr (.inl ⟨t, rest, by rw [load, hread]; rfl, htext, hfree, ?_⟩)
    rintro rfl
    rw [htext, List.append_nil] at hstop
    exact hfree hstop
  · exact .inr (.inr ⟨by rw [load, hread]; rfl, hlong⟩)

/-- The reader accepts exactly the documents, up to the first NUL byte of the text, with at most 5000
levels of nesting and at most `max_elements` items in a list or an object. -/
theorem load_eq_ok_iff {text : Str} {v : Json} :
    load sort text = .ok v ↔ Loadable sort v (c_str text) := by
  constructor
  · intro h
    rcases @load_cases sort text with ⟨w, hload, hdoc⟩ | ⟨_, _, hload, _⟩ | ⟨hload, _⟩
    · rw [h] at hload
      cases hload
      exact hdoc
    · rw [h] at hload
      cases hload
    · rw [h] at hload
      cases hload
  · exact load_of_c_str

/-- Whatever the text, no read is behind the buffer and the recursion ends: the reader comes back with a
value, or with an error and its cursor still in the buffer, unless it writes behind an array, for which
the text must have `max_elements` bytes. -/
theorem load_stays_inside (text : Str) :
    (∃ v, load sort text = .ok v) ∨
    (∃ seen data, load sort text = .error (.invalid data) ∧ text ++ [0] = seen ++ data ∧
      (0 : UInt8) ∉ seen ∧ data ≠ []) ∨
    load sort text = .error .overflow ∧ max_elements ≤ text.length :=
  (load_cases text).imp (fun h => h.imp fun _ => And.left) id

theorem Loadable.document {v : Json} {t : Str} (h : Loadable sort v t) : Document sort v t := by
  obtain ⟨w, u, w', hw, hw', hu, rfl⟩ := h
  exact ⟨w, u, w', hw, hw', hu.short fun _ _ => trivial, rfl⟩

/-- No text is a document of two values. -/
theorem document_unique {v w : Json} {t : Str} (hv : Document sort v t) (hw : Document sort w t) :
    v = w := by
  rw [Document, ← unbounded_room_eq] at hv hw
  have h := read_document hv []
  rw [read_document hw [], Except.ok.injEq, Prod.mk.injEq] at h
  exact h.1.symm

/-- What the writer writes, the reader reads back, strings with any bytes included. -/
theorem load_dump {w : Wvalue} (h : w.Within (· ≤ max_elements) (max_depth / 2)) :
    load sort w.dump = .ok (w.json sort) := by
  have hdoc : DocumentOf Elements.store.Room sort (w.json sort) w.dump := by
    rw [room_eq]
    exact document_dump h
  rw [load, read_document hdoc []]
  rfl

theorem load_dump_quotes :
    load id (Wvalue.list [.string [quote, backslash, 0, 0x80], .number (-7)]).dump =
      .ok (.list [.string [quote, backslash, 0, 0x80], .number (str "-7")]) := by
  have hwithin : (Wvalue.list [.string [quote, backslash, 0, 0x80], .number (-7)]).Within
      (· ≤ max_elements) 1 := within_list (by decide) (by simp [Wvalue.Within])
  rw [load_dump (hwithin.le (by decide))]
  rfl

/-- A lookup in the sorted fields finds a field of the object, and it finds one for every key that the
object has; with distinct keys it is the one field of the text, whatever `sort` made of the order. -/
theorem lookup_sorted {fields : List (Str × Json)} (hperm : (sort fields).Perm fields)
    (hsorted : SortedFields (sort fields)) (key : Str) :
    lookup (sort fields) key = (Json.object (sort fields)).get? key ∧
    ((lookup (sort fields) key).isSome ↔ key ∈ fields.map Prod.fst) ∧
    (∀ v, lookup (sort fields) key = some v → (key, v) ∈ fields) ∧
    ((fields.map Prod.fst).Nodup → lookup (sort fields) key = fields.lookup key) := by
  rw [lookup_of_sorted hsorted]
  refine ⟨rfl, ?_, ?_, fun hd => ?_⟩
  · rw [← (hperm.map Prod.fst).mem_iff, Option.isSome_iff_ne_none, ne_eq, List.lookup_eq_none_iff]
    simp
  · intro v hv
    obtain ⟨l₁, l₂, hl, _⟩ := List.lookup_eq_some_iff.mp hv
    exact hperm.mem_iff.mp (by rw [hl]; simp)
  · exact lookup_perm hperm ((hperm.map Prod.fst).nodup_iff.mpr hd) key

/-- The second field is found behind the first one. -/
theorem lookup_sorted_two :
    lookup [(str "id", Json.null), (str "url", .bool true)] (str "url") = some (.bool true) := by
  have hsorted : SortedFields [(str "id", Json.null), (str "url", .bool true)] := by
    unfold SortedFields
    decide
  obtain ⟨_, _, _, hlookup⟩ := @lookup_sorted id _ .rfl hsorted (str "url")
  exact hlookup (by decide)

/-- Strings of one buffer that are decoded in place: each call returns the string of its value, in
whatever order the calls come and however often. -/
theorem callAll_texts {refs : List StringRef} {texts : List Str} {lo hi : Nat → Nat} {buf : Buffer}
    (h : Strings buf refs texts lo hi) (is : List Nat) (his : ∀ i ∈ is, i < texts.length) :
    ∃ ss refs' buf', callAll is refs buf = some (ss, refs', buf') ∧
      ss.map some = is.map (texts[·]?) ∧ Strings buf' refs' texts lo hi := by
  induction is generalizing refs buf with
  | nil => exact ⟨[], refs, buf, rfl, rfl, h⟩
  | cons i is ih =>
      have hi : i < texts.length := his i List.mem_cons_self
      have hs := List.getElem?_eq_getElem hi
      have hv := List.getElem?_eq_getElem (h.length ▸ hi : i < refs.length)
      obtain ⟨v', buf₁, hcall, hnext⟩ := h.s_step hv hs
      obtain ⟨ss, refs', buf', hrest, htexts, hstrings⟩ :=
        ih hnext fun j hj => his j (List.mem_cons_of_mem i hj)
      refine ⟨texts[i] :: ss, refs', buf', ?_, ?_, hstrings⟩
      · rw [callAll, hv]
        simp only [Option.bind_eq_bind, Option.bind_some, hcall, hrest, Option.pure_def]
      · rw [List.map_cons, List.map_cons, htexts, hs]

/-- A string with an escaped character, twice, and a plain one behind it. -/
theorem callAll_texts_two :
    ∃ ss refs buf, callAll [0, 1, 0] [⟨1, 4⟩, ⟨6, 7⟩] [1, 97, backslash, 110, 0, 0, 98, 0] =
        some (ss, refs, buf) ∧ ss.map some = [some [97, 10], some [98], some [97, 10]] := by
  have hstrings : Strings [1, 97, backslash, 110, 0, 0, 98, 0] [⟨1, 4⟩, ⟨6, 7⟩] [[97, 10], [98]]
      (5 * ·) (5 + 3 * ·) := by
    refine ⟨rfl, fun i v s hv hs => ?_, by decide⟩
    cases i with
    | zero =>
        cases hv
        cases hs
        have hchars : Chars [97, backslash, 110] [97, 10] :=
          .plain (by decide) (by decide) (by decide) (.escape rfl .nil)
        exact ⟨rfl, ⟨1, _, [0], rfl, by decide, rfl, .inr ⟨by decide, hchars⟩⟩, by decide⟩
    | succ i =>
        cases i with
        | zero =>
            cases hv
            cases hs
            exact ⟨rfl, ⟨0, [98], [0], rfl, by decide, rfl, .inl ⟨rfl, rfl⟩⟩, by decide⟩
        | succ i => cases hv
  obtain ⟨ss, refs, buf, hcall, htexts, _⟩ := callAll_texts hstrings [0, 1, 0] (by decide)
  exact ⟨ss, refs, buf, hcall, htexts⟩

end TranscodingServer
