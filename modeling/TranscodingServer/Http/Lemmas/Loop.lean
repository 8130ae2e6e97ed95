import TranscodingServer.Core.Lemmas.Tables
import TranscodingServer.Http.Handlers

/-!
# The loop of the handlers and the tables

The items before the first malformed one have been applied when the loop ends.
-/

namespace TranscodingServer

section Loop

variable {ι α β : Type} {args : Json → Except Nat ι}
  {apply : Nat → ι → α → TranscodingService → α × TranscodingService} {result : α → β}

def WellFormed (args : Json → Except Nat ι) (item : Json) : Bool := (args item).isOk

theorem wellFormed_ok {item : Json} {i : ι} (h : args item = .ok i) :
    WellFormed args item = true := by
  rw [WellFormed, h]; rfl

theorem wellFormed_error {item : Json} {code : Nat} (h : args item = .error code) :
    WellFormed args item = false := by
  rw [WellFormed, h]; rfl

/-- The loop answers with its result exactly when every item is well formed. -/
theorem batchLoop_ok_iff (n : Nat) (items : List Json) (acc : α) (s : TranscodingService) :
    (∃ body, (batchLoop args apply result n items acc s).1 = .ok body) ↔
      ∀ item ∈ items, WellFormed args item = true := by
  induction items generalizing n acc s with
  | nil => simp [batchLoop]
  | cons item rest ih =>
      cases h : args item with
      | error code => simp [batchLoop, h, wellFormed_error h]
      | ok i => simp [batchLoop, h, ih, wellFormed_ok h]

/-- A change that no item undoes is still there behind the loop. -/
theorem batchLoop_changed {D : Tables → Prop}
    (hkeep : ∀ n i acc s, D s.toTables → D (apply n i acc s).2.toTables)
    (n : Nat) (items : List Json) (acc : α) (s : TranscodingService) (h : D s.toTables) :
    D (batchLoop args apply result n items acc s).2.toTables := by
  induction items generalizing n acc s with
  | nil => exact h
  | cons item rest ih =>
      cases hi : args item with
      | error code => simpa [batchLoop, hi] using h
      | ok i =>
          simp only [batchLoop, hi]
          exact ih _ _ _ (hkeep _ _ _ _ h)

/-- What the loop needs to know of its items: an item that is refused changes no table, another one
leaves a difference `D` that no item undoes. -/
structure Marks (apply : Nat → ι → α → TranscodingService → α × TranscodingService)
    (refused : TranscodingService → ι → Prop) (D : Tables → Tables → Prop) : Prop where
  refused_same : ∀ n i acc s, refused s i → (apply n i acc s).2.toTables = s.toTables
  refused_tables : ∀ s t i, t.toTables = s.toTables → (refused t i ↔ refused s i)
  accepted : ∀ n i acc s, ¬refused s i → D s.toTables (apply n i acc s).2.toTables
  keep : ∀ n i acc s T, D T s.toTables → D T (apply n i acc s).2.toTables
  irrefl : ∀ T, ¬D T T

/-- The loop leaves the tables as they are exactly when it refuses every item before the first
malformed one. -/
theorem Marks.unchanged_iff {refused : TranscodingService → ι → Prop}
    {D : Tables → Tables → Prop} (h : Marks apply refused D) (n : Nat) (items : List Json)
    (acc : α) (s : TranscodingService) :
    (batchLoop args apply result n items acc s).2.toTables = s.toTables ↔
      ∀ item ∈ items.takeWhile (WellFormed args), ∀ i, args item = .ok i → refused s i := by
  induction items generalizing n acc s with
  | nil => simp [batchLoop]
  | cons item rest ih =>
      cases hargs : args item with
      | error code => simp [batchLoop, hargs, wellFormed_error hargs]
      | ok i =>
          rw [List.takeWhile_cons_of_pos (wellFormed_ok hargs)]
          simp only [batchLoop, hargs, List.forall_mem_cons, Except.ok.injEq, forall_eq']
          by_cases hi : refused s i
          · have hsame := h.refused_same n i acc s hi
            rw [← hsame, ih]
            simp only [h.refused_tables s _ _ hsame, hi, true_and]
          · -- the difference that this item makes is still there when the loop ends
            refine iff_of_false (fun heq => ?_) (fun hall => hi hall.1)
            have hchanged : D s.toTables (batchLoop args apply result (n + 1) rest
                (apply n i acc s).1 (apply n i acc s).2).2.toTables :=
              batchLoop_changed (fun n i acc t => h.keep n i acc t s.toTables) _ _ _ _
                (h.accepted n i acc s hi)
            rw [heq] at hchanged
            exact h.irrefl _ hchanged

def RejectedUnchanged (r : Response β × TranscodingService) (s : TranscodingService) : Prop :=
  (∀ body, r.1 ≠ .ok body) → r.2.toTables = s.toTables

theorem Marks.rejectedUnchanged_iff {refused : TranscodingService → ι → Prop}
    {D : Tables → Tables → Prop} (h : Marks apply refused D) (n : Nat) (items : List Json)
    (acc : α) (s : TranscodingService) :
    RejectedUnchanged (batchLoop args apply result n items acc s) s ↔
      ((∃ item ∈ items, WellFormed args item = false) →
        ∀ item ∈ items.takeWhile (WellFormed args), ∀ i, args item = .ok i → refused s i) := by
  have hrejected : (∀ body, (batchLoop args apply result n items acc s).1 ≠ .ok body) ↔
      ∃ item ∈ items, WellFormed args item = false := by
    rw [← not_exists, batchLoop_ok_iff]
    simp
  unfold RejectedUnchanged
  rw [hrejected, h.unchanged_iff]

end Loop

/-! ## The items of `/add` and `/remove` -/

variable {gst : Gst}

/-- An added id is in the table, where no other addition takes it away. -/
theorem addItem_marks (clock : Nat → Str) :
    Marks (fun n => addItem gst (clock n)) (fun s i => ¬Accepts gst s i.1 i.2)
      (fun T T' => ∃ id, id ∉ T.uriPartsMap ∧ id ∈ T'.uriPartsMap) where
  refused_same n i acc s h := by rw [addItem, AddRtsp_refused h]
  refused_tables s t i h := not_congr (accepts_congr (congrArg Tables.uriPartsMap h))
  accepted n i acc s h := by
    have ha : Accepts gst s i.1 i.2 := not_not.mp h
    exact ⟨i.1, ha.freshId, mem_uriPartsMap_AddRtsp.mpr (.inl ⟨ha, rfl⟩)⟩
  keep n i acc s T := by
    rintro ⟨id, hno, hmem⟩
    exact ⟨id, hno, mem_uriPartsMap_AddRtsp.mpr (.inr hmem)⟩
  irrefl T := by
    rintro ⟨id, hno, hmem⟩
    exact hno hmem

/-- A removed id is missing from the table, where no other removal puts it back. -/
theorem removeItem_marks (clock : Nat → Str) :
    Marks (fun n => removeItem gst (clock n)) (fun s id => id ∉ s.uriPartsMap)
      (fun T T' => ∃ id, id ∈ T.uriPartsMap ∧ id ∉ T'.uriPartsMap) where
  refused_same n id acc s h := by rw [removeItem, RemoveRtsp_unknown h]
  refused_tables s t id h := by rw [congrArg Tables.uriPartsMap h]
  accepted n id acc s h := by
    have hid : id ∈ s.uriPartsMap := not_not.mp h
    exact ⟨id, hid, fun hmem => (mem_uriPartsMap_RemoveRtsp.mp hmem).1 rfl⟩
  keep n id acc s T := by
    rintro ⟨k, hmem, hno⟩
    exact ⟨k, hmem, fun hk => hno (mem_uriPartsMap_RemoveRtsp.mp hk).2⟩
  irrefl T := by
    rintro ⟨id, hmem, hno⟩
    exact hno hmem

end TranscodingServer
