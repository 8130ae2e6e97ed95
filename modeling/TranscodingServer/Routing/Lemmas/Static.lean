import TranscodingServer.Routing.Static

/-!
# Names that `sanitize_filename` gives back
-/

namespace TranscodingServer

def components (name : Str) : List Str := name.splitOnP isSeparator

/-- A name that stays as it is. -/
structure CleanName (name : Str) : Prop where
  safe : ∀ c ∈ name, isUnsafe c = false
  relative : ∀ c, name.head? = some c → isSeparator c = false
  special : ∀ w ∈ components name, special w = none

/-! ## Special names -/

theorem isSeparator_iff {c : UInt8} :
    isSeparator c = true ↔ c = '/'.toUInt8 ∨ c = '\\'.toUInt8 := by
  simp [isSeparator]

/-- What follows the end of a component. -/
def EndsComponent (rest : Str) : Prop := ∀ c, rest.head? = some c → isSeparator c = true

theorem specialEnds_append {w rest : Str} (hrest : EndsComponent rest) :
    specialEnds (w ++ rest) = specialEnds w := by
  cases w with
  | cons c w => rfl
  | nil =>
      cases rest with
      | nil => rfl
      | cons c rest =>
          have hc := hrest c rfl
          simp [specialEnds, hc]

theorem sanitizeSpecialFile_append (includeNumber : Bool) {pattern w rest : Str}
    (hpattern : ∀ p ∈ pattern, isSeparator p = false) (hrest : EndsComponent rest) :
    sanitizeSpecialFile includeNumber pattern (w ++ rest) =
      sanitizeSpecialFile includeNumber pattern w := by
  induction pattern generalizing w with
  | nil =>
      cases w with
      | nil =>
          cases rest with
          | nil => rfl
          | cons c rest =>
              have hends := @specialEnds_append [] (c :: rest) hrest
              have hnumber : c < '1'.toUInt8 ∨ '9'.toUInt8 < c := by
                rcases isSeparator_iff.mp (hrest c rfl) with rfl | rfl <;> decide
              rw [List.nil_append] at hends ⊢
              cases includeNumber with
              | false => simp [sanitizeSpecialFile, hends]
              | true => simp only [sanitizeSpecialFile, if_pos hnumber, if_true]
      | cons c w =>
          have hends := @specialEnds_append w rest hrest
          have hends' := @specialEnds_append (c :: w) rest hrest
          rw [List.cons_append] at hends' ⊢
          cases includeNumber <;> simp [sanitizeSpecialFile, hends, hends']
  | cons p pattern ih =>
      have hp := hpattern p (by simp)
      cases w with
      | nil =>
          cases rest with
          | nil => rfl
          | cons c rest =>
              have hne : toUpper c ≠ p := by
                intro heq
                rcases isSeparator_iff.mp (hrest c rfl) with rfl | rfl <;>
                  exact absurd (heq ▸ hp) (by decide)
              simp only [List.nil_append, sanitizeSpecialFile, if_pos hne]
      | cons c w =>
          rw [List.cons_append, sanitizeSpecialFile, sanitizeSpecialFile,
            ih fun q hq => hpattern q (by simp [hq])]

theorem specialNames_clean {c : UInt8} {x : Str × Bool} (h : x ∈ specialNames c) :
    ∀ p ∈ x.1, isSeparator p = false ∧ p ≠ replacement := by
  let names : List (Str × Bool) := [(str "AUX", false), (str "CON", false), (str "COM", true),
    (str "LPT", true), (str "NUL", false), (str "PRN", false), (str "..", false)]
  have hall : (names.all fun x => x.1.all fun p => !isSeparator p && p != replacement) = true := by
    decide
  have hsub : specialNames c ⊆ names := by
    rw [specialNames]
    split_ifs <;> decide
  have hx := List.all_eq_true.mp hall x (hsub h)
  intro p hp
  simpa using List.all_eq_true.mp hx p hp

theorem special_eq_none_iff {c : UInt8} {data : Str} :
    special (c :: data) = none ↔
      ∀ x ∈ specialNames (toUpper c), sanitizeSpecialFile x.2 x.1 (c :: data) = none := by
  rw [special, List.findSome?_eq_none_iff]

theorem special_append_eq_none_iff {w rest : Str} (hrest : EndsComponent rest) :
    special (w ++ rest) = none ↔ special w = none := by
  cases w with
  | nil =>
      cases rest with
      | nil => rfl
      | cons c rest =>
          rcases isSeparator_iff.mp (hrest c rfl) with rfl | rfl <;> exact Iff.rfl
  | cons c w =>
      rw [List.cons_append, special_eq_none_iff, special_eq_none_iff]
      refine forall₂_congr fun x hx => ?_
      rw [← List.cons_append, sanitizeSpecialFile_append x.2 (fun p hp => (specialNames_clean hx p hp).1)
        hrest]

/-- What the loop makes of a character that it does not take for the start of a special name. -/
def cleanChar (c : UInt8) : UInt8 := if isUnsafe c then replacement else c

theorem cleanChar_eq {c : UInt8} (h : cleanChar c ≠ replacement) : cleanChar c = c := by
  rw [cleanChar] at h ⊢
  split_ifs at h ⊢
  · exact absurd rfl h
  · rfl

theorem specialEnds_clean {w : Str} (h : specialEnds (w.map cleanChar) = true) : specialEnds w = true := by
  cases w with
  | nil => rfl
  | cons c w =>
      have hne : cleanChar c ≠ replacement := by
        intro heq
        rw [List.map_cons, specialEnds, heq] at h
        exact absurd h (by decide)
      rw [List.map_cons, specialEnds, cleanChar_eq hne] at h
      rw [specialEnds]
      exact h

theorem sanitizeSpecialFile_clean {includeNumber : Bool} {pattern w : Str} {n : Nat}
    (hpattern : ∀ p ∈ pattern, p ≠ replacement)
    (h : sanitizeSpecialFile includeNumber pattern (w.map cleanChar) = some n) :
    sanitizeSpecialFile includeNumber pattern w = some n := by
  induction pattern generalizing w n with
  | nil =>
      cases includeNumber with
      | false =>
          simp only [sanitizeSpecialFile, Bool.false_eq_true, if_false] at h ⊢
          split_ifs at h with hends
          rw [if_pos (specialEnds_clean hends), ← h]
      | true =>
          cases w with
          | nil => exact h
          | cons c w =>
              simp only [List.map_cons, sanitizeSpecialFile, if_true] at h ⊢
              split_ifs at h with hnumber hends
              have hne : cleanChar c ≠ replacement := fun heq => hnumber (heq ▸ by decide)
              rw [cleanChar_eq hne] at hnumber
              rw [if_neg hnumber, if_pos (specialEnds_clean hends), ← h]
  | cons p pattern ih =>
      cases w with
      | nil => exact h
      | cons c w =>
          rw [List.map_cons, sanitizeSpecialFile] at h
          split_ifs at h with hp
          have hne : cleanChar c ≠ replacement := by
            intro heq
            have hpr := hpattern p (by simp)
            rw [heq] at hp
            exact hp fun hup => hpr (hup ▸ by decide)
          rw [cleanChar_eq hne] at hp
          obtain ⟨m, hm, rfl⟩ := Option.map_eq_some_iff.mp h
          rw [sanitizeSpecialFile, if_neg hp, ih (fun q hq => hpattern q (by simp [hq])) hm]
          rfl

theorem special_clean {w : Str} (h : special w = none) : special (w.map cleanChar) = none := by
  cases w with
  | nil => rfl
  | cons c w =>
      rw [List.map_cons, special_eq_none_iff]
      intro x hx
      have hne : cleanChar c ≠ replacement := by
        intro heq
        have hnone : specialNames (toUpper replacement) = [] := by decide
        rw [heq, hnone] at hx
        cases hx
      rw [cleanChar_eq hne] at hx
      by_contra hsome
      obtain ⟨n, hn⟩ := Option.ne_none_iff_exists'.mp hsome
      have hspecial := sanitizeSpecialFile_clean (w := c :: w)
        (fun p hp => (specialNames_clean hx p hp).2) hn
      rw [special_eq_none_iff.mp h x hx] at hspecial
      cases hspecial

/-! ## The loop -/

theorem sanitizeLoop_skip (skip : Nat) (start check : Bool) (data : Str) :
    sanitizeLoop skip start check data = sanitizeLoop 0 start check (data.drop skip) := by
  induction skip generalizing data with
  | zero => rfl
  | succ skip ih =>
      cases data with
      | nil => rw [List.drop_nil, sanitizeLoop, sanitizeLoop]
      | cons c data => rw [sanitizeLoop, ih, List.drop_succ_cons]

theorem not_unsafe_of_separator {c : UInt8} (h : isSeparator c = true) : isUnsafe c = false := by
  rcases isSeparator_iff.mp h with rfl | rfl <;> decide

/-- The loop within a component. -/
def inComponent (data : Str) : Str := sanitizeLoop 0 false false data

/-- The loop at the start of a component. -/
def atComponent (start : Bool) (data : Str) : Str := sanitizeLoop 0 start true data

theorem components_cons (c : UInt8) (data : Str) :
    components (c :: data) =
      if isSeparator c then [] :: components data else (components data).modifyHead (c :: ·) :=
  List.splitOnP_cons_eq_if_modifyHead c data

theorem inComponent_cons (c : UInt8) (data : Str) :
    inComponent (c :: data) =
      if isSeparator c then c :: atComponent false data else cleanChar c :: inComponent data := by
  rw [inComponent, sanitizeLoop, cleanChar]
  by_cases hsep : isSeparator c = true
  · simp [hsep, not_unsafe_of_separator hsep, atComponent]
  · by_cases hunsafe : isUnsafe c = true
    · simp [hsep, hunsafe, inComponent]
    · simp [hsep, hunsafe, inComponent]

theorem atComponent_of_special {start : Bool} {c : UInt8} {data : Str} {n : Nat}
    (h : special (c :: data) = some n) :
    atComponent start (c :: data) = replacement :: inComponent (data.drop (n - 1)) := by
  simp only [atComponent, sanitizeLoop, if_true, h, sanitizeLoop_skip (n - 1), inComponent]

theorem atComponent_of_none {start : Bool} {c : UInt8} {data : Str} (h : special (c :: data) = none) :
    atComponent start (c :: data) =
      if start = true ∧ isSeparator c = true then replacement :: inComponent data
      else inComponent (c :: data) := by
  by_cases hsep : isSeparator c = true
  · cases start <;> simp [atComponent, inComponent, sanitizeLoop, h, hsep, not_unsafe_of_separator hsep]
  · simp [atComponent, inComponent, sanitizeLoop, h, hsep]

def notSeparator (c : UInt8) : Bool := !isSeparator c

/-- What the loop leaves of `data`, from within a component on. -/
structure InComponent (data out : Str) : Prop where
  safe : ∀ c ∈ out, isUnsafe c = false
  components : ∃ ws, components out = (data.takeWhile notSeparator).map cleanChar :: ws ∧
    ∀ w ∈ ws, special w = none

/-- What the loop leaves from the start of a component on. -/
structure AtComponent (out : Str) : Prop where
  safe : ∀ c ∈ out, isUnsafe c = false
  components : ∀ w ∈ components out, special w = none

theorem safe_clean (c : UInt8) : isUnsafe (cleanChar c) = false := by
  rw [cleanChar]
  split_ifs with h
  · decide
  · simpa using h

theorem not_separator_clean {c : UInt8} (h : isSeparator c = false) :
    isSeparator (cleanChar c) = false := by
  rw [cleanChar]
  split_ifs
  · decide
  · exact h

theorem special_replacement (w : Str) : special (replacement :: w) = none := by
  have hnone : specialNames (toUpper replacement) = [] := by decide
  rw [special_eq_none_iff, hnone]
  simp

theorem atComponent_replacement {data out : Str} (h : InComponent data out) :
    AtComponent (replacement :: out) := by
  obtain ⟨hsafe, ws, hcomps, hws⟩ := h
  refine ⟨List.forall_mem_cons.mpr ⟨by decide, hsafe⟩, ?_⟩
  rw [components_cons, if_neg (by decide), hcomps, List.modifyHead_cons, List.forall_mem_cons]
  exact ⟨special_replacement _, hws⟩

theorem endsComponent_dropWhile (data : Str) : EndsComponent (data.dropWhile notSeparator) := by
  intro c hc
  have hhead := List.head?_dropWhile_not notSeparator data
  rw [hc] at hhead
  simpa [notSeparator] using hhead

theorem atComponent_inComponent {data out : Str} (h : InComponent data out)
    (hspecial : special data = none) :
    AtComponent out := by
  obtain ⟨hsafe, ws, hcomps, hws⟩ := h
  refine ⟨hsafe, ?_⟩
  rw [hcomps, List.forall_mem_cons]
  refine ⟨special_clean ?_, hws⟩
  rw [← special_append_eq_none_iff (endsComponent_dropWhile data), List.takeWhile_append_dropWhile]
  exact hspecial

theorem atComponent_spec (start : Bool) {data : Str}
    (h : ∀ data', data'.length ≤ data.length → InComponent data' (inComponent data')) :
    AtComponent (atComponent start data) := by
  cases data with
  | nil =>
      constructor
      · simp [atComponent, sanitizeLoop]
      · simp [atComponent, sanitizeLoop, components, special]
  | cons c data =>
      cases hspecial : special (c :: data) with
      | some n =>
          rw [atComponent_of_special hspecial]
          exact atComponent_replacement (h (data.drop (n - 1)) (by simp; omega))
      | none =>
          rw [atComponent_of_none hspecial]
          split_ifs
          · exact atComponent_replacement (h data (by simp))
          · exact atComponent_inComponent (h (c :: data) (Nat.le_refl _)) hspecial

theorem inComponent_spec (data : Str) : InComponent data (inComponent data) := by
  induction hlen : data.length using Nat.strongRecOn generalizing data with
  | ind n ih =>
      cases data with
      | nil =>
          constructor
          · simp [inComponent, sanitizeLoop]
          · exact ⟨[], by simp [inComponent, sanitizeLoop, components], by simp⟩
      | cons c data =>
          rw [inComponent_cons]
          rw [List.length_cons] at hlen
          by_cases hsep : isSeparator c = true
          · have hstart := @atComponent_spec false data fun data' hle => ih _ (by omega) data' rfl
            obtain ⟨hsafe, hcomps⟩ := hstart
            rw [if_pos hsep]
            refine ⟨List.forall_mem_cons.mpr ⟨not_unsafe_of_separator hsep, hsafe⟩, _, ?_, hcomps⟩
            rw [components_cons, if_pos hsep]
            simp [notSeparator, hsep]
          · have hsep' : isSeparator c = false := by simpa using hsep
            obtain ⟨hsafe, ws, hcomps, hws⟩ := ih data.length (by omega) data rfl
            rw [if_neg hsep]
            refine ⟨List.forall_mem_cons.mpr ⟨safe_clean c, hsafe⟩, ws, ?_, hws⟩
            rw [components_cons, if_neg (by simp [not_separator_clean hsep']), hcomps]
            simp [notSeparator, hsep']

theorem sanitizeLoop_length (skip : Nat) (start check : Bool) (data : Str) :
    (sanitizeLoop skip start check data).length ≤ data.length := by
  fun_induction sanitizeLoop skip start check data <;> grind

theorem atComponent_relative {data : Str} {c : UInt8} (h : (atComponent true data).head? = some c) :
    isSeparator c = false := by
  cases data with
  | nil => simp [atComponent, sanitizeLoop] at h
  | cons d data =>
      cases hspecial : special (d :: data) with
      | some n =>
          rw [atComponent_of_special hspecial] at h
          cases h
          decide
      | none =>
          rw [atComponent_of_none hspecial] at h
          by_cases hsep : isSeparator d = true
          · rw [if_pos ⟨rfl, hsep⟩] at h
            cases h
            decide
          · rw [if_neg (by simp [hsep]), inComponent_cons, if_neg hsep] at h
            cases h
            exact not_separator_clean (by simpa using hsep)

theorem cleanName_sanitize_filename (data : Str) : CleanName (sanitize_filename data) := by
  obtain ⟨hsafe, hcomps⟩ := @atComponent_spec true (data.take 255) fun data' _ => inComponent_spec data'
  exact ⟨hsafe, fun c hc => atComponent_relative hc, hcomps⟩

/-! ## Clean names -/

theorem components_eq (data : Str) :
    ∃ ws, components data = data.takeWhile notSeparator :: ws := by
  induction data with
  | nil => exact ⟨[], rfl⟩
  | cons c data ih =>
      obtain ⟨ws, hws⟩ := ih
      rw [components_cons, hws]
      by_cases hsep : isSeparator c = true
      · exact ⟨data.takeWhile notSeparator :: ws, by simp [hsep, notSeparator]⟩
      · exact ⟨ws, by simp [hsep, notSeparator]⟩

theorem special_of_components {data : Str} (h : ∀ w ∈ components data, special w = none) :
    special data = none := by
  obtain ⟨ws, hws⟩ := components_eq data
  rw [hws, List.forall_mem_cons] at h
  rw [← List.takeWhile_append_dropWhile (p := notSeparator) (l := data),
    special_append_eq_none_iff (endsComponent_dropWhile data)]
  exact h.1

theorem atComponent_eq {data : Str} (h : special data = none) :
    atComponent false data = inComponent data := by
  cases data with
  | nil => rfl
  | cons c data =>
      rw [atComponent_of_none h]
      rfl

theorem inComponent_eq_self {data : Str} (hsafe : ∀ c ∈ data, isUnsafe c = false)
    (hcomps : ∀ w ∈ (components data).tail, special w = none) : inComponent data = data := by
  induction data with
  | nil => rfl
  | cons c data ih =>
      rw [List.forall_mem_cons] at hsafe
      rw [components_cons] at hcomps
      rw [inComponent_cons]
      by_cases hsep : isSeparator c = true
      · rw [if_pos hsep, List.tail_cons] at hcomps
        rw [if_pos hsep, atComponent_eq (special_of_components hcomps),
          ih hsafe.2 fun w hw => hcomps w (List.mem_of_mem_tail hw)]
      · rw [if_neg hsep] at hcomps
        have htail : ((components data).modifyHead (c :: ·)).tail = (components data).tail := by
          cases components data <;> rfl
        rw [if_neg hsep, cleanChar, hsafe.1, ih hsafe.2 (htail ▸ hcomps)]
        rfl

theorem sanitize_filename_eq_self {name : Str} (h : CleanName name) (hlen : name.length ≤ 255) :
    sanitize_filename name = name := by
  rw [sanitize_filename, List.take_of_length_le hlen]
  cases name with
  | nil => rfl
  | cons c data =>
      have hnotsep := h.relative c rfl
      have hstart := @atComponent_of_none true c data (special_of_components h.special)
      rw [atComponent, if_neg (by simp [hnotsep])] at hstart
      rw [hstart]
      exact inComponent_eq_self h.safe fun w hw => h.special w (List.mem_of_mem_tail hw)

/-! ## Directories -/

end TranscodingServer
