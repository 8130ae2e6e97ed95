import TranscodingServer.Core.Lemmas.Invariants
import TranscodingServer.Http.Handlers

/-!
# The order of a batch

What a batch leaves behind is said for every id on its own, in terms of the state before the batch and
of what is in it, so that its order does not matter.
-/

namespace TranscodingServer

variable {gst : Gst} {s t : TranscodingService} {now id uri : Str} {parts e : UriParts}

/-! ## The loop over well-formed items -/

section Loop

variable {ι α σ : Type} {apply : Nat → ι → α → σ → α × σ}

theorem itemsLoop_keeps {P : σ → Prop} (h : ∀ n i acc s, P s → P (apply n i acc s).2) (n : Nat)
    (items : List ι) (acc : α) (s : σ) (hs : P s) : P (itemsLoop apply n items acc s).2 := by
  induction items generalizing n acc s with
  | nil => exact hs
  | cons i items ih => exact ih _ _ _ (h n i acc s hs)

end Loop

/-! ## `/add` -/

def addLoop (gst : Gst) (clock : Nat → Str) : Nat → List (Str × Str) → AddAcc → TranscodingService →
    AddAcc × TranscodingService :=
  itemsLoop fun n => addItem gst (clock n)

/-- An addition decides nothing about another id and another url. -/
theorem accepts_added {id' uri' : Str} (ha : Accepts gst s id uri)
    (hp : ({} : UriParts).parseUri id uri = .ok parts) (hid : id ≠ id') (huri : uri ≠ uri') :
    Accepts gst (s.added gst id uri (parts.readyAt now)) id' uri' ↔ Accepts gst s id' uri' := by
  constructor
  · intro h
    refine ⟨h.valid, h.slashes, fun k e he => ?_, fun hmem => ?_⟩
    · refine h.freshUri k e ?_
      rw [added_uriPartsMap, if_neg]
      · exact he
      · rintro rfl
        exact ha.freshId ((OrdMap.mem_iff _ _).mpr ⟨e, he⟩)
    · exact h.freshId (mem_added_uriPartsMap.mpr (.inr hmem))
  · intro h
    refine ⟨h.valid, h.slashes, fun k e he => ?_, fun hmem => ?_⟩
    · rw [added_uriPartsMap] at he
      split at he
      · cases he
        rw [readyAt_full_path hp]
        exact huri
      · exact h.freshUri k e he
    · rcases mem_added_uriPartsMap.mp hmem with heq | hold
      · exact hid heq
      · exact h.freshId hold

/-- Whether the addition of an item would succeed. -/
def wouldAdd (gst : Gst) (s : TranscodingService) (item : Str × Str) : Bool :=
  (AddRtsp gst (Env.calm (str "")) item.1 item.2 s).1.isSome

theorem wouldAdd_iff {item : Str × Str} : wouldAdd gst s item = true ↔ Accepts gst s item.1 item.2 :=
  AddRtsp_isSome_iff

/-- Which items of a batch are accepted, and what they leave behind. -/
structure AddOutcome (gst : Gst) (s : TranscodingService) (items : List (Str × Str)) (acc : AddAcc)
    (r : AddAcc × TranscodingService) : Prop where
  accepted : r.1.response_list.map (fun m => (m.id, m.full_path)) =
    acc.response_list.map (fun m => (m.id, m.full_path)) ++ items.filter (wouldAdd gst s)
  new : ∀ i ∈ items, Accepts gst s i.1 i.2 → ∃ parts now,
    ({} : UriParts).parseUri i.1 i.2 = .ok parts ∧
      r.2.uriPartsMap[i.1]? = some (parts.readyAt now)
  old : ∀ k : Str, (∀ i ∈ items, Accepts gst s i.1 i.2 → i.1 ≠ k) →
    r.2.uriPartsMap[k]? = s.uriPartsMap[k]?

/-- The outcome of a batch that begins with an accepted item. -/
theorem AddOutcome.cons_accepted {i : Str × Str} {items : List (Str × Str)} {acc : AddAcc}
    {r : AddAcc × TranscodingService} (ha : Accepts gst s i.1 i.2)
    (hp : ({} : UriParts).parseUri i.1 i.2 = .ok parts)
    (hids : i.1 ∉ items.map Prod.fst) (hurls : i.2 ∉ items.map Prod.snd)
    (h : AddOutcome gst (s.added gst i.1 i.2 (parts.readyAt now)) items
      (acc.record i.1 i.2 (some (parts.readyAt now))) r) : AddOutcome gst s (i :: items) acc r := by
  have hrest : ∀ j ∈ items,
      Accepts gst (s.added gst i.1 i.2 (parts.readyAt now)) j.1 j.2 ↔ Accepts gst s j.1 j.2 := by
    intro j hj
    refine accepts_added ha hp (fun heq => hids ?_) (fun heq => hurls ?_)
    · exact heq ▸ List.mem_map_of_mem hj
    · exact heq ▸ List.mem_map_of_mem hj
  refine ⟨?_, ?_, fun k hk => ?_⟩
  · have hsame : ∀ j ∈ items,
        wouldAdd gst (s.added gst i.1 i.2 (parts.readyAt now)) j = wouldAdd gst s j := by
      intro j hj
      rw [Bool.eq_iff_iff, wouldAdd_iff, wouldAdd_iff]
      exact hrest j hj
    rw [h.accepted, List.filter_cons_of_pos (wouldAdd_iff.mpr ha), List.filter_congr hsame]
    have hfull : (parts.readyAt now).full_path = i.2 := readyAt_full_path hp
    simp only [AddAcc.record, List.map_append, List.map_cons, List.map_nil, UriParts.uriInfo,
      hfull, List.append_assoc, List.cons_append, List.nil_append]
  · intro j hj hacc
    rcases List.mem_cons.mp hj with rfl | hj
    · refine ⟨parts, now, hp, ?_⟩
      rw [h.old j.1 fun k hk _ heq => hids (heq ▸ List.mem_map_of_mem hk), added_uriPartsMap,
        if_pos rfl]
    · exact h.new j hj ((hrest j hj).mpr hacc)
  · rw [h.old k fun j hj hacc => hk j (List.mem_cons_of_mem _ hj) ((hrest j hj).mp hacc),
      added_uriPartsMap, if_neg (hk i (by simp) ha)]

theorem AddOutcome.cons_refused {i : Str × Str} {items : List (Str × Str)} {acc : AddAcc}
    {r : AddAcc × TranscodingService} (ha : ¬Accepts gst s i.1 i.2)
    (h : AddOutcome gst s items (acc.record i.1 i.2 none) r) : AddOutcome gst s (i :: items) acc r := by
  refine ⟨?_, fun j hj hacc => ?_, fun k hk => ?_⟩
  · rw [h.accepted, List.filter_cons_of_neg (wouldAdd_iff.not.mpr ha)]
    rfl
  · rcases List.mem_cons.mp hj with rfl | hj
    · exact absurd hacc ha
    · exact h.new j hj hacc
  · exact h.old k fun j hj => hk j (List.mem_cons_of_mem _ hj)

theorem addOutcome (clock : Nat → Str) (n : Nat) {items : List (Str × Str)}
    (hids : (items.map Prod.fst).Nodup) (hurls : (items.map Prod.snd).Nodup) (acc : AddAcc)
    (s : TranscodingService) : AddOutcome gst s items acc (addLoop gst clock n items acc s) := by
  induction items generalizing n acc s with
  | nil =>
      refine ⟨?_, by simp, fun k _ => rfl⟩
      simp [addLoop, itemsLoop]
  | cons i items ih =>
      rw [List.map_cons, List.nodup_cons] at hids hurls
      have hrest := ih (n + 1) hids.2 hurls.2
      rw [addLoop, itemsLoop, addItem]
      rcases AddRtsp_cases gst s (clock n) i.1 i.2 with ⟨parts, ha, hp, hadd⟩ | ⟨ha, hadd⟩
      · rw [hadd]
        exact .cons_accepted ha hp hids.1 hurls.1 (hrest _ _)
      · rw [hadd]
        exact .cons_refused ha (hrest _ _)

def UriParts.timeless (e : UriParts) : UriParts := { e with ready_time := [] }

/-- Equal but for the times of the entries and the factories under the keys of `mediaFactories`. -/
structure SameButTimes (t t' : TranscodingService) : Prop where
  uriPartsMap : ∀ k : Str, t.uriPartsMap[k]?.map UriParts.timeless =
    t'.uriPartsMap[k]?.map UriParts.timeless
  mediaFactories : ∀ k : Str, k ∈ t.mediaFactories ↔ k ∈ t'.mediaFactories

/-- What an accepted item leaves behind is its own, in any order. -/
theorem AddOutcome.entries {items items' : List (Str × Str)} {acc : AddAcc}
    {r r' : AddAcc × TranscodingService} (h : AddOutcome gst s items acc r)
    (h' : AddOutcome gst s items' acc r') (hperm : items.Perm items') (k : Str) :
    r.2.uriPartsMap[k]?.map UriParts.timeless = r'.2.uriPartsMap[k]?.map UriParts.timeless := by
  by_cases hk : ∃ i ∈ items, Accepts gst s i.1 i.2 ∧ i.1 = k
  · obtain ⟨i, hi, ha, rfl⟩ := hk
    obtain ⟨parts, now, hp, he⟩ := h.new i hi ha
    obtain ⟨parts', now', hp', he'⟩ := h'.new i (hperm.mem_iff.mp hi) ha
    cases hp.symm.trans hp'
    rw [he, he']
    rfl
  · have hno : ∀ i ∈ items, Accepts gst s i.1 i.2 → i.1 ≠ k :=
      fun i hi ha heq => hk ⟨i, hi, ha, heq⟩
    rw [h.old k hno, h'.old k fun i hi => hno i (hperm.mem_iff.mpr hi)]

theorem Consistent.addLoop (h : Consistent s) (clock : Nat → Str) (n : Nat)
    (items : List (Str × Str)) (acc : AddAcc) : Consistent (addLoop gst clock n items acc s).2 := by
  have hitem : ∀ (n : Nat) (i : Str × Str) (acc : AddAcc) (s : TranscodingService), Consistent s →
      Consistent (addItem gst (clock n) i acc s).2 :=
    fun n i _ s hs => Consistent.exec s (.AddRtsp (clock n) i.1 i.2) hs
  exact itemsLoop_keeps hitem n items acc s h

theorem mem_mediaFactories_congr (h : Consistent s) (h' : Consistent t)
    (hmap : ∀ k : Str, k ∈ s.uriPartsMap ↔ k ∈ t.uriPartsMap) (k : Str) :
    k ∈ s.mediaFactories ↔ k ∈ t.mediaFactories := by
  rw [h.factories, h'.factories]
  simp only [hmap]

theorem SameButTimes.of_entries (h : Consistent s) (h' : Consistent t)
    (hentries : ∀ k : Str, s.uriPartsMap[k]?.map UriParts.timeless =
      t.uriPartsMap[k]?.map UriParts.timeless) : SameButTimes s t := by
  refine ⟨hentries, mem_mediaFactories_congr h h' fun k => ?_⟩
  rw [Std.ExtTreeMap.mem_iff_isSome_getElem?, Std.ExtTreeMap.mem_iff_isSome_getElem?]
  have hsome := congrArg Option.isSome (hentries k)
  rw [Option.isSome_map, Option.isSome_map] at hsome
  rw [hsome]

/-! ## `/remove` -/

/-- The failures behind a batch, and the state. -/
def removeLoop (gst : Gst) (clock : Nat → Str) : Nat → List Str → List Str → TranscodingService →
    List Str × TranscodingService :=
  itemsLoop fun n => removeItem gst (clock n)

theorem Consistent.removeLoop (h : Consistent s) (clock : Nat → Str) (n : Nat)
    (ids failed : List Str) : Consistent (removeLoop gst clock n ids failed s).2 := by
  have hitem : ∀ (n : Nat) (id : Str) (failed : List Str) (s : TranscodingService), Consistent s →
      Consistent (removeItem gst (clock n) id failed s).2 :=
    fun n id _ s hs => Consistent.exec s (.RemoveRtsp (clock n) id) hs
  exact itemsLoop_keeps hitem n ids failed s h

/-- Every id fails as often as it is in the batch, but for its one success if it is registered. -/
structure RemoveOutcome (s : TranscodingService) (ids failed : List Str)
    (r : List Str × TranscodingService) : Prop where
  failures : ∀ k : Str, r.1.count k + (if k ∈ ids ∧ k ∈ s.uriPartsMap then 1 else 0) =
    failed.count k + ids.count k
  entries : ∀ k : Str, r.2.uriPartsMap[k]? = if k ∈ ids then none else s.uriPartsMap[k]?
  factories : ∀ (k : Str) (f : GstRTSPMediaFactory), r.2.mediaFactories[k]? = some f →
    s.mediaFactories[k]? = some f
  clients : r.2.clientInfos = s.clientInfos.filter fun info =>
    ∀ id ∈ ids, id ∈ s.uriPartsMap → matchesId id info = false

/-- The outcome of a batch that begins with the id of a registered stream. -/
theorem RemoveOutcome.cons_known {ids failed : List Str} {r : List Str × TranscodingService}
    (hc : Consistent s) (he : s.uriPartsMap[id]? = some e)
    (h : RemoveOutcome (s.removed gst id e) ids failed r) : RemoveOutcome s (id :: ids) failed r := by
  have hid : id ∈ s.uriPartsMap := (OrdMap.mem_iff _ _).mpr ⟨e, he⟩
  refine ⟨fun k => ?_, fun k => ?_, fun k f hf => ?_, ?_⟩
  · have hfail := h.failures k
    simp only [mem_removed_uriPartsMap] at hfail
    by_cases hk : id = k
    · subst hk
      simp [hid] at hfail ⊢
      omega
    · simpa [hk, Ne.symm hk] using hfail
  · rw [h.entries, removed_uriPartsMap]
    by_cases hk : id = k
    · simp [hk]
    · simp [hk, Ne.symm hk]
  · have hold := h.factories k f hf
    rw [removed_mediaFactories (hc.parsed id e he).mount, OrdMap.getElem?_foldl_erase] at hold
    split at hold
    · cases hold
    · exact hold
  · rw [h.clients, removed_clientInfos, List.filter_filter]
    refine List.filter_congr fun info _ => ?_
    rw [Bool.eq_iff_iff, Bool.and_eq_true, decide_eq_true_eq, decide_eq_true_eq,
      Bool.not_eq_true', List.forall_mem_cons]
    simp only [mem_removed_uriPartsMap, hid, true_implies]
    constructor
    · rintro ⟨hrest, hno⟩
      refine ⟨hno, fun k hk hks => ?_⟩
      by_cases hne : id = k
      · exact hne ▸ hno
      · exact hrest k hk ⟨hne, hks⟩
    · rintro ⟨hno, hrest⟩
      exact ⟨fun k hk hks => hrest k hk hks.2, hno⟩

theorem RemoveOutcome.cons_unknown {ids failed : List Str} {calls : List GstCall}
    {r : List Str × TranscodingService} (hid : id ∉ s.uriPartsMap)
    (h : RemoveOutcome { s with calls := calls } ids (failed ++ [id]) r) :
    RemoveOutcome s (id :: ids) failed r := by
  refine ⟨fun k => ?_, fun k => ?_, h.factories, ?_⟩
  · have hfail := h.failures k
    by_cases hk : id = k
    · subst hk
      simp [hid] at hfail ⊢
      omega
    · simpa [hk, Ne.symm hk] using hfail
  · rw [h.entries]
    by_cases hk : id = k
    · simp [← hk, hid]
    · simp [Ne.symm hk]
  · rw [h.clients]
    simp only [List.forall_mem_cons, hid, false_implies, true_and]

theorem removeOutcome (clock : Nat → Str) (n : Nat) (ids failed : List Str) (s : TranscodingService)
    (hc : Consistent s) : RemoveOutcome s ids failed (removeLoop gst clock n ids failed s) := by
  induction ids generalizing n failed s with
  | nil =>
      refine ⟨by simp [removeLoop, itemsLoop], by simp [removeLoop, itemsLoop],
        fun _ _ h => h, ?_⟩
      simp [removeLoop, itemsLoop]
  | cons id ids ih =>
      rw [removeLoop, itemsLoop, removeItem]
      rcases RemoveRtsp_cases gst s (clock n) id with ⟨e, he, _, hremove⟩ | ⟨hid, hremove⟩
      · rw [hremove]
        exact .cons_known hc he (ih _ _ _ (hc.removed he))
      · have hsame : SameStreams s { s with calls := s.calls ++ [.get_mount_points] } :=
          ⟨rfl, rfl, rfl, rfl⟩
        rw [hremove]
        exact .cons_unknown hid (ih _ _ _ (hc.same hsame))

/-- What a batch of removals leaves behind, and which of its ids fail how often, its order does not
matter for. -/
theorem RemoveOutcome.perm {ids ids' : List Str} {r r' : List Str × TranscodingService}
    (h : RemoveOutcome s ids [] r) (h' : RemoveOutcome s ids' [] r') (hperm : ids.Perm ids')
    (hc : Consistent r.2) (hc' : Consistent r'.2) :
    r.1.Perm r'.1 ∧ r.2.uriPartsMap = r'.2.uriPartsMap ∧ r.2.mediaFactories = r'.2.mediaFactories ∧
      r.2.clientInfos = r'.2.clientInfos := by
  have hmap : r.2.uriPartsMap = r'.2.uriPartsMap := by
    ext k : 1
    rw [h.entries, h'.entries]
    simp only [hperm.mem_iff]
  refine ⟨?_, hmap, ?_, ?_⟩
  · rw [List.perm_iff_count]
    intro k
    have hk := h.failures k
    have hk' := h'.failures k
    simp only [hperm.mem_iff, hperm.count_eq] at hk
    omega
  · have hmem := mem_mediaFactories_congr hc hc' fun k => by rw [hmap]
    ext k : 1
    cases hf : r.2.mediaFactories[k]? with
    | none =>
        have hno : k ∉ r'.2.mediaFactories := by rw [← hmem, OrdMap.not_mem_iff, hf]
        rw [(OrdMap.not_mem_iff _ _).mp hno]
    | some f =>
        have hin : k ∈ r'.2.mediaFactories := (hmem k).mp ((OrdMap.mem_iff _ _).mpr ⟨f, hf⟩)
        obtain ⟨g, hg⟩ := (OrdMap.mem_iff _ _).mp hin
        rw [hg, ← h'.factories k g hg, h.factories k f hf]
  · rw [h.clients, h'.clients]
    refine List.filter_congr fun info _ => ?_
    simp only [hperm.mem_iff]

end TranscodingServer
