import TranscodingServer.Core.Lemmas.Spec

/-!
# The tables behind `AddRtsp` and `RemoveRtsp`
-/

namespace TranscodingServer

variable {gst : Gst} {s : TranscodingService} {now id uri : Str} {parts e : UriParts}

theorem Profile.mem_all (p : Profile) : p ∈ Profile.all := by
  cases p <;> decide

theorem mountPoints_nodup (id : Str) : (Profile.all.map (mountPoint id)).Nodup := by
  refine List.Nodup.map ?_ (by decide)
  intro p q h
  exact (mountPoint_injective h).2

/-! ## `AddRtsp` -/

theorem added_uriPartsMap (k : Str) :
    (s.added gst id uri parts).uriPartsMap[k]? = if id = k then some parts else s.uriPartsMap[k]? :=
  OrdMap.getElem?_insert _ _ _ _

theorem added_factory (p : Profile) :
    (s.added gst id uri parts).mediaFactories[mountPoint id p]? =
      some (createdFactory s uri p) :=
  OrdMap.getElem?_foldl_insert _ _ _ _ (mountPoints_nodup id) p.mem_all

theorem added_factory_other {k : Str} (h : ∀ p, mountPoint id p ≠ k) :
    (s.added gst id uri parts).mediaFactories[k]? = s.mediaFactories[k]? :=
  OrdMap.getElem?_foldl_insert_of_ne _ _ _ _ fun p _ => h p

theorem mem_added_mediaFactories {k : Str} :
    k ∈ (s.added gst id uri parts).mediaFactories ↔
      (∃ p, mountPoint id p = k) ∨ k ∈ s.mediaFactories := by
  simp [TranscodingService.added, OrdMap.mem_foldl_insert, Profile.mem_all]

theorem mem_added_uriPartsMap {k : Str} :
    k ∈ (s.added gst id uri parts).uriPartsMap ↔ id = k ∨ k ∈ s.uriPartsMap := by
  simp [TranscodingService.added]

theorem mem_uriPartsMap_AddRtsp {k : Str} :
    k ∈ (AddRtsp gst (Env.calm now) id uri s).2.uriPartsMap ↔
      (Accepts gst s id uri ∧ id = k) ∨ k ∈ s.uriPartsMap := by
  rcases AddRtsp_cases gst s now id uri with ⟨parts, h, _, hadd⟩ | ⟨h, hadd⟩
  · rw [hadd, mem_added_uriPartsMap]
    simp [h]
  · rw [hadd]
    simp [h]

/-- The entries of the mount table that `AddRtsp` adds. -/
def mountedEntries (s : TranscodingService) (id uri : Str) :
    List (Str × GstRTSPMediaFactory) :=
  Profile.all.reverse.map fun p => (c_str (mountPoint id p), createdFactory s uri p)

theorem mountedEntries_paths :
    (mountedEntries s id uri).map Prod.fst =
      (Profile.all.map fun p => c_str (mountPoint id p)).reverse := by
  simp [mountedEntries]

theorem added_mounts_perm :
    ((s.added gst id uri parts).mounts).Perm (mountedEntries s id uri ++ s.mounts) := by
  have h : ∀ (l : List Profile) (t : GstRTSPMountPoints),
      (l.foldl (fun t p => gst.add_factory t (c_str (mountPoint id p)) (createdFactory s uri p))
        t).Perm
        (l.reverse.map (fun p => (c_str (mountPoint id p), createdFactory s uri p)) ++ t) := by
    intro l
    induction l with
    | nil => intro t; exact .refl _
    | cons p l ih =>
        intro t
        rw [List.foldl_cons, List.reverse_cons, List.map_append, List.append_assoc]
        exact (ih _).trans (.append_left _ (gst.add_factory_perm _ _ _))
  exact h _ _

/-! ## `RemoveRtsp` -/

theorem removeFactory_eq (mount : Str) :
    removeFactory gst s mount =
      { s with
        mounts := if mount ∈ s.mediaFactories then gst.remove_factory s.mounts (c_str mount)
          else s.mounts
        mediaFactories := s.mediaFactories.erase mount } := by
  unfold removeFactory
  by_cases h : mount ∈ s.mediaFactories
  · simp [h]
  · have herase : s.mediaFactories.erase mount = s.mediaFactories := by
      ext k : 1
      rw [OrdMap.getElem?_erase]
      split
      · rename_i hk
        rw [← hk, (OrdMap.not_mem_iff _ _).mp h]
      · rfl
    simp [h, herase]

theorem removeFactories_eq (mount : Profile → Str) (l : List Profile) (s : TranscodingService) :
    l.foldl (fun s p => removeFactory gst s (mount p)) s =
      { s with
        mounts := (l.foldl (fun s p => removeFactory gst s (mount p)) s).mounts
        mediaFactories := l.foldl (fun m p => m.erase (mount p)) s.mediaFactories } := by
  induction l generalizing s with
  | nil => rfl
  | cons p l ih =>
      rw [List.foldl_cons, ih, removeFactory_eq]
      rfl

/-- With its four factories in `mediaFactories` the stream is taken off the mount table at its four
mount points. -/
theorem removeFactories_mounts (mount : Profile → Str) (l : List Profile)
    (s : TranscodingService) (hl : (l.map mount).Nodup)
    (hm : ∀ p ∈ l, mount p ∈ s.mediaFactories) :
    (l.foldl (fun s p => removeFactory gst s (mount p)) s).mounts =
      l.foldl (fun t p => gst.remove_factory t (c_str (mount p))) s.mounts := by
  induction l generalizing s with
  | nil => rfl
  | cons p l ih =>
      rw [List.map_cons, List.nodup_cons] at hl
      have hp : mount p ∈ s.mediaFactories := hm p (by simp)
      rw [List.foldl_cons, List.foldl_cons, removeFactory_eq, ih _ hl.2]
      · simp [hp]
      · intro q hq
        rw [Std.ExtTreeMap.mem_erase, ne_eq, Std.LawfulEqCmp.compare_eq_iff_eq]
        exact ⟨fun he => hl.1 (List.mem_map.mpr ⟨q, hq, he.symm⟩), hm q (by simp [hq])⟩

theorem removed_clientInfos :
    (s.removed gst id e).clientInfos = s.clientInfos.filter (!matchesId id ·) := by
  simp only [TranscodingService.removed]
  rw [removeFactories_eq]
  rfl

theorem removed_uriPartsMap_erase :
    (s.removed gst id e).uriPartsMap = s.uriPartsMap.erase id := by
  simp only [TranscodingService.removed]
  rw [removeFactories_eq]
  rfl

theorem removed_uriPartsMap (k : Str) :
    (s.removed gst id e).uriPartsMap[k]? = if id = k then none else s.uriPartsMap[k]? := by
  rw [removed_uriPartsMap_erase, OrdMap.getElem?_erase]

theorem mem_removed_uriPartsMap {k : Str} :
    k ∈ (s.removed gst id e).uriPartsMap ↔ id ≠ k ∧ k ∈ s.uriPartsMap := by
  rw [OrdMap.mem_iff, OrdMap.mem_iff, removed_uriPartsMap]
  by_cases h : id = k <;> simp [h]

theorem mem_uriPartsMap_RemoveRtsp {k : Str} :
    k ∈ (RemoveRtsp gst (Env.calm now) id s).2.uriPartsMap ↔ id ≠ k ∧ k ∈ s.uriPartsMap := by
  rcases RemoveRtsp_cases gst s now id with ⟨e, _, _, hremove⟩ | ⟨h, hremove⟩
  · rw [hremove, mem_removed_uriPartsMap]
  · rw [hremove]
    constructor
    · exact fun hk => ⟨fun heq => h (heq ▸ hk), hk⟩
    · exact fun hk => hk.2

theorem removed_calls :
    (s.removed gst id e).calls = s.calls ++ [.get_mount_points] ++
      ((s.clientInfos.filter (matchesId id)).flatMap fun info =>
        closeConnection gst info ++ info.release) ++ [.unref_mount_points] := by
  simp only [TranscodingService.removed]
  rw [removeFactories_eq]
  rfl

theorem removed_mediaFactories (hm : ∀ p, e.mount_points.get p = mountPoint id p) :
    (s.removed gst id e).mediaFactories =
      Profile.all.foldl (fun m p => m.erase (mountPoint id p)) s.mediaFactories := by
  simp only [TranscodingService.removed, hm]
  rw [removeFactories_eq]
  rfl

theorem removed_factory_other (hm : ∀ p, e.mount_points.get p = mountPoint id p) {k : Str}
    (hk : ∀ p, mountPoint id p ≠ k) :
    (s.removed gst id e).mediaFactories[k]? = s.mediaFactories[k]? := by
  rw [removed_mediaFactories hm, OrdMap.getElem?_foldl_erase, if_neg]
  rintro ⟨p, _, hp⟩
  exact hk p hp

theorem mem_removed_mediaFactories (hm : ∀ p, e.mount_points.get p = mountPoint id p) {k : Str} :
    k ∈ (s.removed gst id e).mediaFactories ↔
      (∀ p, mountPoint id p ≠ k) ∧ k ∈ s.mediaFactories := by
  rw [OrdMap.mem_iff, OrdMap.mem_iff, removed_mediaFactories hm, OrdMap.getElem?_foldl_erase]
  split
  · rename_i h
    obtain ⟨p, _, hp⟩ := h
    simp only [reduceCtorEq, exists_false, false_iff, not_and]
    exact fun hno => absurd hp (hno p)
  · rename_i h
    have hno : ∀ p, mountPoint id p ≠ k := fun p hp => h ⟨p, p.mem_all, hp⟩
    simp [hno]

end TranscodingServer
