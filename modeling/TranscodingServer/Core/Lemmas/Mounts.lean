import TranscodingServer.Core.Reports
import TranscodingServer.Core.Lemmas.Invariants

/-!
# The mount table of the RTSP server

GStreamer sees a mount point up to its first NUL byte; the maps of the service see all of it.
-/

namespace TranscodingServer

variable {gst : Gst} {s t : TranscodingService} {now id uri : Str} {parts e : UriParts}

/-! ## Mount points as C strings -/

theorem nul_mem_mountPoint {p : Profile} : 0 ∈ mountPoint id p ↔ 0 ∈ id := by
  have hslash : (0 : UInt8) ∉ str "/" := by decide
  have hname : (0 : UInt8) ∉ p.name := by cases p <;> decide
  simp [mountPoint, hslash, hname]

theorem c_str_mountPoint (h : 0 ∉ id) (p : Profile) : c_str (mountPoint id p) = mountPoint id p :=
  c_str_of_no_nul (nul_mem_mountPoint.not.mpr h)

/-! ## The mount table under calls -/

theorem mem_added_mounts {x : Str × GstRTSPMediaFactory} :
    x ∈ (s.added gst id uri parts).mounts ↔
      (∃ p, x = (c_str (mountPoint id p), createdFactory s uri p)) ∨ x ∈ s.mounts := by
  rw [added_mounts_perm.mem_iff, List.mem_append]
  simp [mountedEntries, Profile.mem_all, eq_comm]

theorem mem_of_mem_removed_mounts {x : Str × GstRTSPMediaFactory}
    (hx : x ∈ (s.removed gst id e).mounts) : x ∈ s.mounts := by
  have h : ∀ (l : List Profile) (t : TranscodingService),
      x ∈ (l.foldl (fun s p => removeFactory gst s (e.mount_points.get p)) t).mounts →
        x ∈ t.mounts := by
    intro l
    induction l with
    | nil => exact fun t hx => hx
    | cons p l ih =>
        intro t hx
        have hmem := ih _ hx
        simp only [removeFactory_eq] at hmem
        split at hmem
        · exact gst.mem_of_mem_remove_factory hmem
        · exact hmem
  simp only [TranscodingService.removed] at hx
  have hmem := h _ _ hx
  exact hmem

/-- A removal finds its four factories. -/
theorem removed_mounts (hc : Consistent s) (he : s.uriPartsMap[id]? = some e) :
    (s.removed gst id e).mounts =
      Profile.all.foldl (fun t p => gst.remove_factory t (c_str (mountPoint id p))) s.mounts := by
  have hid : id ∈ s.uriPartsMap := (OrdMap.mem_iff _ _).mpr ⟨e, he⟩
  simp only [TranscodingService.removed, (hc.parsed id e he).mount]
  exact removeFactories_mounts (mountPoint id) Profile.all
    (TranscodingService.purged gst { s with calls := s.calls ++ [.get_mount_points] } id)
    (mountPoints_nodup id) fun p _ => hc.factory hid p

/-- Where no path has two entries, a removal takes the four entries of its stream and no others. -/
theorem removed_mounts_perm (hc : Consistent s) (honce : (s.mounts.map Prod.fst).Nodup)
    (hnul : 0 ∉ id) (he : s.uriPartsMap[id]? = some e) :
    ((s.removed gst id e).mounts).Perm
      (s.mounts.filter (·.1 ∉ Profile.all.map (mountPoint id))) := by
  rw [removed_mounts hc he]
  simp only [c_str_mountPoint hnul]
  exact gst.remove_factories_perm _ _ _ honce

theorem mounts_no_nul (gst : Gst) (cs : List Call) :
    ∀ x ∈ (stateAfter gst cs).mounts, 0 ∉ x.1 := by
  refine stateAfter_invariant (P := fun s => ∀ x ∈ s.mounts, 0 ∉ x.1) (by simp) ?_ cs
  refine exec_keeps ?_ ?_ ?_
  · intro s t hst h
    rw [hst.mounts]
    exact h
  · intro s now id uri parts h ha hp x hx
    rcases mem_added_mounts.mp hx with ⟨p, rfl⟩ | hx
    · exact c_str_no_nul _
    · exact h x hx
  · exact fun s id e h he x hx => h x (mem_of_mem_removed_mounts hx)

/-! ## The mount table agrees -/

/-- The mount table holds the factories of the registered streams, each at the mount point that
`GetMedias` lists, and nothing else. -/
structure MountsAgree (s : TranscodingService) : Prop where
  served : ∀ id ∈ s.uriPartsMap, ∃ m ∈ (GetMedias s).list, m.id = id ∧
    ∀ p, ∃ f, s.mediaFactories[m.mount_points.get p]? = some f ∧
      (m.mount_points.get p, f) ∈ s.mounts
  only : ∀ path f, (path, f) ∈ s.mounts → ∃ m ∈ (GetMedias s).list, ∃ p,
    path = m.mount_points.get p ∧ s.mediaFactories[path]? = some f
  once : (s.mounts.map Prod.fst).Nodup
  paths : ∀ id ∈ s.uriPartsMap, ∀ id' ∈ s.uriPartsMap, ∀ p p',
    c_str (mountPoint id p) = c_str (mountPoint id' p') → id = id' ∧ p = p'

/-- What the calls keep as long as the ids are free of NUL bytes. -/
structure Mounted (s : TranscodingService) : Prop where
  consistent : Consistent s
  ids : ∀ id ∈ s.uriPartsMap, 0 ∉ id
  mem : ∀ path f, (path, f) ∈ s.mounts ↔ s.mediaFactories[path]? = some f
  once : (s.mounts.map Prod.fst).Nodup

theorem Mounted.empty : Mounted {} where
  consistent := .empty
  ids id h := by simp at h
  mem path f := by simp
  once := by simp

theorem Mounted.same (hst : SameStreams s t) (h : Mounted s) : Mounted t where
  consistent := h.consistent.same hst
  ids := by rw [hst.uriPartsMap]; exact h.ids
  mem := by rw [hst.mounts, hst.mediaFactories]; exact h.mem
  once := by rw [hst.mounts]; exact h.once

theorem Mounted.added (h : Mounted s) (ha : Accepts gst s id uri)
    (hp : ({} : UriParts).parseUri id uri = .ok parts) (hid : 0 ∉ id) :
    Mounted (s.added gst id uri (parts.readyAt now)) where
  consistent := h.consistent.added ha hp
  ids := by
    intro k hk
    rcases mem_added_uriPartsMap.mp hk with rfl | hk
    · exact hid
    · exact h.ids k hk
  mem := by
    intro path f
    rw [mem_added_mounts, h.mem]
    simp only [c_str_mountPoint hid, Prod.mk.injEq]
    by_cases hpath : ∃ p, mountPoint id p = path
    · obtain ⟨p, rfl⟩ := hpath
      have hnone : s.mediaFactories[mountPoint id p]? = none :=
        (OrdMap.not_mem_iff _ _).mp (h.consistent.no_factory ha.freshId p)
      rw [added_factory, hnone]
      simp [mountPoint_inj, eq_comm]
    · have hne : ∀ p, mountPoint id p ≠ path := fun p hp => hpath ⟨p, hp⟩
      rw [added_factory_other hne]
      simp [(hne _).symm]
  once := by
    rw [(added_mounts_perm.map Prod.fst).nodup_iff, List.map_append, List.nodup_append]
    refine ⟨?_, h.once, ?_⟩
    · rw [mountedEntries_paths, List.nodup_reverse]
      simp only [c_str_mountPoint hid]
      exact mountPoints_nodup id
    · intro path hnew path' hold heq
      obtain ⟨⟨_, f⟩, hmem, rfl⟩ := List.mem_map.mp hold
      obtain ⟨p, _, hp⟩ : ∃ p ∈ Profile.all, c_str (mountPoint id p) = path := by
        simpa [mountedEntries] using hnew
      rw [c_str_mountPoint hid] at hp
      have hfactory := (OrdMap.mem_iff _ _).mpr ⟨f, (h.mem _ f).mp hmem⟩
      exact h.consistent.no_factory ha.freshId p (hp.trans heq ▸ hfactory)

theorem Mounted.removed_mounts_perm (h : Mounted s) (he : s.uriPartsMap[id]? = some e) :
    ((s.removed gst id e).mounts).Perm
      (s.mounts.filter (·.1 ∉ Profile.all.map (mountPoint id))) :=
  TranscodingServer.removed_mounts_perm h.consistent h.once
    (h.ids id ((OrdMap.mem_iff _ _).mpr ⟨e, he⟩)) he

theorem Mounted.removed (h : Mounted s) (he : s.uriPartsMap[id]? = some e) :
    Mounted (s.removed gst id e) where
  consistent := h.consistent.removed he
  ids := fun k hk => h.ids k (mem_removed_uriPartsMap.mp hk).2
  mem := by
    intro path f
    have hmount := (h.consistent.parsed id e he).mount
    rw [(h.removed_mounts_perm he).mem_iff, List.mem_filter, h.mem, removed_mediaFactories hmount,
      OrdMap.getElem?_foldl_erase]
    by_cases hpath : ∃ p ∈ Profile.all, mountPoint id p = path
    · simp only [if_pos hpath, reduceCtorEq, iff_false, not_and]
      intro _
      simpa using hpath
    · simp only [if_neg hpath]
      simpa using fun _ p hp he => hpath ⟨p, hp, he⟩
  once := by
    rw [((h.removed_mounts_perm he).map Prod.fst).nodup_iff]
    exact h.once.sublist (List.filter_sublist.map _)

theorem Mounted.agree (h : Mounted s) : MountsAgree s where
  served := by
    intro id hid
    obtain ⟨e, he⟩ := (OrdMap.mem_iff _ _).mp hid
    have hparsed := h.consistent.parsed id e he
    refine ⟨e.mediaInfo e.id, mem_GetMedias.mpr ⟨id, e, he, rfl⟩, hparsed.id_eq, fun p => ?_⟩
    obtain ⟨f, hf⟩ := (OrdMap.mem_iff _ _).mp (h.consistent.factory hid p)
    have hget : (e.mediaInfo e.id).mount_points.get p = mountPoint id p := hparsed.mount p
    exact ⟨f, by rw [hget, hf], by rw [hget, h.mem, hf]⟩
  only := by
    intro path f hf
    have hfactory := (h.mem path f).mp hf
    obtain ⟨id, p, hid, rfl⟩ := (h.consistent.factories path).mp
      ((OrdMap.mem_iff _ _).mpr ⟨f, hfactory⟩)
    obtain ⟨e, he⟩ := (OrdMap.mem_iff _ _).mp hid
    exact ⟨_, mem_GetMedias.mpr ⟨id, e, he, rfl⟩, p, ((h.consistent.parsed id e he).mount p).symm,
      hfactory⟩
  once := h.once
  paths := by
    intro id hid id' hid' p p' heq
    rw [c_str_mountPoint (h.ids id hid), c_str_mountPoint (h.ids id' hid')] at heq
    exact mountPoint_injective heq

theorem MountsAgree.ids {cs : List Call} (h : MountsAgree (stateAfter gst cs)) :
    ∀ id ∈ (stateAfter gst cs).uriPartsMap, 0 ∉ id := by
  intro id hid
  obtain ⟨m, hm, rfl, hserved⟩ := h.served id hid
  obtain ⟨k, e, he, rfl⟩ := mem_GetMedias.mp hm
  obtain ⟨f, _, hmem⟩ := hserved .first
  have hmount := ((consistent gst cs).parsed k e he).mount .first
  have hkid : k = e.id := ((consistent gst cs).parsed k e he).id_eq.symm
  have hno := mounts_no_nul gst cs _ hmem
  rw [show (e.mediaInfo e.id).mount_points.get .first = mountPoint k .first from hmount,
    nul_mem_mountPoint, hkid] at hno
  exact hno

end TranscodingServer
