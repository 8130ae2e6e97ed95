import TranscodingServer.Core.Lemmas.History
import TranscodingServer.Core.Lemmas.Mounts

/-!
# `AddRtsp` and `RemoveRtsp` undo each other

The paths of the mount table are always those of the registered streams.  Where their ids are free of
NUL bytes no two streams share a path, so that a removal finds the four entries of its addition.
-/

namespace TranscodingServer

variable {gst : Gst} {s t : TranscodingService} {now id uri : Str} {parts e : UriParts}

/-! ## The paths of the mount table -/

def mountPaths (ids : List Str) : List Str :=
  ids.flatMap fun id => Profile.all.map fun p => c_str (mountPoint id p)

theorem mountPaths_cons (id : Str) (ids : List Str) :
    mountPaths (id :: ids) =
      (Profile.all.map fun p => c_str (mountPoint id p)) ++ mountPaths ids := rfl

theorem mountPaths_perm {ids ids' : List Str} (h : ids.Perm ids') :
    (mountPaths ids).Perm (mountPaths ids') := h.flatMap_right _

theorem mountPaths_nodup {ids : List Str} (hnodup : ids.Nodup) (hnul : ∀ id ∈ ids, 0 ∉ id) :
    (mountPaths ids).Nodup := by
  have hpaths : ∀ id ∈ ids, (Profile.all.map fun p => c_str (mountPoint id p)) =
      Profile.all.map (mountPoint id) :=
    fun id hid => List.map_congr_left fun p _ => c_str_mountPoint (hnul id hid) p
  rw [mountPaths, List.flatMap_congr hpaths, List.nodup_flatMap]
  refine ⟨fun id _ => mountPoints_nodup id, hnodup.imp fun hne => ?_⟩
  intro path hpath hpath'
  obtain ⟨p, _, rfl⟩ := List.mem_map.mp hpath
  obtain ⟨q, _, hq⟩ := List.mem_map.mp hpath'
  exact hne (mountPoint_injective hq).1.symm

/-- The paths of the registered streams, each as often as streams share it. -/
def PathsAgree (s : TranscodingService) : Prop :=
  (s.mounts.map Prod.fst).Perm (mountPaths s.uriPartsMap.keys)

theorem PathsAgree.added (h : PathsAgree s) (hid : id ∉ s.uriPartsMap) :
    PathsAgree (s.added gst id uri parts) := by
  have hkeys : (s.added gst id uri parts).uriPartsMap.keys.Perm (id :: s.uriPartsMap.keys) :=
    OrdMap.keys_insert_perm _ _ hid
  have hmounts := (@added_mounts_perm gst s id uri parts).map Prod.fst
  rw [List.map_append, mountedEntries_paths] at hmounts
  refine hmounts.trans (((List.reverse_perm _).append h).trans ?_)
  rw [← mountPaths_cons]
  exact (mountPaths_perm hkeys).symm

theorem PathsAgree.removed (h : PathsAgree s) (hc : Consistent s) (he : s.uriPartsMap[id]? = some e) :
    PathsAgree (s.removed gst id e) := by
  have hid : id ∈ s.uriPartsMap := (OrdMap.mem_iff _ _).mpr ⟨e, he⟩
  rw [PathsAgree, removed_uriPartsMap_erase, removed_mounts hc he]
  refine gst.remove_factories_paths Profile.all (fun p => c_str (mountPoint id p)) _ ?_
  exact h.trans (mountPaths_perm (OrdMap.keys_perm_erase _ hid))

theorem pathsAgree (gst : Gst) (cs : List Call) : PathsAgree (stateAfter gst cs) := by
  refine (stateAfter_invariant (P := fun s => Consistent s ∧ PathsAgree s) ⟨.empty, .nil⟩ ?_ cs).2
  refine exec_keeps ?_ ?_ ?_
  · intro s t hst h
    refine ⟨h.1.same hst, ?_⟩
    rw [PathsAgree, hst.mounts, hst.uriPartsMap]
    exact h.2
  · exact fun s now id uri parts h ha hp => ⟨h.1.added ha hp, h.2.added ha.freshId⟩
  · exact fun s id e h he => ⟨h.1.removed he, h.2.removed h.1 he⟩

/-- The streams have ids without NUL bytes, and mount points of their own. -/
structure Separate (s : TranscodingService) : Prop where
  consistent : Consistent s
  ids : ∀ id ∈ s.uriPartsMap, 0 ∉ id
  paths : PathsAgree s

theorem Separate.mem_paths (h : Separate s) {path : Str} :
    path ∈ s.mounts.map Prod.fst ↔ ∃ id ∈ s.uriPartsMap, ∃ p, mountPoint id p = path := by
  rw [h.paths.mem_iff, mountPaths, List.mem_flatMap]
  constructor
  · rintro ⟨id, hid, hpath⟩
    obtain ⟨p, _, hp⟩ := List.mem_map.mp hpath
    rw [Std.ExtTreeMap.mem_keys] at hid
    rw [c_str_mountPoint (h.ids id hid)] at hp
    exact ⟨id, hid, p, hp⟩
  · rintro ⟨id, hid, p, rfl⟩
    refine ⟨id, Std.ExtTreeMap.mem_keys.mpr hid, List.mem_map.mpr ⟨p, p.mem_all, ?_⟩⟩
    rw [c_str_mountPoint (h.ids id hid)]

theorem Separate.once (h : Separate s) : (s.mounts.map Prod.fst).Nodup := by
  rw [h.paths.nodup_iff]
  exact mountPaths_nodup s.uriPartsMap.nodup_keys fun id hid =>
    h.ids id (Std.ExtTreeMap.mem_keys.mp hid)

theorem separate (gst : Gst) (cs : List Call) (h : ∀ id ∈ (stateAfter gst cs).uriPartsMap, 0 ∉ id) :
    Separate (stateAfter gst cs) := ⟨consistent gst cs, h, pathsAgree gst cs⟩

/-- No path of a stream that is not registered. -/
theorem Separate.no_path (h : Separate s) (hid : id ∉ s.uriPartsMap) :
    s.mounts.filter (·.1 ∉ Profile.all.map (mountPoint id)) = s.mounts := by
  rw [List.filter_eq_self]
  intro x hx
  have hno : x.1 ∉ Profile.all.map (mountPoint id) := by
    intro hmem
    obtain ⟨p, _, hp⟩ := List.mem_map.mp hmem
    obtain ⟨k, hk, q, hq⟩ := h.mem_paths.mp (List.mem_map_of_mem hx)
    exact hid ((mountPoint_injective (hp.trans hq.symm)).1 ▸ hk)
  exact decide_eq_true hno

theorem Separate.added (h : Separate s) (ha : Accepts gst s id uri)
    (hp : ({} : UriParts).parseUri id uri = .ok parts) (hnul : 0 ∉ id) :
    Separate (s.added gst id uri (parts.readyAt now)) where
  consistent := h.consistent.added ha hp
  ids := by
    intro k hk
    rcases mem_added_uriPartsMap.mp hk with rfl | hk
    · exact hnul
    · exact h.ids k hk
  paths := h.paths.added ha.freshId

theorem Separate.removed (h : Separate s) (he : s.uriPartsMap[id]? = some e) :
    Separate (s.removed gst id e) where
  consistent := h.consistent.removed he
  ids := fun k hk => h.ids k (mem_removed_uriPartsMap.mp hk).2
  paths := h.paths.removed h.consistent he

theorem mountedEntries_filter (hnul : 0 ∉ id) :
    (mountedEntries s id uri).filter (·.1 ∉ Profile.all.map (mountPoint id)) = [] := by
  rw [List.filter_eq_nil_iff]
  intro x hx
  obtain ⟨p, _, rfl⟩ := List.mem_map.mp hx
  simp only [c_str_mountPoint hnul, decide_eq_true_eq, not_not]
  exact List.mem_map_of_mem p.mem_all

/-- Outside of the paths of its stream an addition leaves the mount table as it is. -/
theorem added_mounts_other (hnul : 0 ∉ id) :
    ((s.added gst id uri parts).mounts.filter (·.1 ∉ Profile.all.map (mountPoint id))).Perm
      (s.mounts.filter (·.1 ∉ Profile.all.map (mountPoint id))) := by
  refine ((@added_mounts_perm gst s id uri parts).filter _).trans (.of_eq ?_)
  rw [List.filter_append, mountedEntries_filter hnul, List.nil_append]

/-! ## A removal undoes the addition -/

structure Restored (s t : TranscodingService) : Prop where
  uriPartsMap : t.uriPartsMap = s.uriPartsMap
  mediaFactories : t.mediaFactories = s.mediaFactories
  mounts : t.mounts.Perm s.mounts

theorem Separate.restored (h : Separate s) (ha : Accepts gst s id uri)
    (hp : ({} : UriParts).parseUri id uri = .ok parts) (hnul : 0 ∉ id) :
    Restored s ((s.added gst id uri (parts.readyAt now)).removed gst id (parts.readyAt now)) := by
  have hadded := @Separate.added gst s now id uri parts h ha hp hnul
  have he : (s.added gst id uri (parts.readyAt now)).uriPartsMap[id]? = some (parts.readyAt now) := by
    rw [added_uriPartsMap, if_pos rfl]
  refine ⟨?_, ?_, ?_⟩
  · ext k : 1
    rw [removed_uriPartsMap, added_uriPartsMap]
    split
    · rename_i hk
      rw [← hk, (OrdMap.not_mem_iff _ _).mp ha.freshId]
    · rfl
  · ext k : 1
    rw [removed_mediaFactories (hadded.consistent.parsed id _ he).mount, OrdMap.getElem?_foldl_erase]
    split
    · rename_i hk
      obtain ⟨p, _, rfl⟩ := hk
      rw [(OrdMap.not_mem_iff _ _).mp (h.consistent.no_factory ha.freshId p)]
    · rename_i hk
      exact added_factory_other fun p hp => hk ⟨p, p.mem_all, hp⟩
  · refine (removed_mounts_perm hadded.consistent hadded.once hnul he).trans ?_
    refine (added_mounts_other hnul).trans (.of_eq ?_)
    exact h.no_path ha.freshId

/-! ## An addition undoes the removal -/

/-- The tables of `s` again, with a new time and four new factories for `id`. -/
structure Readded (s : TranscodingService) (id : Str) (e : UriParts) (now : Str)
    (t : TranscodingService) : Prop where
  uriPartsMap : t.uriPartsMap = s.uriPartsMap.insert id { e with ready_time := c_str now }
  mediaFactories : ∀ k : Str, k ∈ t.mediaFactories ↔ k ∈ s.mediaFactories
  paths : (t.mounts.map Prod.fst).Perm (s.mounts.map Prod.fst)
  other_entries : ∀ k : Str, k ≠ id → t.uriPartsMap[k]? = s.uriPartsMap[k]?
  other_factories : ∀ k : Str, k ≠ id → ∀ p,
    t.mediaFactories[mountPoint k p]? = s.mediaFactories[mountPoint k p]?
  other_mounts : (t.mounts.filter (·.1 ∉ Profile.all.map (mountPoint id))).Perm
    (s.mounts.filter (·.1 ∉ Profile.all.map (mountPoint id)))

/-- What was registered once is accepted again when it is gone. -/
theorem accepts_removed (cs : List Call) (he : (stateAfter gst cs).uriPartsMap[id]? = some e) :
    Accepts gst ((stateAfter gst cs).removed gst id e) id e.full_path := by
  obtain ⟨pre, post, now, hlast⟩ := exists_lastAddition cs he
  have hbefore : Accepts gst (stateAfter gst pre) id e.full_path := by
    rw [← @AddRtsp_isSome_iff gst _ now, hlast.returned]
    rfl
  refine ⟨hbefore.valid, hbefore.slashes, ?_, ?_⟩
  · intro k d hd hfull
    rw [removed_uriPartsMap] at hd
    split at hd
    · cases hd
    · rename_i hk
      exact hk ((consistent gst cs).urls id k e d he hd hfull.symm)
  · rw [mem_removed_uriPartsMap]
    exact fun hmem => hmem.1 rfl

theorem Separate.readded (h : Separate s) (he : s.uriPartsMap[id]? = some e)
    (ha : Accepts gst (s.removed gst id e) id e.full_path)
    (hp : ({} : UriParts).parseUri id e.full_path = .ok parts) :
    Readded s id e now ((s.removed gst id e).added gst id e.full_path (parts.readyAt now)) := by
  have hid : id ∈ s.uriPartsMap := (OrdMap.mem_iff _ _).mpr ⟨e, he⟩
  have hparsed := h.consistent.parsed id e he
  have hremoved := @Separate.removed gst s id e h he
  have hadded := @Separate.added gst _ now id e.full_path parts hremoved ha hp (h.ids id hid)
  have hentry : parts.readyAt now = { e with ready_time := c_str now } := by
    obtain ⟨parts', now', hp', rfl⟩ := hparsed
    cases hp.symm.trans hp'
    rfl
  have hmap : ((s.removed gst id e).added gst id e.full_path (parts.readyAt now)).uriPartsMap =
      s.uriPartsMap.insert id { e with ready_time := c_str now } := by
    ext k : 1
    rw [added_uriPartsMap, removed_uriPartsMap, OrdMap.getElem?_insert, hentry]
    split <;> rfl
  have hmem : ∀ k : Str,
      k ∈ ((s.removed gst id e).added gst id e.full_path (parts.readyAt now)).uriPartsMap ↔
        k ∈ s.uriPartsMap := by
    intro k
    rw [mem_added_uriPartsMap, mem_removed_uriPartsMap]
    by_cases hk : id = k
    · simp [← hk, hid]
    · simp [hk]
  have hother : ∀ k : Str, k ≠ id → ∀ p q, mountPoint id q ≠ mountPoint k p :=
    fun k hk p q heq => hk (mountPoint_injective heq).1.symm
  refine ⟨hmap, fun k => ?_, ?_, fun k hk => ?_, fun k hk p => ?_, ?_⟩
  · rw [hadded.consistent.factories, h.consistent.factories]
    simp only [hmem]
  · exact (hadded.paths.trans (mountPaths_perm (OrdMap.keys_perm _ _ hmem))).trans h.paths.symm
  · rw [hmap, OrdMap.getElem?_insert, if_neg (Ne.symm hk)]
  · rw [added_factory_other (hother k hk p), removed_factory_other hparsed.mount (hother k hk p)]
  · refine (added_mounts_other (h.ids id hid)).trans ?_
    refine ((removed_mounts_perm h.consistent h.once (h.ids id hid) he).filter _).trans (.of_eq ?_)
    rw [List.filter_filter]
    simp only [Bool.and_self]

end TranscodingServer
