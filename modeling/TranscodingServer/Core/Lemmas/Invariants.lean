import TranscodingServer.Core.Calls
import TranscodingServer.Core.Lemmas.Tables

/-!
# Invariants of the service

What a call can do is said once, in `exec_keeps`; every invariant is then an empty table, an added
stream and a removed stream.
-/

namespace TranscodingServer

open Lts

variable {gst : Gst} {s t : TranscodingService} {now id uri : Str} {parts e : UriParts}

/-! ## What a call can do -/

/-- The same streams; the clients, and the calls made so far, may differ. -/
structure SameStreams (s t : TranscodingService) : Prop where
  uriPartsMap : t.uriPartsMap = s.uriPartsMap
  mediaFactories : t.mediaFactories = s.mediaFactories
  mounts : t.mounts = s.mounts
  objects : t.objects = s.objects

theorem SameStreams.refl : SameStreams s s := ⟨rfl, rfl, rfl, rfl⟩

theorem AddClientInfo_same (client : Option GstRTSPClient) (id uri : Str) :
    SameStreams s (AddClientInfo client id uri s) := ⟨rfl, rfl, rfl, rfl⟩

theorem RemoveClientWithClient_same (client : Option GstRTSPClient) :
    SameStreams s (RemoveClientWithClient client s) := by
  cases client with
  | none => exact .refl
  | some c => rw [RemoveClientWithClient_some]; exact ⟨rfl, rfl, rfl, rfl⟩

/-- The outcomes of a call, with the result and the state behind it. -/
inductive Outcome (gst : Gst) (s : TranscodingService) : Call → Ret × TranscodingService → Prop
  | accepted (now id uri : Str) (parts : UriParts) :
      Accepts gst s id uri → ({} : UriParts).parseUri id uri = .ok parts →
      Outcome gst s (.AddRtsp now id uri)
        (.uriParts (some (parts.readyAt now)), s.added gst id uri (parts.readyAt now))
  | refused (now id uri : Str) :
      ¬Accepts gst s id uri → Outcome gst s (.AddRtsp now id uri) (.uriParts none, s)
  | known (now id : Str) (e : UriParts) :
      s.uriPartsMap[id]? = some e →
      Outcome gst s (.RemoveRtsp now id) (.bool true, s.removed gst id e)
  | unknown (now id : Str) (t : TranscodingService) :
      id ∉ s.uriPartsMap → SameStreams s t →
      Outcome gst s (.RemoveRtsp now id) (.bool false, t)
  | connect (client : Option GstRTSPClient) (id uri : Str) (t : TranscodingService) :
      SameStreams s t → Outcome gst s (.AddClientInfo client id uri) (.void, t)
  | disconnect (client : Option GstRTSPClient) (t : TranscodingService) :
      SameStreams s t → Outcome gst s (.RemoveClientWithClient client) (.void, t)

theorem exec_outcome (gst : Gst) (s : TranscodingService) (c : Call) :
    Outcome gst s c (c.exec gst s) := by
  cases c with
  | AddRtsp now id uri =>
      rcases AddRtsp_cases gst s now id uri with ⟨parts, h, hp, hadd⟩ | ⟨h, hadd⟩
      · rw [Call.exec, hadd]
        exact .accepted _ _ _ _ h hp
      · rw [Call.exec, hadd]
        exact .refused _ _ _ h
  | RemoveRtsp now id =>
      rcases RemoveRtsp_cases gst s now id with ⟨e, he, _, hremove⟩ | ⟨h, hremove⟩
      · rw [Call.exec, hremove]
        exact .known _ _ _ he
      · rw [Call.exec, hremove]
        exact .unknown _ _ _ h ⟨rfl, rfl, rfl, rfl⟩
  | AddClientInfo client id uri => exact .connect _ _ _ _ (AddClientInfo_same client id uri)
  | RemoveClientWithClient client => exact .disconnect _ _ (RemoveClientWithClient_same client)

/-- A property of the streams is kept by every call if it is kept where a stream is added and where
one is removed. -/
theorem exec_keeps {P : TranscodingService → Prop}
    (hsame : ∀ s t, SameStreams s t → P s → P t)
    (hadd : ∀ s now id uri parts, P s → Accepts gst s id uri →
      ({} : UriParts).parseUri id uri = .ok parts → P (s.added gst id uri (parts.readyAt now)))
    (hremove : ∀ s id e, P s → s.uriPartsMap[id]? = some e → P (s.removed gst id e))
    (s : TranscodingService) (c : Call) (h : P s) : P (c.exec gst s).2 := by
  have ho := exec_outcome gst s c
  generalize c.exec gst s = r at ho ⊢
  cases ho with
  | accepted now id uri parts ha hp => exact hadd _ _ _ _ _ h ha hp
  | refused now id uri _ => exact h
  | known now id e he => exact hremove _ _ _ h he
  | unknown now id t _ hs => exact hsame _ _ hs h
  | connect client id uri t hs => exact hsame _ _ hs h
  | disconnect client t hs => exact hsame _ _ hs h

/-! ## The entries of `uriPartsMap` -/

/-- The entry is what `parseUri` makes of its own key and url, with the time of its addition. -/
def Parsed (id : Str) (e : UriParts) : Prop :=
  ∃ parts now, ({} : UriParts).parseUri id e.full_path = .ok parts ∧ e = parts.readyAt now

theorem parsed_readyAt (hp : ({} : UriParts).parseUri id uri = .ok parts) :
    Parsed id (parts.readyAt now) := by
  refine ⟨parts, now, ?_, rfl⟩
  rw [← hp]
  exact congrArg _ (parseUri_fields hp).1

theorem readyAt_full_path (hp : ({} : UriParts).parseUri id uri = .ok parts) :
    (parts.readyAt now).full_path = uri := (parseUri_fields hp).1

theorem Parsed.id_eq (h : Parsed id e) : e.id = id := by
  obtain ⟨parts, now, hp, rfl⟩ := h
  exact (parseUri_fields hp).2.1

theorem Parsed.mount (h : Parsed id e) (p : Profile) : e.mount_points.get p = mountPoint id p := by
  obtain ⟨parts, now, hp, rfl⟩ := h
  exact (parseUri_fields hp).2.2.2 p

structure Consistent (s : TranscodingService) : Prop where
  parsed : ∀ (id : Str) (e : UriParts), s.uriPartsMap[id]? = some e → Parsed id e
  urls : ∀ (id id' : Str) (e e' : UriParts), s.uriPartsMap[id]? = some e →
    s.uriPartsMap[id']? = some e' → e.full_path = e'.full_path → id = id'
  factories : ∀ k : Str, k ∈ s.mediaFactories ↔
    ∃ (id : Str) (p : Profile), id ∈ s.uriPartsMap ∧ mountPoint id p = k
  size : s.mediaFactories.size = 4 * s.uriPartsMap.size

theorem Consistent.empty : Consistent {} where
  parsed id e h := by simp at h
  urls id id' e e' h := by simp at h
  factories k := by simp
  size := by simp

theorem Consistent.same (hst : SameStreams s t) (h : Consistent s) : Consistent t where
  parsed := by rw [hst.uriPartsMap]; exact h.parsed
  urls := by rw [hst.uriPartsMap]; exact h.urls
  factories := by rw [hst.uriPartsMap, hst.mediaFactories]; exact h.factories
  size := by rw [hst.uriPartsMap, hst.mediaFactories]; exact h.size

theorem Consistent.factory (h : Consistent s) (hid : id ∈ s.uriPartsMap) (p : Profile) :
    mountPoint id p ∈ s.mediaFactories := (h.factories _).mpr ⟨id, p, hid, rfl⟩

theorem Consistent.no_factory (h : Consistent s) (hid : id ∉ s.uriPartsMap) (p : Profile) :
    mountPoint id p ∉ s.mediaFactories := by
  intro hmem
  obtain ⟨id', p', hid', hp⟩ := (h.factories _).mp hmem
  exact hid ((mountPoint_injective hp).1 ▸ hid')

theorem Consistent.added (h : Consistent s) (ha : Accepts gst s id uri)
    (hp : ({} : UriParts).parseUri id uri = .ok parts) :
    Consistent (s.added gst id uri (parts.readyAt now)) where
  parsed := by
    intro k e he
    rw [added_uriPartsMap] at he
    split at he
    · rename_i hk
      cases he
      rw [← hk]
      exact parsed_readyAt hp
    · exact h.parsed k e he
  urls := by
    intro k k' e e' he he' hurl
    rw [added_uriPartsMap] at he he'
    have hnew : (parts.readyAt now).full_path = uri := readyAt_full_path hp
    split at he <;> split at he'
    · rename_i hk hk'
      rw [← hk, ← hk']
    · cases he
      exact absurd (hurl ▸ hnew) (ha.freshUri k' e' he')
    · cases he'
      exact absurd (hurl.trans hnew) (ha.freshUri k e he)
    · exact h.urls k k' e e' he he' hurl
  factories := by
    intro k
    rw [mem_added_mediaFactories, h.factories]
    simp only [mem_added_uriPartsMap]
    constructor
    · rintro (⟨p, hk⟩ | ⟨id', p, hid', hk⟩)
      · exact ⟨id, p, .inl rfl, hk⟩
      · exact ⟨id', p, .inr hid', hk⟩
    · rintro ⟨id', p, rfl | hid', hk⟩
      · exact .inl ⟨p, hk⟩
      · exact .inr ⟨id', p, hid', hk⟩
  size := by
    have hnew : ∀ p ∈ Profile.all, mountPoint id p ∉ s.mediaFactories :=
      fun p _ => h.no_factory ha.freshId p
    have hid : ¬s.uriPartsMap.contains id = true := ha.freshId
    simp only [TranscodingService.added]
    rw [OrdMap.size_foldl_insert _ _ _ _ (mountPoints_nodup id) hnew,
      Std.ExtTreeMap.size_insert, if_neg hid, h.size]
    simp [Profile.all]
    omega

theorem Consistent.removed (h : Consistent s) (he : s.uriPartsMap[id]? = some e) :
    Consistent (s.removed gst id e) where
  parsed := by
    intro k e' he'
    rw [removed_uriPartsMap] at he'
    split at he'
    · cases he'
    · exact h.parsed k e' he'
  urls := by
    intro k k' d d' hd hd' hurl
    rw [removed_uriPartsMap] at hd hd'
    split at hd <;> split at hd'
    · cases hd
    · cases hd
    · cases hd'
    · exact h.urls k k' d d' hd hd' hurl
  factories := by
    intro k
    rw [mem_removed_mediaFactories (h.parsed id e he).mount, h.factories]
    simp only [mem_removed_uriPartsMap]
    constructor
    · rintro ⟨hno, id', p, hid', rfl⟩
      exact ⟨id', p, ⟨fun heq => hno p (by rw [heq]), hid'⟩, rfl⟩
    · rintro ⟨id', p, ⟨hne, hid'⟩, rfl⟩
      exact ⟨fun q hq => hne (mountPoint_injective hq).1, id', p, hid', rfl⟩
  size := by
    have hid : id ∈ s.uriPartsMap := (OrdMap.mem_iff _ _).mpr ⟨e, he⟩
    have hmem : ∀ p ∈ Profile.all, mountPoint id p ∈ s.mediaFactories :=
      fun p _ => h.factory hid p
    have hfour := OrdMap.size_foldl_erase s.mediaFactories Profile.all (mountPoint id)
      (mountPoints_nodup id) hmem
    have hone := OrdMap.size_foldl_erase s.uriPartsMap [id] (fun k => k) (by simp) (by simpa)
    rw [removed_mediaFactories (h.parsed id e he).mount, removed_uriPartsMap_erase]
    simp [Profile.all] at hfour hone ⊢
    have := h.size
    omega

theorem Consistent.exec (s : TranscodingService) (c : Call) (h : Consistent s) :
    Consistent (c.exec gst s).2 := by
  refine exec_keeps ?_ ?_ ?_ s c h
  · exact fun s t hst h => h.same hst
  · exact fun s now id uri parts h ha hp => h.added ha hp
  · exact fun s id e h he => h.removed he

theorem consistent (gst : Gst) (cs : List Call) : Consistent (stateAfter gst cs) :=
  stateAfter_invariant .empty Consistent.exec cs

end TranscodingServer
