import TranscodingServer.Core.Lemmas.Tables

/-!
# Which clients a removal disconnects

`RemoveClientWithId` looks for `"/" + id` anywhere in the path of a record, `RemoveRtsp` takes four
mount points away.
-/

namespace TranscodingServer

open Text

variable {gst : Gst} {s : TranscodingService} {now id b uri : Str} {e : UriParts}

/-- The path is the mount point, or continues it behind a `/`. -/
def UnderPath (mount uri : Str) : Prop := uri = mount ∨ mount ++ str "/" <+: uri

/-- The path is under one of the four mount points of a stream. -/
def UnderMount (id uri : Str) : Prop := ∃ p, UnderPath (mountPoint id p) uri

instance (mount uri : Str) : Decidable (UnderPath mount uri) :=
  inferInstanceAs (Decidable (_ ∨ _))

instance (id uri : Str) : Decidable (UnderMount id uri) :=
  decidable_of_iff (∃ p ∈ Profile.all, UnderPath (mountPoint id p) uri) (by
    simp [UnderMount, Profile.mem_all])

theorem matchesId_iff {info : ClientInfo} : matchesId id info = true ↔ str "/" ++ id <:+: info.uri :=
  find_isSome_iff

theorem UnderPath.prefix {mount : Str} (h : UnderPath mount uri) : mount <+: uri := by
  rcases h with rfl | h
  · exact List.prefix_rfl
  · exact (List.prefix_append _ _).trans h

theorem UnderMount.matchesId {info : ClientInfo} (h : UnderMount id info.uri) :
    matchesId id info = true := by
  obtain ⟨p, hp⟩ := h
  have hpre : str "/" ++ id <+: mountPoint id p := by
    rw [mountPoint, List.append_assoc]
    exact List.prefix_append _ _
  rw [matchesId_iff]
  exact (hpre.trans hp.prefix).isInfix

theorem filter_filter_eq_iff {α : Type} {p q : α → Bool} {l : List α} :
    (l.filter q).filter p = l.filter p ↔ ∀ a ∈ l, p a = true → q a = true := by
  constructor
  · intro h a ha hp
    have hmem : a ∈ (l.filter q).filter p := h ▸ List.mem_filter.mpr ⟨ha, hp⟩
    exact (List.mem_filter.mp (List.mem_filter.mp hmem).1).2
  · intro h
    rw [List.filter_filter]
    refine List.filter_congr fun a ha => ?_
    cases hp : p a
    · rfl
    · simp [h a ha hp]

/-- A client of another stream: under its mount points, and under none of `id`. -/
def ClientOfOther (id b : Str) (info : ClientInfo) : Prop :=
  UnderMount b info.uri ∧ ¬UnderMount id info.uri

instance (id b : Str) (info : ClientInfo) : Decidable (ClientOfOther id b info) :=
  inferInstanceAs (Decidable (_ ∧ _))

/-- If the call succeeds, it keeps the clients of the other streams, in their order, and closes no
connection through one of them. -/
def SparesOthers (gst : Gst) (now : Str) (s : TranscodingService) (id : Str) : Prop :=
  (RemoveRtsp gst (Env.calm now) id s).1 = true → ∀ b ∈ s.uriPartsMap, b ≠ id →
    (RemoveRtsp gst (Env.calm now) id s).2.clientInfos.filter (ClientOfOther id b ·) =
      s.clientInfos.filter (ClientOfOther id b ·) ∧
    ∃ made, (RemoveRtsp gst (Env.calm now) id s).2.calls = s.calls ++ made ∧
      ∀ info conn, .connection_close info conn ∈ made → ¬ClientOfOther id b info

theorem of_connection_close {info : ClientInfo} {conn : GstRTSPConnection}
    {infos : List ClientInfo}
    (h : .connection_close info conn ∈ (infos.filter (matchesId id)).flatMap fun info =>
      closeConnection gst info ++ info.release) : info ∈ infos ∧ matchesId id info = true := by
  obtain ⟨info', hinfo', hmem⟩ := List.mem_flatMap.mp h
  rcases List.mem_append.mp hmem with hclose | hrelease
  · unfold closeConnection at hclose
    split at hclose
    · have heq : info = info' := by simp at hclose; exact hclose.1
      rw [heq]
      exact List.mem_filter.mp hinfo'
    · cases hclose
  · simp [ClientInfo.release] at hrelease

end TranscodingServer
