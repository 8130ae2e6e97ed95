import TranscodingServer.Library.OrdMap
import TranscodingServer.Core.Service
import TranscodingServer.Core.Lemmas.ParseUri

/-!
# What each call does when no allocation fails

One equation for each method under `Env.calm`: the callers of these lemmas never unfold a body.
-/

namespace TranscodingServer

open Text Throwing

variable {gst : Gst} {env : Env} {s : TranscodingService} {now id uri : Str}

/-! ## Statements -/

@[simp] theorem point_calm (pt : Point) : (Env.calm now).point pt = pure ⟨⟩ := rfl

@[simp] theorem calm_mounts : (Env.calm now).mounts = true := rfl

@[simp] theorem exec_call (c : GstCall) (s : TranscodingService) :
    exec (call c) s = (.ok ⟨⟩, { s with calls := s.calls ++ [c] }) := rfl

@[simp] theorem exec_liftM_ok (a : UriParts) (s : TranscodingService) :
    exec (liftM (Except.ok a : Except Exn UriParts) : Svc UriParts) s = (.ok a, s) := rfl

@[simp] theorem exec_liftM_error (e : Exn) (s : TranscodingService) :
    exec (liftM (Except.error e : Except Exn UriParts) : Svc UriParts) s = (.error e, s) := rfl

@[simp] theorem exec_checkUri_calm (s : TranscodingService) :
    exec (checkUri gst (Env.calm now) uri) s = (.ok (isValidUri gst uri), s) := by
  cases h : isValidUri gst uri <;> simp [checkUri, h]

/-! ## `AddRtsp` -/

def Profile.index : Profile → Nat
  | .first => 0
  | .second => 1
  | .third => 2
  | .fourth => 3

/-- The factory that `AddRtsp` creates for a profile when it is called in `s`. -/
def createdFactory (s : TranscodingService) (uri : Str) (p : Profile) : GstRTSPMediaFactory where
  object := s.objects + p.index
  launch := c_str (launchDescription p uri)
  shared := true

structure Accepts (gst : Gst) (s : TranscodingService) (id uri : Str) : Prop where
  valid : isValidUri gst uri = true
  slashes : hasSlashes uri
  freshUri : ∀ (id' : Str) (e : UriParts), s.uriPartsMap[id']? = some e → e.full_path ≠ uri
  freshId : id ∉ s.uriPartsMap

def TranscodingService.added (gst : Gst) (s : TranscodingService) (id uri : Str)
    (parts : UriParts) : TranscodingService where
  clientInfos := s.clientInfos
  mediaFactories := Profile.all.foldl
    (fun m p => m.insert (mountPoint id p) (createdFactory s uri p)) s.mediaFactories
  uriPartsMap := s.uriPartsMap.insert id parts
  mounts := Profile.all.foldl
    (fun t p => gst.add_factory t (c_str (mountPoint id p)) (createdFactory s uri p)) s.mounts
  objects := s.objects + 4
  calls := s.calls ++ [.get_mount_points, .unref_mount_points]

theorem accepts_congr {t : TranscodingService} (h : t.uriPartsMap = s.uriPartsMap) :
    Accepts gst t id uri ↔ Accepts gst s id uri := by
  constructor
  · rintro ⟨hvalid, hslashes, huri, hid⟩
    rw [h] at huri hid
    exact ⟨hvalid, hslashes, huri, hid⟩
  · rintro ⟨hvalid, hslashes, huri, hid⟩
    rw [← h] at huri hid
    exact ⟨hvalid, hslashes, huri, hid⟩

theorem any_full_path_iff :
    s.uriPartsMap.toList.any (·.2.full_path == uri) = true ↔
      ∃ (id : Str) (e : UriParts), s.uriPartsMap[id]? = some e ∧ e.full_path = uri := by
  simp [List.any_eq_true, Std.ExtTreeMap.mem_toList_iff_getElem?_eq_some]

/-- The points of `AddRtsp` before it touches a table, if its checks pass. -/
def Point.early : List Point :=
  [.lock, .checkUri, .make_unique, .parseUri] ++ Profile.all.map .launch ++ [.getCurrentTime] ++
    Profile.all.map .printMount

/-- `AddRtsp` comes as far as its first `gst_rtsp_mount_points_add_factory`. -/
structure Commits (gst : Gst) (env : Env) (s : TranscodingService) (id uri : Str) : Prop where
  accepts : Accepts gst s id uri
  mounts : env.mounts = true
  early : ∀ pt ∈ Point.early, env.raises pt = false

theorem Commits.calm (h : Accepts gst s id uri) : Commits gst (Env.calm now) s id uri :=
  ⟨h, rfl, fun _ _ => rfl⟩

theorem point_of_not_raises {pt : Point} (h : env.raises pt = false) : env.point pt = pure ⟨⟩ := by
  simp [Env.point, h]

theorem exec_prepare_commits (h : Commits gst env s id uri) {parts : UriParts}
    (hp : ({} : UriParts).parseUri id uri = .ok parts) :
    exec (AddRtsp.prepare gst env id uri) s =
      (.ok (some (parts, createdFactory s uri)),
        { s with objects := s.objects + 4, calls := s.calls ++ [.get_mount_points] }) := by
  have hpoint : ∀ pt ∈ Point.early, env.point pt = pure ⟨⟩ :=
    fun pt hpt => point_of_not_raises (h.early pt hpt)
  have hfull : parts.full_path = uri := (parseUri_fields hp).1
  have hany : s.uriPartsMap.toList.any (·.2.full_path == uri) = false := by
    rw [Bool.eq_false_iff, Ne, any_full_path_iff]
    rintro ⟨id', e, he, hu⟩
    exact h.accepts.freshUri id' e he hu
  have hid : id ∉ s.uriPartsMap := h.accepts.freshId
  have hcheck : checkUri gst env uri = pure true := by
    simp [checkUri, hpoint .checkUri (by decide), h.accepts.valid]
  have hfun : Profile.pick ⟨s.objects, c_str (launchDescription .first uri), true⟩
      ⟨s.objects + 1, c_str (launchDescription .second uri), true⟩
      ⟨s.objects + 1 + 1, c_str (launchDescription .third uri), true⟩
      ⟨s.objects + 1 + 1 + 1, c_str (launchDescription .fourth uri), true⟩ =
        createdFactory s uri := by
    funext p
    cases p <;> rfl
  have hlaunch : ∀ p, env.point (.launch p) = pure ⟨⟩ :=
    fun p => hpoint _ (by cases p <;> decide)
  have hprint : ∀ p, env.point (.printMount p) = pure ⟨⟩ :=
    fun p => hpoint _ (by cases p <;> decide)
  simp [AddRtsp.prepare, newFactory, Profile.all, exec_bind, exec_map, hpoint .lock (by decide),
    hpoint .make_unique (by decide), hpoint .parseUri (by decide), hpoint .getCurrentTime (by decide),
    hlaunch, hprint, hcheck, hp, hfull, hany, hid, h.mounts, ← hfun]

/-- Without the checks the preparation ends early, and nothing has happened. -/
theorem exec_prepare_refused (h : ¬Accepts gst s id uri) :
    exec (AddRtsp.prepare gst (Env.calm now) id uri) s = (.ok none, s) ∨
      ∃ e, exec (AddRtsp.prepare gst (Env.calm now) id uri) s = (.error e, s) := by
  by_cases hv : isValidUri gst uri = true
  · by_cases hs : hasSlashes uri
    · left
      obtain ⟨parts, hp, hfull, _⟩ := @parseUri_ok {} id uri hs
      by_cases hany : s.uriPartsMap.toList.any (·.2.full_path == uri) = true
      · simp [AddRtsp.prepare, exec_bind, hv, hp, hfull, hany]
      · have hid : id ∈ s.uriPartsMap := by
          by_contra hid
          refine h ⟨hv, hs, ?_, hid⟩
          intro id' e he hu
          exact hany (any_full_path_iff.mpr ⟨id', e, he, hu⟩)
        simp [AddRtsp.prepare, exec_bind, hv, hp, hfull, hany, hid]
    · right
      exact ⟨_, by simp [AddRtsp.prepare, exec_bind, hv, parseUri_throws hs]; rfl⟩
  · left
    simp [AddRtsp.prepare, exec_bind, hv]

theorem exec_mountFactories_calm (mount : Profile → Str) (factory : Profile → GstRTSPMediaFactory)
    (l : List Profile) (s : TranscodingService) :
    exec (l.forM fun p => mountFactory gst (Env.calm now) (mount p) p (factory p)) s =
      (.ok ⟨⟩, { s with
        mounts := l.foldl (fun t p => gst.add_factory t (c_str (mount p)) (factory p)) s.mounts
        mediaFactories := l.foldl (fun m p => m.insert (mount p) (factory p)) s.mediaFactories }) := by
  induction l generalizing s with
  | nil => rfl
  | cons p l ih =>
      rw [List.forM_eq_forM, List.forM_cons, exec_bind]
      exact ih _

theorem copy_all (src dst : UriParts) : Member.all.foldl src.copy dst = src := by
  simp [Member.all, Profile.all, UriParts.copy, MountPoints.copy]

theorem exec_copyMembers_calm (parts : UriParts) (l : List Member) (s : TranscodingService) :
    exec (l.forM (copyMember (Env.calm now) id parts)) s =
      (.ok ⟨⟩, { s with
        uriPartsMap := l.foldl (fun m x => m.modify id (parts.copy · x)) s.uriPartsMap }) := by
  induction l generalizing s with
  | nil => rfl
  | cons m l ih =>
      rw [List.forM_eq_forM, List.forM_cons, exec_bind]
      exact ih _

theorem exec_storeUriParts_calm (parts : UriParts) (hid : id ∉ s.uriPartsMap) :
    exec (storeUriParts (Env.calm now) id parts) s =
      (.ok ⟨⟩, { s with uriPartsMap := s.uriPartsMap.insert id parts }) := by
  have hmap : (s.uriPartsMap.insertIfNew id {}).modify id
      (fun d => Member.all.foldl parts.copy d) = s.uriPartsMap.insert id parts := by
    ext k : 1
    rw [OrdMap.getElem?_modify, OrdMap.getElem?_insert, Std.ExtTreeMap.getElem?_insertIfNew]
    by_cases hk : id = k
    · subst hk
      simp [hid, copy_all]
    · simp [hk]
  simp only [storeUriParts, point_calm, pure_bind, exec_bind, exec_modify,
    exec_copyMembers_calm, OrdMap.foldl_modify, hmap]

theorem exec_commit_calm (parts : UriParts) (factory : Profile → GstRTSPMediaFactory)
    (hid : id ∉ s.uriPartsMap) :
    exec (AddRtsp.commit gst (Env.calm now) id parts factory) s =
      (.ok (parts.readyAt now), { s with
        mounts := Profile.all.foldl (fun t p =>
          gst.add_factory t (c_str (parts.mount_points.get p)) (factory p)) s.mounts
        mediaFactories := Profile.all.foldl (fun m p =>
          m.insert (parts.mount_points.get p) (factory p)) s.mediaFactories
        uriPartsMap := s.uriPartsMap.insert id (parts.readyAt now)
        calls := s.calls ++ [.unref_mount_points] }) := by
  rw [AddRtsp.commit, exec_bind_ok (exec_mountFactories_calm _ _ _ _),
    exec_bind_ok (exec_call _ _), point_calm, pure_bind, exec_bind, exec_storeUriParts_calm]
  · rfl
  · exact hid

theorem AddRtsp_accepted (h : Accepts gst s id uri) :
    ∃ parts, ({} : UriParts).parseUri id uri = .ok parts ∧
      AddRtsp gst (Env.calm now) id uri s =
        (some (parts.readyAt now), s.added gst id uri (parts.readyAt now)) := by
  obtain ⟨parts, hp, _, _, _, hmount⟩ := @parseUri_ok {} id uri h.slashes
  refine ⟨parts, hp, ?_⟩
  have hbody : exec (AddRtsp.body gst (Env.calm now) id uri) s =
      (.ok (some (parts.readyAt now)), s.added gst id uri (parts.readyAt now)) := by
    have hcommit := @exec_commit_calm gst
      { s with objects := s.objects + 4, calls := s.calls ++ [.get_mount_points] } now id parts
      (createdFactory s uri) h.freshId
    rw [AddRtsp.body, exec_bind_ok (exec_prepare_commits (.calm h) hp), exec_bind_ok hcommit]
    simp only [exec_pure, TranscodingService.added, hmount, List.append_assoc,
      List.cons_append, List.nil_append]
  rw [AddRtsp, catchAll, hbody]

theorem AddRtsp_refused (h : ¬Accepts gst s id uri) :
    AddRtsp gst (Env.calm now) id uri s = (none, s) := by
  rw [AddRtsp, catchAll, AddRtsp.body, exec_bind]
  rcases exec_prepare_refused h with hnone | ⟨e, herr⟩
  · rw [hnone]; rfl
  · rw [herr]

/-- All that an undisturbed `AddRtsp` can do. -/
theorem AddRtsp_cases (gst : Gst) (s : TranscodingService) (now id uri : Str) :
    (∃ parts, Accepts gst s id uri ∧ ({} : UriParts).parseUri id uri = .ok parts ∧
      AddRtsp gst (Env.calm now) id uri s =
        (some (parts.readyAt now), s.added gst id uri (parts.readyAt now))) ∨
    (¬Accepts gst s id uri ∧ AddRtsp gst (Env.calm now) id uri s = (none, s)) := by
  by_cases h : Accepts gst s id uri
  · obtain ⟨parts, hp, hadd⟩ := @AddRtsp_accepted gst s now id uri h
    exact .inl ⟨parts, h, hp, hadd⟩
  · exact .inr ⟨h, AddRtsp_refused h⟩

theorem AddRtsp_isSome_iff :
    (AddRtsp gst (Env.calm now) id uri s).1.isSome ↔ Accepts gst s id uri := by
  rcases AddRtsp_cases gst s now id uri with ⟨parts, h, _, hadd⟩ | ⟨h, hadd⟩
  · simp [hadd, h]
  · simp [hadd, h]

/-! ## Clients -/

theorem eraseLoop_eq (p : ClientInfo → Bool) (close : ClientInfo → List GstCall)
    (l : List ClientInfo) :
    eraseLoop p close l =
      (l.filter (!p ·), (l.filter p).flatMap fun info => close info ++ info.release) := by
  induction l with
  | nil => rfl
  | cons info l ih =>
      by_cases hp : p info = true <;> simp [eraseLoop, ih, hp]

def TranscodingService.purged (gst : Gst) (s : TranscodingService) (id : Str) :
    TranscodingService :=
  { s with
    clientInfos := s.clientInfos.filter (!matchesId id ·)
    calls := s.calls ++ (s.clientInfos.filter (matchesId id)).flatMap fun info =>
      closeConnection gst info ++ info.release }

theorem RemoveClientWithId_calm :
    RemoveClientWithId gst (Env.calm now) id s = s.purged gst id := by
  rcases s with ⟨⟨infos, _, _, _⟩, _, _⟩
  simp only [RemoveClientWithId, catchAll, RemoveClientWithId.body, point_calm, pure_bind,
    exec_modify, eraseLoop_eq, TranscodingService.purged]
  cases infos <;> simp

theorem RemoveClientWithClient_some (c : GstRTSPClient) :
    RemoveClientWithClient (some c) s =
      { s with
        clientInfos := s.clientInfos.filter (!·.client == some c)
        calls := s.calls ++ (s.clientInfos.filter (·.client == some c)).flatMap fun info =>
          [.client_close c] ++ info.release } := by
  rcases s with ⟨⟨infos, _, _, _⟩, _, _⟩
  simp only [RemoveClientWithClient, eraseLoop_eq]
  cases infos <;> simp

/-! ## `RemoveRtsp` -/

/-- The state behind a successful `RemoveRtsp`, whose entry was `e`. -/
def TranscodingService.removed (gst : Gst) (s : TranscodingService) (id : Str) (e : UriParts) :
    TranscodingService :=
  let t := Profile.all.foldl (fun s p => removeFactory gst s (e.mount_points.get p))
    (TranscodingService.purged gst { s with calls := s.calls ++ [.get_mount_points] } id)
  { t with uriPartsMap := t.uriPartsMap.erase id, calls := t.calls ++ [.unref_mount_points] }

theorem RemoveRtsp_known {e : UriParts} (h : s.uriPartsMap[id]? = some e) :
    RemoveRtsp gst (Env.calm now) id s = (true, s.removed gst id e) := by
  simp only [RemoveRtsp, catchAll, RemoveRtsp.body, point_calm, calm_mounts, pure_bind, exec_bind,
    exec_call, exec_get, exec_modify, Bool.not_true, Bool.false_eq_true, ↓reduceIte, h,
    RemoveClientWithId_calm, exec_pure]
  rfl

theorem RemoveRtsp_unknown (h : id ∉ s.uriPartsMap) :
    RemoveRtsp gst (Env.calm now) id s =
      (false, { s with calls := s.calls ++ [.get_mount_points] }) := by
  have hnone : s.uriPartsMap[id]? = none := (OrdMap.not_mem_iff _ _).mp h
  simp only [RemoveRtsp, catchAll, RemoveRtsp.body, point_calm, calm_mounts, pure_bind, exec_bind,
    exec_call, exec_get, Bool.not_true, Bool.false_eq_true, ↓reduceIte, hnone, exec_pure]

/-- All that an undisturbed `RemoveRtsp` can do. -/
theorem RemoveRtsp_cases (gst : Gst) (s : TranscodingService) (now id : Str) :
    (∃ e, s.uriPartsMap[id]? = some e ∧ id ∈ s.uriPartsMap ∧
      RemoveRtsp gst (Env.calm now) id s = (true, s.removed gst id e)) ∨
    (id ∉ s.uriPartsMap ∧ RemoveRtsp gst (Env.calm now) id s =
      (false, { s with calls := s.calls ++ [.get_mount_points] })) := by
  by_cases h : id ∈ s.uriPartsMap
  · obtain ⟨e, he⟩ := (OrdMap.mem_iff _ _).mp h
    exact .inl ⟨e, he, h, RemoveRtsp_known he⟩
  · exact .inr ⟨h, RemoveRtsp_unknown h⟩

theorem RemoveRtsp_true_iff :
    (RemoveRtsp gst (Env.calm now) id s).1 = true ↔ id ∈ s.uriPartsMap := by
  rcases RemoveRtsp_cases gst s now id with ⟨e, _, h, hremove⟩ | ⟨h, hremove⟩
  · simp [hremove, h]
  · simp [hremove, h]

end TranscodingServer
