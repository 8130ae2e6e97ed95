import TranscodingServer.Core.Lemmas.Spec

/-!
# Exceptions on the way

What `AddRtsp` and `RemoveRtsp` leave behind when a statement throws.  `AddRtsp` touches no table
before its first `gst_rtsp_mount_points_add_factory`, and is in the mount table from there on.
-/

namespace TranscodingServer

open Throwing

variable {gst : Gst} {env : Env} {s t : TranscodingService} {id uri : Str}

theorem exec_point (pt : Point) (s : TranscodingService) :
    exec (env.point pt) s = if env.raises pt = true then (.error .bad_alloc, s) else (.ok ⟨⟩, s) := by
  unfold Env.point
  split <;> rfl

theorem exec_point_eq_ok {pt : Point} {u : PUnit} :
    exec (env.point pt) s = (.ok u, t) ↔ env.raises pt = false ∧ t = s := by
  rw [exec_point]
  by_cases h : env.raises pt = true <;> simp [h, eq_comm]

theorem keeps_point {P : TranscodingService → Prop} (pt : Point) : Keeps P (env.point pt) :=
  Keeps.ite (.throw _) (.pure _)

theorem succeeds_point (pt : Point) : Succeeds (env.raises pt = false) (env.point pt) := by
  intro s
  rw [exec_point]
  by_cases h : env.raises pt = true <;> simp [h, Except.isOk, Except.toBool]

theorem exec_points_eq_ok {α : Type} {pt : α → Point} {l : List α} {u : PUnit} :
    exec (l.forM fun a => env.point (pt a)) s = (.ok u, t) ↔
      (∀ a ∈ l, env.raises (pt a) = false) ∧ t = s := by
  induction l with
  | nil =>
      constructor
      · rintro ⟨⟩
        exact ⟨by simp, rfl⟩
      · rintro ⟨_, rfl⟩
        rfl
  | cons a l ih =>
      rw [List.forM_eq_forM, List.forM_cons, exec_bind_eq_ok]
      simp only [exec_point_eq_ok, List.forall_mem_cons, and_assoc]
      constructor
      · rintro ⟨_, _, ha, rfl, hl⟩
        exact ⟨ha, ih.mp hl⟩
      · rintro ⟨ha, hl⟩
        exact ⟨⟨⟩, s, ha, rfl, ih.mpr hl⟩

/-! ## `AddRtsp` -/

/-- The points of `AddRtsp` behind its first `gst_rtsp_mount_points_add_factory`. -/
def Point.late : List Point :=
  Profile.all.map .mediaFactory ++ [.ready_time, .uriPartsNode] ++
    Member.all.map .uriPartsMember ++ [.printAdded]

theorem exec_guard_eq_some {α : Type} {c : Prop} [Decidable c] {m : Svc (Option α)} {r : α} :
    exec (if c then pure none else m) s = (.ok (some r), t) ↔
      ¬c ∧ exec m s = (.ok (some r), t) := by
  by_cases h : c <;> simp [h]

theorem exec_checkUri_eq_ok {b : Bool} (h : exec (checkUri gst env uri) s = (.ok b, t)) :
    env.raises .checkUri = false ∧ b = isValidUri gst uri ∧ t = s := by
  rw [checkUri, exec_bind_eq_ok] at h
  obtain ⟨_, u, hpoint, h⟩ := h
  obtain ⟨hraises, rfl⟩ := exec_point_eq_ok.mp hpoint
  by_cases hv : isValidUri gst uri = true
  · simp only [hv, Bool.not_true, Bool.false_eq_true, ↓reduceIte, exec_pure] at h
    cases h
    exact ⟨hraises, hv.symm, rfl⟩
  · rw [Bool.not_eq_true] at hv
    simp only [hv, Bool.not_false, ↓reduceIte, exec_bind_eq_ok, exec_point_eq_ok,
      exec_pure] at h
    obtain ⟨_, _, ⟨_, rfl⟩, h⟩ := h
    cases h
    exact ⟨hraises, hv.symm, rfl⟩

theorem exec_newFactory_eq_ok {p : Profile} {f : GstRTSPMediaFactory} :
    exec (newFactory env uri p) s = (.ok f, t) ↔
      env.raises (.launch p) = false ∧ f = ⟨s.objects, c_str (launchDescription p uri), true⟩ ∧
        t = { s with objects := s.objects + 1 } := by
  simp only [newFactory, exec_bind_eq_ok, exec_get, exec_set, exec_point_eq_ok, exec_pure]
  constructor
  · rintro ⟨_, _, ⟨⟩, _, _, ⟨⟩, _, _, ⟨hp, rfl⟩, ⟨⟩⟩
    exact ⟨hp, rfl, rfl⟩
  · rintro ⟨hp, rfl, rfl⟩
    exact ⟨_, _, rfl, _, _, rfl, ⟨⟩, _, ⟨hp, rfl⟩, rfl⟩

theorem exec_prepare_eq_some {r : UriParts × (Profile → GstRTSPMediaFactory)}
    (h : exec (AddRtsp.prepare gst env id uri) s = (.ok (some r), t)) :
    Commits gst env s id uri := by
  simp only [AddRtsp.prepare, exec_bind_eq_ok, exec_point_eq_ok] at h
  obtain ⟨_, _, ⟨hlock, rfl⟩, valid, _, hcheck, h⟩ := h
  obtain ⟨hcheckUri, hvalid, rfl⟩ := exec_checkUri_eq_ok hcheck
  simp only [exec_guard_eq_some, exec_bind_eq_ok, exec_point_eq_ok] at h
  obtain ⟨hv, _, _, ⟨hmake, rfl⟩, _, _, ⟨hparse, rfl⟩, parts, _, hparts, h⟩ := h
  cases hp : ({} : UriParts).parseUri id uri with
  | error e =>
      rw [hp, exec_liftM_error] at hparts
      cases hparts
  | ok parts' =>
      rw [hp, exec_liftM_ok] at hparts
      cases hparts
      simp only [exec_get, exec_call, exec_newFactory_eq_ok, exec_points_eq_ok] at h
      obtain ⟨_, _, ⟨⟩, hany, hid, hmounts, _, _, ⟨⟩, _, _, ⟨h₁, rfl, rfl⟩, _, _, ⟨h₂, rfl, rfl⟩,
        _, _, ⟨h₃, rfl, rfl⟩, _, _, ⟨h₄, rfl, rfl⟩, _, _, ⟨htime, rfl⟩, _, _, ⟨hprint, rfl⟩, _⟩ := h
      refine ⟨⟨?_, parseUri_ok_iff.mp ⟨_, hp⟩, ?_, by simpa using hid⟩, by simpa using hmounts, ?_⟩
      · simpa [hvalid] using hv
      · intro id' e he hu
        rw [(parseUri_fields hp).1] at hany
        exact hany (any_full_path_iff.mpr ⟨id', e, he, hu⟩)
      · simp only [Point.early, Profile.all, List.map_cons, List.map_nil, List.cons_append,
          List.nil_append, List.forall_mem_cons, List.not_mem_nil, false_implies, implies_true,
          and_true, hlock, hcheckUri, hmake, hparse, h₁, h₂, h₃, h₄, htime, true_and]
        simpa [Profile.all] using hprint

def Unchanged (T : Tables) (t : TranscodingService) : Prop := t.toTables = T

/-- The preparation leaves every table as it is, however it ends. -/
theorem keeps_prepare (T : Tables) : Keeps (Unchanged T) (AddRtsp.prepare gst env id uri) := by
  have hpoint : ∀ pt, Keeps (Unchanged T) (env.point pt) := fun pt => keeps_point pt
  have hcall : ∀ c, Keeps (Unchanged T) (call c) := fun c _ h => h
  have hcheck : Keeps (Unchanged T) (checkUri gst env uri) :=
    (hpoint _).bind fun _ => .ite ((hpoint _).bind fun _ => .pure _) (.pure _)
  have hparse : Keeps (Unchanged T) (liftM (({} : UriParts).parseUri id uri) : Svc UriParts) := by
    intro s h
    cases ({} : UriParts).parseUri id uri <;> exact h
  have hfactory : ∀ p, Keeps (Unchanged T) (newFactory env uri p) := by
    intro p
    refine Keeps.get_bind fun s hs => exec_bind_keeps (Unchanged T) hs fun _ => ?_
    exact (hpoint _).bind fun _ => .pure _
  refine (hpoint _).bind fun _ => hcheck.bind fun _ => .ite (.pure _) ?_
  refine (hpoint _).bind fun _ => (hpoint _).bind fun _ => hparse.bind fun uriParts => ?_
  refine Keeps.get.bind fun s => .ite (.pure _) (.ite (.pure _) (.ite (.pure _) ?_))
  refine (hcall _).bind fun _ => (hfactory _).bind fun _ => (hfactory _).bind fun _ => ?_
  refine (hfactory _).bind fun _ => (hfactory _).bind fun _ => (hpoint _).bind fun _ => ?_
  exact (Keeps.forM _ fun p _ => hpoint _).bind fun _ => .pure _

def Grown (n : Nat) (t : TranscodingService) : Prop := n < t.mounts.length

theorem exec_mountFactory_grows (mount : Str) (p : Profile) (f : GstRTSPMediaFactory) {n : Nat}
    (hn : n ≤ s.mounts.length) : Grown n (exec (mountFactory gst env mount p f) s).2 := by
  refine exec_bind_keeps (Grown n) ?_ fun _ => (keeps_point _).bind fun _ => .modify fun t ht => ht
  show n < (gst.add_factory s.mounts (c_str mount) f).length
  rw [gst.length_add_factory]
  omega

theorem keeps_storeUriParts {n : Nat} (uriParts : UriParts) :
    Keeps (Grown n) (storeUriParts env id uriParts) := by
  have hmap : ∀ f : StrMap UriParts → StrMap UriParts, Keeps (Grown n)
      (modify fun t => { t with uriPartsMap := f t.uriPartsMap } : Svc PUnit) := fun f t ht => ht
  have hcopy : ∀ m, Keeps (Grown n) (copyMember env id uriParts m) :=
    fun m => (keeps_point _).bind fun _ => hmap (·.modify id (uriParts.copy · m))
  unfold storeUriParts
  exact (keeps_point _).bind fun _ => (hmap (·.insertIfNew id {})).bind fun _ =>
    Keeps.forM _ fun m _ => hcopy m

/-- Once `AddRtsp` commits, the mount table has grown, even if an exception follows. -/
theorem commit_grows (uriParts : UriParts) (factory : Profile → GstRTSPMediaFactory) :
    Grown s.mounts.length (exec (AddRtsp.commit gst env id uriParts factory) s).2 := by
  have hpoint : ∀ pt, Keeps (Grown s.mounts.length) (env.point pt) := fun pt => keeps_point pt
  have hmount : ∀ mount p f, Keeps (Grown s.mounts.length) (mountFactory gst env mount p f) :=
    fun mount p f t ht => exec_mountFactory_grows mount p f (Nat.le_of_lt ht)
  have hcall : ∀ c, Keeps (Grown s.mounts.length) (call c) := fun c _ h => h
  refine exec_bind_keeps (Grown s.mounts.length) ?_ fun _ => ?_
  · refine exec_bind_keeps (Grown s.mounts.length) ?_ fun _ => Keeps.forM _ fun p _ => hmount _ _ _
    exact exec_mountFactory_grows _ _ _ (Nat.le_refl _)
  · exact (hcall _).bind fun _ => (hpoint _).bind fun _ => (keeps_storeUriParts _).bind fun _ =>
      (hpoint _).bind fun _ => .pure _

theorem succeeds_commit (uriParts : UriParts) (factory : Profile → GstRTSPMediaFactory) :
    Succeeds (∀ pt ∈ Point.late, env.raises pt = false)
      (AddRtsp.commit gst env id uriParts factory) := by
  have hmount : ∀ mount p f, Succeeds (env.raises (.mediaFactory p) = false)
      (mountFactory gst env mount p f) := by
    intro mount p f
    refine ((Succeeds.modify _).bind fun _ => (succeeds_point _).bind fun _ =>
      Succeeds.modify _).congr ?_
    simp
  have hcopy : ∀ m, Succeeds (env.raises (.uriPartsMember m) = false)
      (copyMember env id (uriParts.readyAt env.now) m) := by
    intro m
    refine ((succeeds_point _).bind fun _ => Succeeds.modify _).congr ?_
    simp
  have hstore : Succeeds (env.raises .uriPartsNode = false ∧
      ∀ m ∈ Member.all, env.raises (.uriPartsMember m) = false)
      (storeUriParts env id (uriParts.readyAt env.now)) := by
    refine ((succeeds_point _).bind fun _ => (Succeeds.modify _).bind fun _ =>
      Succeeds.forM hcopy _).congr ?_
    simp
  have hmounts : Succeeds (∀ p ∈ Profile.all, env.raises (.mediaFactory p) = false)
      (Profile.all.forM fun p =>
        mountFactory gst env (uriParts.mount_points.get p) p (factory p)) :=
    Succeeds.forM (fun p => hmount _ p _) _
  have hcall : Succeeds True (call .unref_mount_points) := Succeeds.modify _
  refine (hmounts.bind fun _ => hcall.bind fun _ => (succeeds_point _).bind fun _ =>
    hstore.bind fun _ => (succeeds_point _).bind fun _ => Succeeds.pure _).congr ?_
  simp only [Point.late, List.forall_mem_append, List.forall_mem_cons, List.forall_mem_map,
    List.not_mem_nil, false_implies, implies_true, and_true, true_and, and_assoc]

/-- `AddRtsp` fails without a trace unless it throws behind its first
`gst_rtsp_mount_points_add_factory`. -/
theorem AddRtsp_unchanged_iff :
    ((AddRtsp gst env id uri s).1 = none → (AddRtsp gst env id uri s).2.toTables = s.toTables) ↔
      ¬(Commits gst env s id uri ∧ ∃ pt ∈ Point.late, env.raises pt = true) := by
  by_cases hc : Commits gst env s id uri
  · obtain ⟨parts, hp, _⟩ := @parseUri_ok {} id uri hc.accepts.slashes
    have hsucceeds := @succeeds_commit gst env id parts (createdFactory s uri)
      { s with objects := s.objects + 4, calls := s.calls ++ [.get_mount_points] }
    have hgrows := @commit_grows gst env
      { s with objects := s.objects + 4, calls := s.calls ++ [.get_mount_points] } id parts
      (createdFactory s uri)
    rw [AddRtsp, catchAll, AddRtsp.body, exec_bind_ok (exec_prepare_commits hc hp), exec_bind]
    rcases he : exec (AddRtsp.commit gst env id parts (createdFactory s uri))
      { s with objects := s.objects + 4, calls := s.calls ++ [.get_mount_points] } with ⟨_ | e, t⟩
    · -- an exception behind the first `add_factory`: it comes from a late point
      rw [he] at hsucceeds hgrows
      have hlate : ∃ pt ∈ Point.late, env.raises pt = true := by
        by_contra hno
        refine absurd (hsucceeds.mpr fun pt hpt => ?_) (by simp [Except.isOk, Except.toBool])
        exact Bool.eq_false_iff.mpr fun h => hno ⟨pt, hpt, h⟩
      refine iff_of_false (fun h => ?_) (fun h => h ⟨hc, hlate⟩)
      have hmounts : t.mounts = s.mounts := congrArg Tables.mounts (h rfl)
      rw [Grown, hmounts] at hgrows
      exact Nat.lt_irrefl _ hgrows
    · rw [he] at hsucceeds
      have hlate := hsucceeds.mp rfl
      refine iff_of_true (fun h => ?_) ?_
      · cases h
      · rintro ⟨_, pt, hpt, hraises⟩
        rw [hlate pt hpt] at hraises
        cases hraises
  · have hkeeps : (exec (AddRtsp.prepare gst env id uri) s).2.toTables = s.toTables :=
      keeps_prepare s.toTables s rfl
    refine iff_of_true (fun _ => ?_) (fun h => hc h.1)
    rw [AddRtsp, catchAll, AddRtsp.body, exec_bind]
    rcases he : exec (AddRtsp.prepare gst env id uri) s with ⟨e | _ | r, t⟩
    · rw [he] at hkeeps
      exact hkeeps
    · rw [he] at hkeeps
      exact hkeeps
    · exact absurd (exec_prepare_eq_some he) hc

/-! ## `RemoveRtsp` -/

/-- `RemoveRtsp` comes as far as taking the stream out of the tables. -/
structure Removes (env : Env) (s : TranscodingService) (id : Str) : Prop where
  lock : env.raises .lock = false
  mounts : env.mounts = true
  known : id ∈ s.uriPartsMap

/-- From there on the stream is gone from `uriPartsMap`, whatever the call returns. -/
theorem RemoveRtsp_removes (h : Removes env s id) :
    ∃ t : TranscodingService, id ∉ t.uriPartsMap ∧
      RemoveRtsp gst env id s =
        (!env.raises .getCurrentTime && !env.raises .printRemoved, t) := by
  obtain ⟨e, he⟩ := (OrdMap.mem_iff _ _).mp h.known
  let u := Profile.all.foldl (fun s p => removeFactory gst s (e.mount_points.get p))
    (RemoveClientWithId gst env id { s with calls := s.calls ++ [.get_mount_points] })
  let v := { u with uriPartsMap := u.uriPartsMap.erase id }
  have hv : id ∉ v.uriPartsMap := by simp [v]
  have hbody : exec (RemoveRtsp.body gst env id) s = exec (do
      env.point .getCurrentTime
      env.point .printRemoved
      call .unref_mount_points
      return true) v := by
    simp only [RemoveRtsp.body, point_of_not_raises h.lock, h.mounts, pure_bind, exec_bind,
      exec_call, exec_get, exec_modify, Bool.not_true, Bool.false_eq_true, ↓reduceIte, he]
    rfl
  rw [RemoveRtsp, catchAll, hbody]
  simp only [exec_bind, exec_point]
  by_cases htime : env.raises .getCurrentTime = true
  · exact ⟨v, hv, by simp [htime]⟩
  · by_cases hprint : env.raises .printRemoved = true
    · exact ⟨v, hv, by simp [htime, hprint]⟩
    · exact ⟨{ v with calls := v.calls ++ [.unref_mount_points] }, hv, by simp [htime, hprint]⟩

theorem RemoveRtsp_refused (h : ¬Removes env s id) :
    (RemoveRtsp gst env id s).2.toTables = s.toTables := by
  rw [RemoveRtsp, catchAll, RemoveRtsp.body, exec_bind, exec_point]
  by_cases hlock : env.raises .lock = true
  · simp [hlock]
  · by_cases hmounts : env.mounts = true
    · have hid : s.uriPartsMap[id]? = none := by
        rw [← OrdMap.not_mem_iff]
        exact fun hid => h ⟨by simpa using hlock, hmounts, hid⟩
      simp [hlock, hmounts, exec_bind, hid]
    · simp [hlock, hmounts]

theorem RemoveRtsp_unchanged_iff :
    ((RemoveRtsp gst env id s).1 = false → (RemoveRtsp gst env id s).2.toTables = s.toTables) ↔
      ¬(Removes env s id ∧
        (env.raises .getCurrentTime = true ∨ env.raises .printRemoved = true)) := by
  by_cases hr : Removes env s id
  · obtain ⟨t, hid, ht⟩ := @RemoveRtsp_removes gst env s id hr
    have hne : t.toTables ≠ s.toTables := by
      intro heq
      rw [heq] at hid
      exact hid hr.known
    rw [ht]
    cases htime : env.raises .getCurrentTime <;> cases hprint : env.raises .printRemoved <;>
      simp [hr, hne]
  · exact iff_of_true (fun _ => RemoveRtsp_refused hr) (fun h => hr h.1)

end TranscodingServer
