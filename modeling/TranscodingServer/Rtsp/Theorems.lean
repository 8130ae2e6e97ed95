import Mathlib.Data.List.Dedup
import TranscodingServer.Core.Reports
import TranscodingServer.Rtsp.Events

/-!
# Client records and their streams and sessions

`RemoveRtsp` disconnects the clients of a stream before it takes the stream away, and
`closed_callback` drops the records of a client.  What the two miss are the SETUPs whose callback
comes too late and the sessions that were torn down.  A repeated SETUP is recorded again, and a removal
releases connections that the service never acquired.
-/

namespace TranscodingServer

open Lts Balance

variable {gst : Gst} {r t : RtspServer} {e : Event} {evs : List Event}

/-! ## Records and streams -/

def NoGhosts (s : TranscodingService) : Prop :=
  ∀ info ∈ s.clientInfos, ∃ id ∈ s.uriPartsMap, UnderMount id info.uri

/-- A callback finds the mount point of its lookup still in the hands of a registered stream. -/
def StillMounted (r : RtspServer) : Event → Prop
  | .setup su => ∃ id ∈ r.service.uriPartsMap, ∃ p, su.mount = mountPoint id p
  | _ => True

structure Covered (r : RtspServer) : Prop where
  records : NoGhosts r.service
  pending : ∀ su ∈ r.pending, UnderPath su.mount su.abspath

theorem NoGhosts.removeRtsp {s : TranscodingService} {now id : Str} (h : NoGhosts s) :
    NoGhosts (RemoveRtsp gst (Env.calm now) id s).2 := by
  intro info hinfo
  obtain ⟨hold, hnot⟩ := mem_clientInfos_RemoveRtsp hinfo
  obtain ⟨k, hk, hunder⟩ := h info hold
  have hne : id ≠ k := by
    rintro rfl
    exact hnot hk hunder
  exact ⟨k, mem_uriPartsMap_RemoveRtsp.mpr ⟨hne, hk⟩, hunder⟩

theorem Covered.step (h : Covered r) (hmounted : StillMounted r e) (hstep : (rtspLts gst).step r e t) :
    Covered t := by
  obtain ⟨henabled, rfl⟩ := hstep
  cases e with
  | connected client => exact h
  | lookup su =>
      refine ⟨h.records, fun su' hsu' => ?_⟩
      rcases List.mem_cons.mp hsu' with rfl | hold
      · exact henabled.2
      · exact h.pending su' hold
  | setup su =>
      refine ⟨fun info hinfo => ?_, fun su' hsu' => h.pending su' (List.mem_of_mem_erase hsu')⟩
      rcases mem_clientInfos_setup.mp hinfo with hold | rfl
      · exact h.records info hold
      · -- the path of the new record is under the mount point of its lookup
        obtain ⟨id, hid, p, hp⟩ := hmounted
        have hunder := h.pending su henabled
        rw [hp] at hunder
        exact ⟨id, hid, p, hunder⟩
  | teardown client session => exact h
  | closed client =>
      refine ⟨fun info hinfo => ?_, h.pending⟩
      obtain ⟨id, hid, hunder⟩ := h.records info (mem_clientInfos_closed.mp hinfo).1
      exact ⟨id, by rwa [Event.exec, closed_uriPartsMap], hunder⟩
  | AddRtsp now id uri =>
      refine ⟨fun info hinfo => ?_, h.pending⟩
      rw [Event.exec, AddRtsp_clientInfos] at hinfo
      obtain ⟨k, hk, hunder⟩ := h.records info hinfo
      exact ⟨k, mem_uriPartsMap_AddRtsp.mpr (.inr hk), hunder⟩
  | RemoveRtsp now id => exact ⟨h.records.removeRtsp, h.pending⟩

/-- No record outlives its stream in a run whose callbacks all find the stream of their lookup. -/
theorem no_ghosts {tr : List Event}
    (h : ((rtspLts gst).restrict StillMounted).Run {} tr r) : NoGhosts r.service := by
  have hcovered : Covered r := by
    refine h.invariant ?_ ⟨?_, ?_⟩
    · rintro r e t hr ⟨hmounted, hstep⟩
      exact hr.step hmounted hstep
    · intro info hinfo
      simp at hinfo
    · intro su hsu
      simp at hsu
  exact hcovered.records

def cam1Setup : Setup where
  client := 7
  session := some (str "5F21")
  abspath := str "/cam1/first/stream=0"
  mount := str "/cam1/first"

def addCam1 : Event := .AddRtsp (str "") (str "cam1") (str "rtsp://10.0.0.1/live")

def removeCam1 : Event := .RemoveRtsp (str "") (str "cam1")

theorem lookup_cam1_enabled :
    (Event.lookup cam1Setup).enabled (serverAfter Gst.sequence [addCam1]) :=
  ⟨⟨createdFactory {} (str "rtsp://10.0.0.1/live") .first, by decide +kernel⟩, by decide⟩

theorem lookup_cam1_run :
    (rtspLts Gst.sequence).Run {} [addCam1, .lookup cam1Setup]
      (serverAfter Gst.sequence [addCam1, .lookup cam1Setup]) :=
  rtspRun_snoc _ (rtspRun_snoc addCam1 .nil trivial) lookup_cam1_enabled

theorem setup_cam1_run :
    (rtspLts Gst.sequence).Run {} [addCam1, .lookup cam1Setup, .setup cam1Setup]
      (serverAfter Gst.sequence [addCam1, .lookup cam1Setup, .setup cam1Setup]) :=
  rtspRun_snoc (.setup cam1Setup) lookup_cam1_run (List.mem_singleton.mpr rfl)

theorem no_ghosts_cam1 :
    NoGhosts (serverAfter Gst.sequence [addCam1, .lookup cam1Setup, .setup cam1Setup]).service := by
  have hadd : ((rtspLts Gst.sequence).restrict StillMounted).Run {} [addCam1]
      (serverAfter Gst.sequence [addCam1]) := .single ⟨trivial, trivial, rfl⟩
  have hlookup : ((rtspLts Gst.sequence).restrict StillMounted).Run {}
      [addCam1, .lookup cam1Setup] (serverAfter Gst.sequence [addCam1, .lookup cam1Setup]) :=
    hadd.snoc ⟨trivial, lookup_cam1_enabled, rfl⟩
  have hmounted : StillMounted (serverAfter Gst.sequence [addCam1, .lookup cam1Setup])
      (.setup cam1Setup) := ⟨str "cam1", by decide +kernel, .first, by decide⟩
  exact no_ghosts (hlookup.snoc ⟨hmounted, List.mem_singleton.mpr rfl, rfl⟩)

/-- The stream is removed between the lookup and the callback of a SETUP. -/
theorem ghost_of_late_callback :
    ∃ tr r, (rtspLts Gst.sequence).Run {} tr r ∧ ¬NoGhosts r.service := by
  have hsetup : (rtspLts Gst.sequence).Run {}
      [addCam1, .lookup cam1Setup, removeCam1, .setup cam1Setup]
      (serverAfter Gst.sequence [addCam1, .lookup cam1Setup, removeCam1, .setup cam1Setup]) :=
    rtspRun_snoc (.setup cam1Setup) (rtspRun_snoc removeCam1 lookup_cam1_run trivial)
      (List.mem_singleton.mpr rfl)
  refine ⟨_, _, hsetup, fun h => ?_⟩
  obtain ⟨id, hid, _⟩ := h cam1Setup.info (by decide +kernel)
  have hempty : (serverAfter Gst.sequence
      [addCam1, .lookup cam1Setup, removeCam1, .setup cam1Setup]).service.uriPartsMap = ∅ := by
    decide +kernel
  rw [hempty] at hid
  exact Std.ExtTreeMap.not_mem_empty hid

/-! ## Records and sessions -/

/-- The session has a SETUP that neither its TEARDOWN nor the closing of its client follows. -/
def SessionLive (evs : List Event) (session : Str) : Prop :=
  ∃ pre su post, evs = pre ++ .setup su :: post ∧ su.sessionId = session ∧
    (∀ client, .teardown client session ∉ post) ∧ .closed su.client ∉ post

theorem not_sessionLive_teardown (client : GstRTSPClient) (session : Str) :
    ¬SessionLive (evs ++ [.teardown client session]) session := by
  rintro ⟨pre, su, post, hevs, _, hpost, _⟩
  rcases List.eq_nil_or_concat post with rfl | ⟨post', last, rfl⟩
  · have hlast := (List.append_inj' hevs rfl).2
    simp at hlast
  · rw [List.concat_eq_append] at hpost
    rw [List.concat_eq_append, ← List.cons_append, ← List.append_assoc] at hevs
    have hlast := (List.append_inj' hevs rfl).2
    rw [List.singleton_inj] at hlast
    exact hpost client (by simp [← hlast])

def SessionsLive (gst : Gst) (evs : List Event) : Prop :=
  ∀ i ∈ (GetClientSessions (serverAfter gst evs).service).list, SessionLive evs i.session_id

/-- A TEARDOWN finds no record of its session. -/
def TeardownAfterRecords (r : RtspServer) : Event → Prop
  | .teardown _ session => ∀ info ∈ r.service.clientInfos, info.session_id ≠ session
  | _ => True

/-- The SETUP of a record, with nothing behind it that ends the session. -/
def RecordLive (evs : List Event) (info : ClientInfo) : Prop :=
  ∃ pre su post, evs = pre ++ .setup su :: post ∧ info = su.info ∧
    (∀ client, .teardown client info.session_id ∉ post) ∧ .closed su.client ∉ post

theorem RecordLive.snoc {info : ClientInfo} (h : RecordLive evs info)
    (hteardown : ∀ client, e ≠ .teardown client info.session_id)
    (hclosed : ∀ client, info.client = some client → e ≠ .closed client) :
    RecordLive (evs ++ [e]) info := by
  obtain ⟨pre, su, post, rfl, rfl, hpost, hpost'⟩ := h
  refine ⟨pre, su, post ++ [e], by simp, rfl, fun client hmem => ?_, fun hmem => ?_⟩
  · rcases List.mem_append.mp hmem with hold | hlast
    · exact hpost client hold
    · exact hteardown client (List.mem_singleton.mp hlast).symm
  · rcases List.mem_append.mp hmem with hold | hlast
    · exact hpost' hold
    · exact hclosed su.client rfl (List.mem_singleton.mp hlast).symm

theorem recordLive_step
    (h : ∀ info ∈ (serverAfter gst evs).service.clientInfos, RecordLive evs info)
    (hsafe : TeardownAfterRecords (serverAfter gst evs) e) :
    ∀ info ∈ (serverAfter gst (evs ++ [e])).service.clientInfos, RecordLive (evs ++ [e]) info := by
  intro info hinfo
  rw [serverAfter_snoc] at hinfo
  cases e with
  | connected client => exact (h info hinfo).snoc (by simp) (by simp)
  | lookup su => exact (h info hinfo).snoc (by simp) (by simp)
  | setup su =>
      rcases mem_clientInfos_setup.mp hinfo with hold | rfl
      · exact (h info hold).snoc (by simp) (by simp)
      · exact ⟨evs, su, [], rfl, rfl, by simp, by simp⟩
  | teardown client session =>
      refine (h info hinfo).snoc (fun client' he => ?_) (by simp)
      cases he
      exact hsafe info hinfo rfl
  | closed client =>
      obtain ⟨hold, hne⟩ := mem_clientInfos_closed.mp hinfo
      refine (h info hold).snoc (by simp) fun client' hclient he => ?_
      cases he
      exact hne hclient
  | AddRtsp now id uri =>
      rw [Event.exec, AddRtsp_clientInfos] at hinfo
      exact (h info hinfo).snoc (by simp) (by simp)
  | RemoveRtsp now id =>
      exact (h info (mem_clientInfos_RemoveRtsp hinfo).1).snoc (by simp) (by simp)

/-- The listed sessions are live all along a run exactly when no TEARDOWN finds a record of its
session. -/
theorem sessions_live_iff (gst : Gst) (evs : List Event) :
    (∀ pre, pre <+: evs → SessionsLive gst pre) ↔
      ∀ pre e, pre ++ [e] <+: evs → TeardownAfterRecords (serverAfter gst pre) e := by
  refine forall_prefix_iff
    (I := fun evs => ∀ info ∈ (serverAfter gst evs).service.clientInfos, RecordLive evs info)
    ?_ ?_ (fun evs e h hsafe => recordLive_step h hsafe) ?_ evs
  · intro evs h i hi
    obtain ⟨info, hinfo, rfl⟩ := mem_GetClientSessions.mp hi
    obtain ⟨pre, su, post, hevs, rfl, hpost, hpost'⟩ := h info hinfo
    exact ⟨pre, su, post, hevs, rfl, hpost, hpost'⟩
  · intro info hinfo
    simp [serverAfter] at hinfo
  · intro evs e _ hno hlive
    cases e with
    | teardown client session =>
        refine hno fun info hinfo hsession => ?_
        have hlist : info.sessionInfo ∈
            (GetClientSessions (serverAfter gst (evs ++ [.teardown client session])).service).list :=
          mem_GetClientSessions.mpr ⟨info, by rwa [serverAfter_snoc], rfl⟩
        have hsessionLive := hlive _ hlist
        rw [show info.sessionInfo.session_id = session from hsession] at hsessionLive
        exact not_sessionLive_teardown client session hsessionLive
    | _ => exact hno trivial

/-- A client tears its session down and keeps its connection. -/
theorem session_listed_after_teardown :
    ∃ evs r, (rtspLts Gst.sequence).Run {} evs r ∧ r = serverAfter Gst.sequence evs ∧
      ¬SessionsLive Gst.sequence evs := by
  have hlookup : (rtspLts Gst.sequence).Run {} [addCam1, .connected 7, .lookup cam1Setup]
      (serverAfter Gst.sequence [addCam1, .connected 7, .lookup cam1Setup]) :=
    rtspRun_snoc _ (rtspRun_snoc (.connected 7) (rtspRun_snoc addCam1 .nil trivial) trivial)
      lookup_cam1_enabled
  have hteardown : (rtspLts Gst.sequence).Run {}
      [addCam1, .connected 7, .lookup cam1Setup, .setup cam1Setup, .teardown 7 (str "5F21")]
      (serverAfter Gst.sequence
        [addCam1, .connected 7, .lookup cam1Setup, .setup cam1Setup, .teardown 7 (str "5F21")]) :=
    rtspRun_snoc (.teardown 7 (str "5F21"))
      (rtspRun_snoc (.setup cam1Setup) hlookup (List.mem_singleton.mpr rfl)) trivial
  refine ⟨_, _, hteardown, rfl, fun h => ?_⟩
  exact @not_sessionLive_teardown [addCam1, .connected 7, .lookup cam1Setup, .setup cam1Setup] 7
    (str "5F21") (h cam1Setup.info.sessionInfo (by decide +kernel))

/-! ## One record for each session -/

/-- No record is there twice, the report lists the session of each record once and nothing else, and
its count is the number of the distinct sessions. -/
structure SessionsOnce (s : TranscodingService) : Prop where
  records : s.clientInfos.Nodup
  listed : ∀ info ∈ s.clientInfos, (GetClientSessions s).list.count info.sessionInfo = 1
  only : ∀ i ∈ (GetClientSessions s).list, ∃ info ∈ s.clientInfos, info.sessionInfo = i
  count : (GetClientSessions s).count = (s.clientInfos.map ClientInfo.sessionInfo).dedup.length

theorem sessionsOnce_iff {s : TranscodingService} :
    SessionsOnce s ↔
      (s.clientInfos.map ClientInfo.sessionInfo).Nodup ∧ s.clientInfos.length < 2 ^ 31 := by
  constructor
  · intro h
    have hnodup : (s.clientInfos.map ClientInfo.sessionInfo).Nodup := by
      refine List.nodup_iff_count_eq_one.mpr fun i hi => ?_
      obtain ⟨info, hinfo, rfl⟩ := List.mem_map.mp hi
      exact h.listed info hinfo
    have hcount := h.count
    rw [hnodup.dedup, List.length_map, GetClientSessions_count, static_cast_int_eq_iff] at hcount
    exact ⟨hnodup, hcount⟩
  · rintro ⟨hnodup, hlen⟩
    refine ⟨.of_map _ hnodup, fun info hinfo => ?_, fun i => mem_GetClientSessions.mp, ?_⟩
    · exact List.count_eq_one_of_mem hnodup (List.mem_map_of_mem hinfo)
    · rw [hnodup.dedup, List.length_map, GetClientSessions_count, static_cast_int_eq_iff]
      exact hlen

/-- A callback finds no record of its session and path, of whatever client, and room for one more. -/
def FreshSetup (r : RtspServer) : Event → Prop
  | .setup su => (∀ info ∈ r.service.clientInfos, info.sessionInfo ≠ su.info.sessionInfo) ∧
      r.service.clientInfos.length + 1 < 2 ^ 31
  | _ => True

theorem sessionsOnce_setup {s : TranscodingService} (su : Setup) (h : SessionsOnce s) :
    SessionsOnce (setup_request_callback su.client su.session (some su.abspath) s) ↔
      (∀ info ∈ s.clientInfos, info.sessionInfo ≠ su.info.sessionInfo) ∧
        s.clientInfos.length + 1 < 2 ^ 31 := by
  have hnodup := (sessionsOnce_iff.mp h).1
  have hnew : (s.clientInfos.map ClientInfo.sessionInfo ++ [su.info.sessionInfo]).Nodup ↔
      ∀ info ∈ s.clientInfos, info.sessionInfo ≠ su.info.sessionInfo := by
    rw [← List.concat_eq_append, List.nodup_concat, and_iff_left hnodup]
    simp
  rw [sessionsOnce_iff, setup_clientInfos, List.map_append, List.map_singleton, hnew,
    List.length_append, List.length_singleton]

/-- Every session is recorded, listed and counted once all along a run exactly when no callback finds
a record of its session and path, and the records are fewer than `2 ^ 31`. -/
theorem sessions_once_iff (gst : Gst) (evs : List Event) :
    (∀ pre, pre <+: evs → SessionsOnce (serverAfter gst pre).service) ↔
      ∀ pre e, pre ++ [e] <+: evs → FreshSetup (serverAfter gst pre) e := by
  refine forall_prefix_iff (I := fun evs => SessionsOnce (serverAfter gst evs).service)
    (fun _ h => h) (sessionsOnce_iff.mpr ⟨List.nodup_nil, Nat.two_pow_pos 31⟩) ?_ ?_ evs
  · intro evs e h hfresh
    rw [serverAfter_snoc]
    by_cases hsetup : ∃ su, e = .setup su
    · obtain ⟨su, rfl⟩ := hsetup
      exact (sessionsOnce_setup su h).mpr hfresh
    · have hsub := @exec_clientInfos_sublist gst (serverAfter gst evs) e
        fun su he => hsetup ⟨su, he⟩
      obtain ⟨hnodup, hlen⟩ := sessionsOnce_iff.mp h
      exact sessionsOnce_iff.mpr
        ⟨hnodup.sublist (hsub.map _), Nat.lt_of_le_of_lt hsub.length_le hlen⟩
  · intro evs e h hfresh honce
    rw [serverAfter_snoc] at honce
    cases e with
    | setup su => exact hfresh ((sessionsOnce_setup su h).mp honce)
    | _ => exact hfresh trivial

/-- A client sends the same SETUP once more. -/
theorem session_recorded_twice :
    ∃ tr r, (rtspLts Gst.sequence).Run {} tr r ∧ ¬SessionsOnce r.service := by
  have hlookup := rtspRun_snoc (.lookup cam1Setup) setup_cam1_run
    ⟨⟨createdFactory {} (str "rtsp://10.0.0.1/live") .first, by decide +kernel⟩, by decide⟩
  have hsetup := rtspRun_snoc (.setup cam1Setup) hlookup (List.mem_singleton.mpr rfl)
  refine ⟨_, _, hsetup, fun h => ?_⟩
  exact absurd h.records (by decide +kernel)

/-! ## Connections -/

/-- A removal that finds its stream matches no record whose client has a connection. -/
def SparesConnections (gst : Gst) (r : RtspServer) : Event → Prop
  | .RemoveRtsp _ id => id ∈ r.service.uriPartsMap → ∀ info ∈ r.service.clientInfos,
      matchesId id info = true → info.client.bind gst.get_connection = none
  | _ => True

/-- The calls that `RemoveClientWithId` adds. -/
def callsOfRemoval (gst : Gst) (now id : Str) (s : TranscodingService) : List GstCall :=
  (RemoveClientWithId gst (Env.calm now) id s).calls.drop s.calls.length

/-- The matching records use no connection exactly when none of them has one. -/
theorem matching_use_none_iff {s : TranscodingService} {id : Str} :
    (∀ conn, (s.clientInfos.filter (matchesId id)).countP (usesConnection gst conn) = 0) ↔
      ∀ info ∈ s.clientInfos, matchesId id info = true →
        info.client.bind gst.get_connection = none := by
  simp only [List.countP_eq_zero, List.mem_filter, usesConnection, beq_iff_eq]
  constructor
  · intro h info hinfo hmatch
    cases hconn : info.client.bind gst.get_connection with
    | none => rfl
    | some conn => exact absurd hconn (h conn info ⟨hinfo, hmatch⟩)
  · intro h conn info hinfo hconn
    rw [h info hinfo.1 hinfo.2] at hconn
    cases hconn

theorem net_callsOfRemoval (conn : GstRTSPConnection) (now id : Str) (s : TranscodingService) :
    net (connectionWeight conn) (callsOfRemoval gst now id s) =
      -((s.clientInfos.filter (matchesId id)).countP (usesConnection gst conn) : Int) := by
  have hsplit := @purged_connection gst s id conn
  rw [callsOfRemoval, RemoveClientWithId_calm]
  rw [TranscodingService.purged, net_append] at hsplit
  rw [TranscodingService.purged, List.drop_left]
  omega

/-- The service releases no connection that it does not own, in one removal or all along a run, exactly
when no removal matches a record whose client has a connection: it never owns one. -/
theorem connections_owned_iff (gst : Gst) :
    (∀ now id s, (∀ conn, 0 ≤ net (connectionWeight conn) (callsOfRemoval gst now id s)) ↔
      ∀ info ∈ s.clientInfos, matchesId id info = true →
        info.client.bind gst.get_connection = none) ∧
    ∀ evs, (∀ pre, pre <+: evs →
        ∀ conn, 0 ≤ net (connectionWeight conn) (serverAfter gst pre).service.calls) ↔
      ∀ pre e, pre ++ [e] <+: evs → SparesConnections gst (serverAfter gst pre) e := by
  constructor
  · intro now id s
    rw [← matching_use_none_iff]
    refine forall_congr' fun conn => ?_
    rw [net_callsOfRemoval]
    omega
  · intro evs
    refine forall_prefix_iff (I := fun evs =>
      ∀ conn, 0 ≤ net (connectionWeight conn) (serverAfter gst evs).service.calls)
      (fun _ h => h) (fun _ => Int.le_refl 0) ?_ ?_ evs
    · intro evs e h hspares conn
      rw [serverAfter_snoc]
      by_cases hremove : ∃ now id, e = .RemoveRtsp now id
      · obtain ⟨now, id, rfl⟩ := hremove
        rw [Event.exec, RemoveRtsp_connection]
        split
        · rename_i hid
          rw [matching_use_none_iff.mpr (hspares hid) conn]
          simpa using h conn
        · simpa using h conn
      · rw [exec_connection conn fun now id he => hremove ⟨now, id, he⟩]
        exact h conn
    · intro evs e h hspares howned
      cases e with
      | RemoveRtsp now id =>
          refine hspares fun hid => matching_use_none_iff.mp fun conn => ?_
          have hbefore := net_nonpos (connectionWeight_nonpos conn) (serverAfter gst evs).service.calls
          have hafter := howned conn
          rw [serverAfter_snoc, Event.exec, RemoveRtsp_connection, if_pos hid] at hafter
          omega
      | _ => exact hspares trivial

/-- A client sets `cam1` up, and `cam1` is removed. -/
theorem connection_overreleased :
    ∃ tr r, (rtspLts Gst.sequence).Run {} tr r ∧
      ¬∀ conn, 0 ≤ net (connectionWeight conn) r.service.calls := by
  refine ⟨_, _, rtspRun_snoc removeCam1 setup_cam1_run trivial, fun h => ?_⟩
  have hseven := h 7
  revert hseven
  decide +kernel

end TranscodingServer
