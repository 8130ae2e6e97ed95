import TranscodingServer.Library.Runs
import TranscodingServer.Core.Lemmas.Clients
import TranscodingServer.Core.Lemmas.References

/-!
# The events of the RTSP server

A SETUP is two steps: the server finds a factory in its mount table, and later the callback records
the client under `processMutex`.  Between them, and between all other steps, anything may happen.
-/

namespace TranscodingServer

/-- A SETUP request with the path of the mount table that its lookup found. -/
structure Setup where
  client : GstRTSPClient
  session : Option Str
  abspath : Str
  mount : Str
  deriving DecidableEq

def Setup.sessionId (su : Setup) : Str := su.session.getD (str "")

def Setup.info (su : Setup) : ClientInfo := (ClientInfo.new (some su.client) su.sessionId su.abspath).1

/-- The service, and the SETUPs between their lookup and their callback. -/
structure RtspServer where
  service : TranscodingService := {}
  pending : List Setup := []

inductive Event
  | connected (client : GstRTSPClient)
  | lookup (su : Setup)
  | setup (su : Setup)
  | teardown (client : GstRTSPClient) (session : Str)
  | closed (client : GstRTSPClient)
  | AddRtsp (now id uri : Str)
  | RemoveRtsp (now id : Str)
  deriving DecidableEq

def Event.exec (gst : Gst) (r : RtspServer) : Event → RtspServer
  | .connected client => { r with service := client_connected_callback client r.service }
  | .lookup su => { r with pending := su :: r.pending }
  | .setup su => {
      service := setup_request_callback su.client su.session (some su.abspath) r.service
      pending := r.pending.erase su }
  | .teardown client session =>
    { r with service := teardown_request_callback client session r.service }
  | .closed client => { r with service := closed_callback client r.service }
  | .AddRtsp now id uri =>
    { r with service := (TranscodingServer.AddRtsp gst (Env.calm now) id uri r.service).2 }
  | .RemoveRtsp now id =>
    { r with service := (TranscodingServer.RemoveRtsp gst (Env.calm now) id r.service).2 }

/-- A lookup finds a path of the mount table that covers the requested one; a callback belongs to a
lookup. -/
def Event.enabled (r : RtspServer) : Event → Prop
  | .lookup su => (∃ f, (su.mount, f) ∈ r.service.mounts) ∧ UnderPath su.mount su.abspath
  | .setup su => su ∈ r.pending
  | _ => True

def rtspLts (gst : Gst) : Lts RtspServer Event where
  step r e t := e.enabled r ∧ e.exec gst r = t

/-- The server behind a sequence of events, whether they were enabled or not. -/
def serverAfter (gst : Gst) (evs : List Event) : RtspServer := evs.foldl (Event.exec gst) {}

theorem serverAfter_snoc (gst : Gst) (evs : List Event) (e : Event) :
    serverAfter gst (evs ++ [e]) = e.exec gst (serverAfter gst evs) := by
  simp [serverAfter]

variable {gst : Gst} {s : TranscodingService} {now id uri : Str} {info : ClientInfo}

theorem rtspRun_snoc {evs : List Event} (e : Event)
    (h : (rtspLts gst).Run {} evs (serverAfter gst evs)) (he : e.enabled (serverAfter gst evs)) :
    (rtspLts gst).Run {} (evs ++ [e]) (serverAfter gst (evs ++ [e])) :=
  h.snoc ⟨he, (serverAfter_snoc gst evs e).symm⟩

/-! ## The records under events -/

theorem AddRtsp_clientInfos :
    (AddRtsp gst (Env.calm now) id uri s).2.clientInfos = s.clientInfos := by
  rcases AddRtsp_cases gst s now id uri with ⟨parts, _, _, hadd⟩ | ⟨_, hadd⟩
  · rw [hadd]
    rfl
  · rw [hadd]

/-- The records that a removal keeps are not under the stream's mount points, if it removes it. -/
theorem mem_clientInfos_RemoveRtsp
    (h : info ∈ (RemoveRtsp gst (Env.calm now) id s).2.clientInfos) :
    info ∈ s.clientInfos ∧ (id ∈ s.uriPartsMap → ¬UnderMount id info.uri) := by
  rcases RemoveRtsp_cases gst s now id with ⟨e, _, _, hremove⟩ | ⟨hid, hremove⟩
  · rw [hremove, removed_clientInfos, List.mem_filter] at h
    refine ⟨h.1, fun _ hunder => ?_⟩
    rw [hunder.matchesId] at h
    exact absurd h.2 (by decide)
  · rw [hremove] at h
    exact ⟨h, fun hid' => absurd hid' hid⟩

theorem mem_clientInfos_closed {c : GstRTSPClient} :
    info ∈ (closed_callback c s).clientInfos ↔ info ∈ s.clientInfos ∧ info.client ≠ some c := by
  rw [closed_callback, RemoveClientWithClient_some]
  simp

theorem closed_uriPartsMap (c : GstRTSPClient) :
    (closed_callback c s).uriPartsMap = s.uriPartsMap := by
  rw [closed_callback, RemoveClientWithClient_some]

theorem mem_clientInfos_setup {su : Setup} :
    info ∈ (setup_request_callback su.client su.session (some su.abspath) s).clientInfos ↔
      info ∈ s.clientInfos ∨ info = su.info := by
  simp [setup_request_callback, AddClientInfo, Setup.info, Setup.sessionId]

theorem setup_clientInfos (su : Setup) :
    (setup_request_callback su.client su.session (some su.abspath) s).clientInfos =
      s.clientInfos ++ [su.info] := rfl

/-- Only the callback of a SETUP adds a record. -/
theorem exec_clientInfos_sublist {r : RtspServer} {e : Event} (h : ∀ su, e ≠ .setup su) :
    ((e.exec gst r).service.clientInfos).Sublist r.service.clientInfos := by
  cases e with
  | setup su => exact absurd rfl (h su)
  | connected client => exact .refl _
  | lookup su => exact .refl _
  | teardown client session => exact .refl _
  | closed client =>
      rw [Event.exec, closed_callback, RemoveClientWithClient_some]
      exact List.filter_sublist
  | AddRtsp now id uri =>
      rw [Event.exec, AddRtsp_clientInfos]
  | RemoveRtsp now id =>
      rw [Event.exec]
      rcases RemoveRtsp_cases gst r.service now id with ⟨e, _, _, hremove⟩ | ⟨_, hremove⟩
      · rw [hremove, removed_clientInfos]
        exact List.filter_sublist
      · rw [hremove]

/-! ## The connections under events -/

open Balance

/-- Only a removal releases a connection. -/
theorem exec_connection {r : RtspServer} {e : Event} (conn : GstRTSPConnection)
    (h : ∀ now id, e ≠ .RemoveRtsp now id) :
    net (connectionWeight conn) (e.exec gst r).service.calls =
      net (connectionWeight conn) r.service.calls := by
  cases e with
  | RemoveRtsp now id => exact absurd rfl (h now id)
  | connected client => rfl
  | lookup su => rfl
  | teardown client session => rfl
  | setup su =>
      exact net_append_of_zero _ rfl
  | closed client =>
      have hclose : ∀ info : ClientInfo, net (connectionWeight conn)
          ([GstCall.client_close client] ++ info.release) = 0 := by
        intro info
        rw [net_append, net_connection_release]
        rfl
      rw [Event.exec, closed_callback, RemoveClientWithClient_some]
      exact net_append_of_zero _ (net_flatMap_eq_zero _ hclose)
  | AddRtsp now id uri =>
      rw [Event.exec]
      rcases AddRtsp_cases gst r.service now id uri with ⟨parts, _, _, hadd⟩ | ⟨_, hadd⟩
      · rw [hadd]
        exact net_append_of_zero _ rfl
      · rw [hadd]

/-- A removal that finds its stream releases the connection of every matching record. -/
theorem RemoveRtsp_connection (conn : GstRTSPConnection) :
    net (connectionWeight conn) (RemoveRtsp gst (Env.calm now) id s).2.calls =
      net (connectionWeight conn) s.calls - if id ∈ s.uriPartsMap then
        ((s.clientInfos.filter (matchesId id)).countP (usesConnection gst conn) : Int) else 0 := by
  have hget : net (connectionWeight conn) (s.calls ++ [.get_mount_points]) =
      net (connectionWeight conn) s.calls := net_append_of_zero _ rfl
  rcases RemoveRtsp_cases gst s now id with ⟨e, _, hid, hremove⟩ | ⟨hid, hremove⟩
  · have hpurged := @purged_connection gst { s with calls := s.calls ++ [.get_mount_points] } id conn
    rw [hremove, removed_calls, if_pos hid, ← hget]
    exact (net_append_of_zero _ rfl).trans hpurged
  · rw [hremove, if_neg hid, hget, Int.sub_zero]

end TranscodingServer
