import TranscodingServer.Http.Lemmas.Progress
import TranscodingServer.Http.Wire

/-!
# What the server answers

Any number of requests with any bodies, statement by statement beside each other and beside the
clients of the RTSP server.
-/

namespace TranscodingServer

open Lts Locking

/-- The response to a batch whose handler made the calls `ls`: `Sent` for a batch without a malformed
item, whatever the calls returned. -/
inductive BatchResponse {ι : Type} (args : Json → Except Nat ι) (Made : ι → Call × Ret → Prop)
    (Sent : HttpResponse → Prop) (Carried : List Json → Prop) (ls : List (Call × Ret))
    (response : HttpResponse) : Prop
  | noList : (∀ l, ¬Carried l) → ls = [] → (Response.status 400).Sends response →
      BatchResponse args Made Sent Carried ls response
  | malformed (l : List Json) (items : List ι) (code : Nat) (rest : List (Except Nat ι)) :
      Carried l → l.map args = items.map .ok ++ .error code :: rest → List.Forall₂ Made items ls →
      (Response.status code).Sends response → BatchResponse args Made Sent Carried ls response
  | done (l : List Json) (items : List ι) :
      Carried l → l.map args = items.map .ok → List.Forall₂ Made items ls → Sent response →
      BatchResponse args Made Sent Carried ls response

section Bodies

variable {sort : List (Str × Json) → List (Str × Json)} {key body : Str}

end Bodies

variable {gst : Gst} {s : TranscodingService} {log : List (Call × Ret)}

theorem LoopProgress.response {ι α : Type} {args : Json → Except Nat ι}
    {call : ι → List Json → α → Handler} {send : α → Response Wvalue} {Made : ι → Call × Ret → Prop}
    {filled : List (Call × Ret) → α} {json : List Json} {ls : List (Call × Ret)}
    {reply : Response Wvalue} {response : HttpResponse} {Sent : HttpResponse → Prop}
    {Carried : List Json → Prop} (hcall : ∀ i rest acc r, call i rest acc ≠ .sent r)
    (hsent : (send (filled ls)).Sends response → Sent response) (hcarried : Carried json)
    (h : LoopProgress args call send Made filled json ls (.sent reply)) (hsends : reply.Sends response) :
    BatchResponse args Made Sent Carried ls response := by
  obtain ⟨items, todo, hjson, hmade, hnext⟩ := h
  cases todo with
  | nil =>
      cases hnext
      exact .done json items hcarried (by simpa using hjson) hmade (hsent hsends)
  | cons item rest =>
      rw [nextCall] at hnext
      cases hargs : args item with
      | error code =>
          rw [hargs] at hnext
          cases hnext
          exact .malformed json items code (rest.map args) hcarried (by simpa [hargs] using hjson) hmade
            hsends
      | ok i =>
          rw [hargs] at hnext
          exact absurd hnext.symm (hcall i rest _ _)

/-! ## What a client has read -/

section Client

variable {sort : List (Str × Json) → List (Str × Json)} {response : HttpResponse}

theorem addArgs_error {item : Json} {code : Nat} (h : addArgs item = .error code) :
    code = 400 ∨ code = 500 := by
  unfold addArgs at h
  split at h
  · split at h
    · cases h
    · cases h
      exact .inr rfl
  · cases h
    exact .inl rfl

theorem not_sends_200 {code : Nat} (hcode : code = 400 ∨ code = 500) (hresponse : response.code = 200) :
    ¬(Response.status code).Sends response := by
  intro h
  cases h with
  | status code read => rcases hcode with rfl | rfl <;> cases hresponse

theorem listed_eq_some {c : Call × Ret} {m : MediaInfo} (h : listed c = some m) :
    ∃ now id uri e, c = (.AddRtsp now id uri, .uriParts (some e)) ∧ m = e.uriInfo id := by
  unfold listed at h
  split at h
  · cases h
    exact ⟨_, _, _, _, rfl, rfl⟩
  · cases h

/-- An object that the answer to an addition lists is that of one of its calls. -/
theorem BatchResponse.listed {Carried : List Json → Prop} {ls : List (Call × Ret)}
    {report : Report MediaInfo} {m : MediaInfo}
    (h : BatchResponse addArgs Addition
      (Reads sort (Report.ofJson MediaInfo.ofJson) · (addResult (.filled ls))) Carried ls response)
    (hreads : Reads sort (Report.ofJson MediaInfo.ofJson) response report) (hm : m ∈ report.list) :
    ∃ now id uri e, (.AddRtsp now id uri, .uriParts (some e)) ∈ ls ∧ m = e.uriInfo id := by
  cases h with
  | noList _ _ hsends => exact absurd hsends (not_sends_200 (.inl rfl) hreads.1)
  | malformed l items code rest _ hargs _ hsends =>
      have hcode : .error code ∈ l.map addArgs := hargs ▸ by simp
      obtain ⟨item, _, hitem⟩ := List.mem_map.mp hcode
      exact absurd hsends (not_sends_200 (addArgs_error hitem) hreads.1)
  | done l items _ _ _ hsent =>
      rw [hreads.unique hsent] at hm
      obtain ⟨c, hc, hlisted⟩ := List.mem_filterMap.mp hm
      obtain ⟨now, id, uri, e, rfl, rfl⟩ := listed_eq_some hlisted
      exact ⟨now, id, uri, e, hc, rfl⟩

end Client

section Server

variable {sort : List (Str × Json) → List (Str × Json)} {requests : List HttpRequest} {n : Nat}
  {tr : List (Nat × Option (Method × Answer))}
  {x : Threads TranscodingService Handler Method Answer}

theorem handlers_request {k : Nat} {q : HttpRequest} (hk : requests[k]? = some q) :
    (handlers sort requests n)[k]? = some (q.start sort) := by
  have hlt : k < requests.length := (List.getElem?_eq_some_iff.mp hk).1
  rw [handlers, List.getElem?_append_left (by simpa using hlt), List.getElem?_map, hk]
  rfl

/-- The calls that have ended their sections, as whole calls of the handlers. -/
theorem handlers_run (h : ServerRun sort gst requests n tr x) :
    ∃ t, (Pool.lts (Handler.Step gst)).Run ({}, handlers sort requests n) (ended tr)
      (t, x.jobs (serverJobs gst)) := by
  obtain ⟨t, _, hrun⟩ := serial_threads h
  exact ⟨t, hrun⟩

section Answers

variable (hsort : ∀ fields, (sort fields).Perm fields) {k : Nat} {body : Str} {reply : Response Wvalue}
  {response : HttpResponse} {calls : List (Nat × Method × Answer)} {c : TranscodingService × List Handler}
  (hrun : (Pool.lts (Handler.Step gst)).Run ({}, handlers sort requests n) calls c)

include hsort hrun

end Answers

/-- No request can get stuck: from every state of a run the threads can go on so that every request
is answered, and neither the other requests nor the clients can prevent it. -/
theorem server_can_answer (gst : Gst) (requests : List HttpRequest) (n : Nat)
    (h : ServerRun sort gst requests n tr x) :
    ∃ tr' t hs, (threadsLts (serverJobs gst)).Run x tr' (.idle hs t) ∧
      ∀ (k : Nat) q, requests[k]? = some q →
        ∃ reply response, hs[k]? = some (.sent reply) ∧ reply.Sends response := by
  obtain ⟨t, hserial, _⟩ := serial_threads h
  obtain ⟨tr', t', hs, hrun, hdone⟩ := hserial.finishes (w := Handler.calls)
    (fun _ c _ => guarded_statements c) (fun _ hcalls => Handler.starts_of_calls hcalls) (by
      intro j c s hcalls hstart
      have hexec : (c.statements gst).run s = c.exec gst s := run_statements c s
      have hstep : Handler.Step gst j s (c, (c.exec gst s).1)
        (j.resume (c.exec gst s).1) (c.exec gst s).2 := ⟨hstart, rfl, rfl⟩
      exact hexec ▸ hstep.calls_lt hcalls)
  refine ⟨tr', t', hs, hrun, fun k q hk => ?_⟩
  obtain ⟨u, hpool⟩ := handlers_run (h.append hrun)
  obtain ⟨h', hh', hjob⟩ := Pool.run_job hpool (handlers_request hk)
  have hne : h' ≠ .clients := by
    refine hjob.invariant (P := (· ≠ Handler.clients)) ?_ (start_ne_clients q)
    rintro h l h' hne ⟨s, t, hstep⟩
    exact hstep.ne_clients hne
  rw [idle_jobs] at hh'
  have hcalls := hdone h' (List.mem_of_getElem? hh')
  cases h' with
  | sent reply =>
      obtain ⟨response, hsends⟩ := sends_something reply
      exact ⟨reply, response, hh', hsends⟩
  | clients => exact absurd rfl hne
  | add item rest acc => cases hcalls
  | remove id rest failedUrls => cases hcalls
  | getMedias => cases hcalls
  | getSessions => cases hcalls

end Server

/-! ## A server with one stream -/

def camRequests : List HttpRequest := [.postAdd camBody, .getMedias]

/-- The stream is added, and then listed. -/
theorem cam_run : ∃ e t tr tr', ServerRun id Gst.sequence camRequests 1 tr
      (.idle [.sent (sendMedias (camAdded e)), .getMedias, .clients] t) ∧
    (threadsLts (serverJobs Gst.sequence)).Run
      (.idle [.sent (sendMedias (camAdded e)), .getMedias, .clients] t) tr'
      (.idle [.sent (sendMedias (camAdded e)), .sent (sendMedias (GetMedias t)), .clients] t) ∧
    ended tr = [(0, .AddRtsp (Env.calm (str "")) (str "cam") camUrl, .uriParts (some e))] ∧
    ended tr' = [(1, .GetMedias, .medias (GetMedias t))] := by
  obtain ⟨parts, _, hadd⟩ := @AddRtsp_accepted _ _ (str "") _ _ cam_accepted
  generalize parts.readyAt (str "") = e at hadd
  generalize TranscodingService.added _ _ _ _ _ = t at hadd
  have hfirst : (Pool.lts (Handler.Step Gst.sequence)).Run
      ({}, [.add (str "cam", camUrl) [] {}, .getMedias, .clients])
      [(0, .AddRtsp (Env.calm (str "")) (str "cam") camUrl, .uriParts (some e))]
      (t, [.sent (sendMedias (camAdded e)), .getMedias, .clients]) :=
    .single ⟨_, _, rfl, ⟨.add (str ""), by rw [Method.exec, hadd], rfl⟩, rfl⟩
  have hsecond : (Pool.lts (Handler.Step Gst.sequence)).Run
      (t, [.sent (sendMedias (camAdded e)), .getMedias, .clients])
      [(1, .GetMedias, .medias (GetMedias t))]
      (t, [.sent (sendMedias (camAdded e)), .sent (sendMedias (GetMedias t)), .clients]) :=
    .single ⟨_, _, rfl, ⟨.getMedias, by rw [Method.exec], rfl⟩, rfl⟩
  obtain ⟨tr, hended, hrun⟩ := threads_of_calls hfirst
  obtain ⟨tr', hended', hrun'⟩ := threads_of_calls hsecond
  exact ⟨e, t, tr, tr', hrun, hrun', hended, hended'⟩

/-- The listing has the mutex, the addition waits. -/
theorem server_can_answer_cam :
    ∃ (x : Threads TranscodingService Handler Method Answer) (tr' : _) (t : _) (hs : _),
      x.mutex = some (1, 0) ∧ (threadsLts (serverJobs Gst.sequence)).Run x tr' (.idle hs t) ∧
      ∀ (k : Nat) q, camRequests[k]? = some q →
        ∃ reply response, hs[k]? = some (.sent reply) ∧ reply.Sends response := by
  have hrun : (threadsLts (serverJobs Gst.sequence)).Run
      (.idle [.add (str "cam", camUrl) [] {}, .getMedias, .clients] {})
      [(1, none), (1, none), (0, none)] _ :=
    Step.cons_run rfl (.call .getMedias) <| Step.cons_run rfl .lock <|
      Step.run_one rfl (.call (.add (str "")))
  have hserver : ServerRun id Gst.sequence camRequests 1 _ _ := hrun
  obtain ⟨tr', t, hs, hrun', hanswered⟩ :=
    server_can_answer Gst.sequence camRequests 1 hserver
  exact ⟨_, tr', t, hs, rfl, hrun', hanswered⟩

end TranscodingServer
