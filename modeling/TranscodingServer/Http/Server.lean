import TranscodingServer.Core.Threads
import TranscodingServer.Http.Endpoints

/-!
# The server under its requests (`main.cpp`)

Every request has a worker of crow, which runs its handler from the text of the body to the value
that is written into the response.  Between two calls of the service a handler is its loop with the
items that it has still to read.
-/

namespace TranscodingServer

open Lts Locking

inductive HttpRequest
  | postAdd (body : Str)
  | postRemove (body : Str)
  | getMedias
  | getSessions
  | getConfig

/-- A handler in front of its next call, or behind its last one.  The threads of the RTSP server
call back whenever their clients do something. -/
inductive Handler
  | add (item : Str × Str) (rest : List Json) (acc : AddAcc)
  | remove (id : Str) (rest : List Json) (failedUrls : List Str)
  | getMedias
  | getSessions
  | sent (reply : Response Wvalue)
  | clients

/-- The loop of a handler up to its next call, which `call` waits for, or to its response. -/
def nextCall {ι α : Type} (args : Json → Except Nat ι) (call : ι → List Json → α → Handler)
    (send : α → Response Wvalue) : List Json → α → Handler
  | [], acc => .sent (send acc)
  | item :: rest, acc =>
    match args item with
    | .error code => .sent (.status code)
    | .ok i => call i rest acc

section Handlers

variable (sort : List (Str × Json) → List (Str × Json))

def nextAdd : List Json → AddAcc → Handler :=
  nextCall addArgs .add fun acc => sendMedias (addResult acc)

def nextRemove : List Json → List Str → Handler :=
  nextCall removeArgs .remove fun failedUrls => sendRemoved (removeResult failedUrls)

/-- The list that the handler of `/add` or `/remove` reads out of the body. -/
def bodyItems (key body : Str) : Option (List Json) := batch key (load sort body).toOption

/-- The handler of a request up to its first call. -/
def HttpRequest.start : HttpRequest → Handler
  | .postAdd body =>
    match bodyItems sort (str "rtsp_uris") body with
    | none => .sent (.status 400)
    | some items => nextAdd items {}
  | .postRemove body =>
    match bodyItems sort (str "rtsp_ids") body with
    | none => .sent (.status 400)
    | some items => nextRemove items []
  | .getMedias => .getMedias
  | .getSessions => .getSessions
  | .getConfig => .sent TranscodingServer.getConfig

/-- The calls that a handler makes next; nothing is thrown in them but what the code throws itself. -/
inductive Handler.Starts : Handler → Method → Prop
  | add {id url rest acc} (now : Str) :
      Starts (.add (id, url) rest acc) (.AddRtsp (Env.calm now) id url)
  | remove {id rest failedUrls} (now : Str) :
      Starts (.remove id rest failedUrls) (.RemoveRtsp (Env.calm now) id)
  | getMedias : Starts .getMedias .GetMedias
  | getSessions : Starts .getSessions .GetClientSessions
  | client_connected (client : GstRTSPClient) : Starts .clients (.client_connected_callback client)
  | describe (client : GstRTSPClient) : Starts .clients (.describe_request_callback client)
  | setup (client : GstRTSPClient) (session abspath : Option Str) :
      Starts .clients (.setup_request_callback client session abspath)
  | teardown (client : GstRTSPClient) (session : Str) :
      Starts .clients (.teardown_request_callback client session)
  | closed (client : GstRTSPClient) : Starts .clients (.closed_callback client)

/-- What a handler does with the answer to its call. -/
def Handler.resume : Handler → Answer → Handler
  | .add (id, url) rest acc, .uriParts r => nextAdd rest (acc.record id url r)
  | .remove id rest failedUrls, .bool ret =>
    nextRemove rest (if ret then failedUrls else failedUrls ++ [id])
  | .getMedias, .medias r => .sent (sendMedias r)
  | .getSessions, .sessions r => .sent (sendSessions r)
  | h, _ => h

/-- The jobs of the server: the handlers, each with the calls that it makes. -/
abbrev serverJobs (gst : Gst) : Jobs TranscodingService Handler Method Answer :=
  serviceJobs gst Handler.Starts fun h _ r => h.resume r

/-- One whole call of a handler. -/
abbrev Handler.Step (gst : Gst) : Pool.JobStep TranscodingService Handler (Method × Answer) :=
  wholeCall gst Handler.Starts fun h _ r => h.resume r

/-- The handlers of all requests at their start, beside `n` threads of the RTSP server. -/
def handlers (requests : List HttpRequest) (n : Nat) : List Handler :=
  requests.map (HttpRequest.start sort) ++ List.replicate n .clients

/-- The server statement by statement, from its start on. -/
def ServerRun (gst : Gst) (requests : List HttpRequest) (n : Nat)
    (tr : List (Nat × Option (Method × Answer)))
    (x : Threads TranscodingService Handler Method Answer) : Prop :=
  (threadsLts (serverJobs gst)).Run (.idle (handlers sort requests n) {}) tr x

end Handlers

/-! ## A request without others beside it -/

section Alone

variable {sort : List (Str × Json) → List (Str × Json)} {gst : Gst}

theorem nextCall_run {ι α β : Type} {args : Json → Except Nat ι} {result : α → β}
    {write : β → Wvalue} {call : ι → List Json → α → Handler}
    {apply : Nat → ι → α → TranscodingService → α × TranscodingService}
    (hstep : ∀ n i rest acc s, ∃ l, (Pool.lts (Handler.Step gst)).step (s, [call i rest acc]) l
      ((apply n i acc s).2, [nextCall args call (fun acc => .ok (write (result acc)))
        rest (apply n i acc s).1]))
    (n : Nat) (items : List Json) (acc : α) (s : TranscodingService) :
    ∃ tr, (Pool.lts (Handler.Step gst)).Run
      (s, [nextCall args call (fun acc => .ok (write (result acc))) items acc]) tr
      ((batchLoop args apply result n items acc s).2,
        [.sent ((batchLoop args apply result n items acc s).1.map write)]) := by
  induction items generalizing n acc s with
  | nil => exact ⟨[], .nil⟩
  | cons item items ih =>
      rw [nextCall, batchLoop]
      cases args item with
      | error code => exact ⟨[], .nil⟩
      | ok i =>
          obtain ⟨l, hl⟩ := hstep n i items acc s
          obtain ⟨tr, hrun⟩ := ih (n + 1) (apply n i acc s).1 (apply n i acc s).2
          exact ⟨l :: tr, .cons hl hrun⟩

/-- The handlers do alone what `postAdd` and `postRemove` do. -/
theorem handlers_alone (clock : Nat → Str) (body : Str) (s : TranscodingService) :
    (∃ tr, (Pool.lts (Handler.Step gst)).Run (s, [(HttpRequest.postAdd body).start sort]) tr
      ((postAdd sort gst clock body s).2, [.sent (postAdd sort gst clock body s).1])) ∧
    ∃ tr, (Pool.lts (Handler.Step gst)).Run (s, [(HttpRequest.postRemove body).start sort]) tr
      ((postRemove sort gst clock body s).2, [.sent (postRemove sort gst clock body s).1]) := by
  constructor
  · rw [HttpRequest.start, postAdd, addHandler, bodyItems]
    cases batch (str "rtsp_uris") (load sort body).toOption with
    | none => exact ⟨[], .nil⟩
    | some items =>
        refine nextCall_run (fun n i rest acc s => ?_) 0 items _ s
        exact ⟨(0, .AddRtsp (Env.calm (clock n)) i.1 i.2, _), _, _, rfl,
          ⟨.add (clock n), rfl, rfl⟩, rfl⟩
  · rw [HttpRequest.start, postRemove, removeHandler, bodyItems]
    cases batch (str "rtsp_ids") (load sort body).toOption with
    | none => exact ⟨[], .nil⟩
    | some items =>
        refine nextCall_run (fun n id rest failedUrls s => ?_) 0 items _ s
        exact ⟨(0, .RemoveRtsp (Env.calm (clock n)) id, _), _, _, rfl,
          ⟨.remove (clock n), rfl, rfl⟩, rfl⟩

end Alone

end TranscodingServer
