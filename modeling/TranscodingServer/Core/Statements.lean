import TranscodingServer.Library.Statements
import TranscodingServer.Core.Reports

/-!
# The methods statement by statement

The methods of the service once more, as the statements that a thread takes one by one inside its
section of `processMutex`, between which other threads may take theirs.
-/

namespace TranscodingServer

open Text Throwing Locking

/-- Prints that the client has been described, and nothing else. -/
def describe_request_callback (_client : GstRTSPClient) (s : TranscodingService) :
    TranscodingService := s

namespace Stepwise

abbrev Stmts := Statements Exn TranscodingService

/-- `try` with `std::lock_guard<std::recursive_mutex> lock(processMutex)` as its first statement. -/
def locked {α : Type} (env : Env) (pt : Point) (c : Stmts α) (a : α) : Code TranscodingService α :=
  tryOr (if env.raises pt then throw .bad_alloc else guard c) a

/-! ## `AddRtsp` -/

def mountFactory (gst : Gst) (env : Env) (mount : Str) (p : Profile)
    (factory : GstRTSPMediaFactory) : Stmts PUnit := do
  statement (modify fun s => { s with mounts := gst.add_factory s.mounts (c_str mount) factory })
  statement (env.point (.mediaFactory p))
  statement (modify fun s => { s with mediaFactories := s.mediaFactories.insert mount factory })

def storeUriParts (env : Env) (id : Str) (uriParts : UriParts) : Stmts PUnit := do
  statement (env.point .uriPartsNode)
  statement (modify fun s => { s with uriPartsMap := s.uriPartsMap.insertIfNew id {} })
  Member.all.forM fun m => statement (copyMember env id uriParts m)

/-- The loop over `uriPartsMap` that leaves at the first entry with the url. -/
def urlExists (uri : Str) : Code TranscodingService Bool :=
  scan (·.uriPartsMap.toList)
    (fun pair found => if pair.2.full_path == uri then .done true else .yield found) false

def AddRtsp.prepare (gst : Gst) (env : Env) (id uri : Str) :
    Stmts (Option (UriParts × (Profile → GstRTSPMediaFactory))) := do
  if !(← statement (checkUri gst env uri)) then return none
  statement (env.point .make_unique)
  statement (env.point .parseUri)
  let uriParts ← statement (liftM (({} : UriParts).parseUri id uri))
  if ← lift (urlExists uriParts.full_path) then return none
  if ← lift (read fun s => s.uriPartsMap.contains id) then return none
  if !env.mounts then return none
  statement (call .get_mount_points)
  let firstFactory ← statement (newFactory env uri .first)
  let secondFactory ← statement (newFactory env uri .second)
  let thirdFactory ← statement (newFactory env uri .third)
  let forthFactory ← statement (newFactory env uri .fourth)
  statement (env.point .getCurrentTime)
  Profile.all.forM fun p => statement (env.point (.printMount p))
  return some (uriParts, Profile.pick firstFactory secondFactory thirdFactory forthFactory)

def AddRtsp.commit (gst : Gst) (env : Env) (id : Str) (uriParts : UriParts)
    (factory : Profile → GstRTSPMediaFactory) : Stmts UriParts := do
  Profile.all.forM fun p => mountFactory gst env (uriParts.mount_points.get p) p (factory p)
  statement (call .unref_mount_points)
  statement (env.point .ready_time)
  storeUriParts env id (uriParts.readyAt env.now)
  statement (env.point .printAdded)
  return uriParts.readyAt env.now

def AddRtsp (gst : Gst) (env : Env) (id uri : Str) : Code TranscodingService (Option UriParts) :=
  locked env .lock (a := none) do
    match ← AddRtsp.prepare gst env id uri with
    | none => return none
    | some (uriParts, factory) => return some (← AddRtsp.commit gst env id uriParts factory)

/-! ## Clients -/

/-- The reference of the record, then `push_back`. -/
def AddClientInfo (client : Option GstRTSPClient) (id uri : Str) : Code TranscodingService PUnit :=
  Code.guard do
    let (info, calls) := ClientInfo.new client id uri
    write fun s => { s with calls := s.calls ++ calls }
    write fun s => { s with clientInfos := s.clientInfos ++ [info] }

/-- The loop with the iterator at the position `i`: a record that `p` selects is closed, call by
call, and then erased with its reference; the iterator stays where it is. -/
def eraseFrom (p : ClientInfo → Bool) (close : ClientInfo → List GstCall) :
    Nat → Nat → Code TranscodingService PUnit
  | 0, _ => .done ⟨⟩
  | fuel + 1, i => .act id fun s =>
    match s.clientInfos[i]? with
    | none => .done ⟨⟩
    | some info =>
      if p info then do
        (close info).forM fun c => write fun s => { s with calls := s.calls ++ [c] }
        write fun s => { s with
          clientInfos := s.clientInfos.eraseIdx i
          calls := s.calls ++ info.release }
        eraseFrom p close fuel i
      else eraseFrom p close fuel (i + 1)

/-- The loop, and the test before it that the list is not empty. -/
def eraseClients (p : ClientInfo → Bool) (close : ClientInfo → List GstCall) :
    Code TranscodingService PUnit :=
  .act id fun s =>
    if s.clientInfos.isEmpty then .done ⟨⟩ else eraseFrom p close s.clientInfos.length 0

def RemoveClientWithClient (client : Option GstRTSPClient) : Code TranscodingService PUnit :=
  Code.guard <|
    match client with
    | none => .done ⟨⟩
    | some c => eraseClients (·.client == some c) fun _ => [.client_close c]

def RemoveClientWithId (gst : Gst) (env : Env) (id : Str) : Code TranscodingService PUnit :=
  locked env .clientsLock (a := ⟨⟩) do
    statement (env.point .mountPath)
    lift (eraseClients (matchesId id) (closeConnection gst))

/-! ## `RemoveRtsp` -/

def removeFactory (gst : Gst) (mount : Str) : Code TranscodingService PUnit :=
  .act id fun s =>
    if s.mediaFactories.contains mount then do
      write fun s => { s with mounts := gst.remove_factory s.mounts (c_str mount) }
      write fun s => { s with mediaFactories := s.mediaFactories.erase mount }
    else .done ⟨⟩

def RemoveRtsp (gst : Gst) (env : Env) (id : Str) : Code TranscodingService Bool :=
  locked env .lock (a := false) do
    if !env.mounts then return false
    statement (call .get_mount_points)
    match ← lift (read fun s => s.uriPartsMap[id]?) with
    | none => return false
    | some uriParts =>
      lift (RemoveClientWithId gst env id)
      Profile.all.forM fun p => lift (removeFactory gst (uriParts.mount_points.get p))
      lift (write fun s => { s with uriPartsMap := s.uriPartsMap.erase id })
      statement (env.point .getCurrentTime)
      statement (env.point .printRemoved)
      statement (call .unref_mount_points)
      return true

/-! ## Reports -/

def GetClientSessions : Code TranscodingService (Report SessionInfo) :=
  Code.guard do
    let count ← read fun s => static_cast_int s.clientInfos.length
    let list ← scan (·.clientInfos) (fun info list => .yield (list ++ [info.sessionInfo])) []
    return {
      result := str "SUCCESS"
      message := str "All sessions have been successfully retrieved."
      count := count
      list := list }

def GetMedias : Code TranscodingService (Report MediaInfo) :=
  Code.guard do
    let count ← read fun s => static_cast_int s.uriPartsMap.size
    let list ← scan (·.uriPartsMap.toList)
      (fun pair list => .yield (list ++ [pair.2.mediaInfo pair.2.id])) []
    return {
      result := str "SUCCESS"
      message := str "All medias have been successfully retrieved."
      count := count
      list := list }

/-! ## The callbacks of the RTSP server -/

/-- A section without a statement on the service: the callbacks for connected clients, descriptions
and teardowns. -/
def section_only : Code TranscodingService PUnit := Code.guard (.done ⟨⟩)

def setup_request_callback (client : GstRTSPClient) (session abspath : Option Str) :
    Code TranscodingService PUnit :=
  Code.guard <|
    match abspath with
    | some path => AddClientInfo (some client) (session.getD (str "")) path
    | none => .done ⟨⟩

def closed_callback (client : GstRTSPClient) : Code TranscodingService PUnit :=
  Code.guard (RemoveClientWithClient (some client))

end Stepwise

/-! ## The calls of the threads -/

/-- What the threads call: the workers of crow the first four, those of the RTSP server the
callbacks. -/
inductive Method
  | AddRtsp (env : Env) (id uri : Str)
  | RemoveRtsp (env : Env) (id : Str)
  | GetMedias
  | GetClientSessions
  | client_connected_callback (client : GstRTSPClient)
  | describe_request_callback (client : GstRTSPClient)
  | setup_request_callback (client : GstRTSPClient) (session abspath : Option Str)
  | teardown_request_callback (client : GstRTSPClient) (session : Str)
  | closed_callback (client : GstRTSPClient)

inductive Answer
  | uriParts (r : Option UriParts)
  | bool (r : Bool)
  | medias (r : Report MediaInfo)
  | sessions (r : Report SessionInfo)
  | void

namespace Method

/-- A call in one step. -/
def exec (gst : Gst) : Method → TranscodingService → Answer × TranscodingService
  | AddRtsp env id uri, s =>
    let (r, t) := TranscodingServer.AddRtsp gst env id uri s
    (.uriParts r, t)
  | RemoveRtsp env id, s =>
    let (r, t) := TranscodingServer.RemoveRtsp gst env id s
    (.bool r, t)
  | GetMedias, s => (.medias (TranscodingServer.GetMedias s), s)
  | GetClientSessions, s => (.sessions (TranscodingServer.GetClientSessions s), s)
  | client_connected_callback client, s =>
    (.void, TranscodingServer.client_connected_callback client s)
  | describe_request_callback client, s =>
    (.void, TranscodingServer.describe_request_callback client s)
  | setup_request_callback client session abspath, s =>
    (.void, TranscodingServer.setup_request_callback client session abspath s)
  | teardown_request_callback client session, s =>
    (.void, TranscodingServer.teardown_request_callback client session s)
  | closed_callback client, s => (.void, TranscodingServer.closed_callback client s)

/-- A call statement by statement. -/
def statements (gst : Gst) : Method → Code TranscodingService Answer
  | AddRtsp env id uri => (Stepwise.AddRtsp gst env id uri).bind fun r => .done (.uriParts r)
  | RemoveRtsp env id => (Stepwise.RemoveRtsp gst env id).bind fun r => .done (.bool r)
  | GetMedias => Stepwise.GetMedias.bind fun r => .done (.medias r)
  | GetClientSessions => Stepwise.GetClientSessions.bind fun r => .done (.sessions r)
  | client_connected_callback _ => Stepwise.section_only.bind fun _ => .done .void
  | describe_request_callback _ => Stepwise.section_only.bind fun _ => .done .void
  | setup_request_callback client session abspath =>
    (Stepwise.setup_request_callback client session abspath).bind fun _ => .done .void
  | teardown_request_callback _ _ => Stepwise.section_only.bind fun _ => .done .void
  | closed_callback client => (Stepwise.closed_callback client).bind fun _ => .done .void

end Method

end TranscodingServer
