import Std.Data.ExtTreeMap
import TranscodingServer.Library.Throwing
import TranscodingServer.Core.Gst

/-!
# `TranscodingService` (`TranscodingService.h`, `TranscodingService.cpp`)

Every method runs under `processMutex`, so a call is one step on the state.  A method body is a
`Throwing` computation: each statement that may throw by itself is a named `Point`, and `Env.raises`
says at which points the call at hand meets an exception.  The prints are left out except where
they may throw.
-/

namespace TranscodingServer

open Text Throwing

structure ClientInfo where
  client : Option GstRTSPClient
  uri : Str
  session_id : Str
  deriving DecidableEq

/-- The calls to GStreamer that change a reference count or close something.  A closed connection
comes with the record through which it was closed. -/
inductive GstCall
  | get_mount_points
  | unref_mount_points
  | client_ref (client : GstRTSPClient)
  | client_unref (client : GstRTSPClient)
  | client_close (client : GstRTSPClient)
  | connection_close (info : ClientInfo) (conn : GstRTSPConnection)
  | connection_unref (conn : GstRTSPConnection)
  deriving DecidableEq

/-- `std::map<std::string, _>`: ordered by its keys, byte by byte. -/
abbrev StrMap := Std.ExtTreeMap Str

/-- The tables of the service, with the mount table of its RTSP server. -/
structure Tables where
  clientInfos : List ClientInfo := []
  mediaFactories : StrMap GstRTSPMediaFactory := ∅
  uriPartsMap : StrMap UriParts := ∅
  mounts : GstRTSPMountPoints := []
  deriving DecidableEq

/-- The state: the tables, the number of objects created so far, the calls made so far. -/
structure TranscodingService extends Tables where
  objects : Nat := 0
  calls : List GstCall := []
  deriving DecidableEq

/-! ## Exceptions -/

/-- The members of `UriParts` in the order in which its copy assignment copies them. -/
inductive Member
  | username | password | ip | port | path | id | full_path | ready_time
  | mount_points (p : Profile)
  deriving DecidableEq

def Member.all : List Member :=
  [.username, .password, .ip, .port, .path, .id, .full_path, .ready_time] ++
    Profile.all.map .mount_points

def MountPoints.copy (src dst : MountPoints) : Profile → MountPoints
  | .first => { dst with uri_first := src.uri_first }
  | .second => { dst with uri_second := src.uri_second }
  | .third => { dst with uri_third := src.uri_third }
  | .fourth => { dst with uri_fourth := src.uri_fourth }

def UriParts.copy (src dst : UriParts) : Member → UriParts
  | .username => { dst with username := src.username }
  | .password => { dst with password := src.password }
  | .ip => { dst with ip := src.ip }
  | .port => { dst with port := src.port }
  | .path => { dst with path := src.path }
  | .id => { dst with id := src.id }
  | .full_path => { dst with full_path := src.full_path }
  | .ready_time => { dst with ready_time := src.ready_time }
  | .mount_points p => { dst with mount_points := src.mount_points.copy dst.mount_points p }

/-- The statements of `AddRtsp` and `RemoveRtsp` that may throw by themselves: the lock, and the
allocations of strings, objects and map nodes. -/
inductive Point
  | lock
  | checkUri
  | printInvalid
  | make_unique
  | parseUri
  | launch (p : Profile)
  | getCurrentTime
  | printMount (p : Profile)
  | mediaFactory (p : Profile)
  | ready_time
  | uriPartsNode
  | uriPartsMember (m : Member)
  | printAdded
  | clientsLock
  | mountPath
  | printRemoved
  deriving DecidableEq

/-- What one call meets outside the service. -/
structure Env where
  now : Str
  /-- `gst_rtsp_server_get_mount_points` returns an object, not null. -/
  mounts : Bool
  raises : Point → Bool

/-- No exception but those of the code itself, and a server that has its mount points. -/
def Env.calm (now : Str) : Env where
  now := now
  mounts := true
  raises _ := false

abbrev Svc := Throwing Exn TranscodingService

def Env.point (env : Env) (pt : Point) : Svc PUnit :=
  if env.raises pt then throw .bad_alloc else pure ⟨⟩

def call (c : GstCall) : Svc PUnit := modify fun s => { s with calls := s.calls ++ [c] }

/-! ## `AddRtsp` -/

/-- What follows the location in the launch description of a profile. -/
def Profile.pipeline : Profile → Str
  | .first => str " latency=0 ! rtph264depay ! rtph264pay name=pay0 pt=96 )"
  | .second =>
    str " latency=0 ! rtph264depay ! h264parse ! nvh264dec  ! queue ! videoscale ! queue ! " ++
    str "videorate ! video/x-raw,framerate=15/1,width=1280,height=960 ! queue ! " ++
    str "x264enc bitrate=2000 speed-preset=ultrafast tune=zerolatency ! " ++
    str "rtph264pay config-interval=1 name=pay0 pt=96 )"
  | .third =>
    str " latency=0 ! rtph264depay ! h264parse ! nvh264dec  ! queue ! videoscale ! queue ! " ++
    str "videorate ! video/x-raw,framerate=10/1,width=640,height=480 ! queue ! " ++
    str "x264enc bitrate=800 speed-preset=ultrafast tune=zerolatency ! " ++
    str "rtph264pay config-interval=1 name=pay0 pt=96 )"
  | .fourth =>
    str " latency=0 ! rtph264depay ! h264parse ! nvh264dec  ! queue !  videoscale ! queue ! " ++
    str "videorate ! video/x-raw,framerate=10/1,width=320,height=240 ! queue ! " ++
    str "x264enc bitrate=400 speed-preset=ultrafast tune=zerolatency ! " ++
    str "rtph264pay config-interval=1 name=pay0 pt=96 )"

def launchDescription (p : Profile) (uri : Str) : Str :=
  str "( rtspsrc location=" ++ uri ++ p.pipeline

def isValidUri (gst : Gst) (uri : Str) : Bool := gst.uri_is_valid (c_str uri)

def checkUri (gst : Gst) (env : Env) (uri : Str) : Svc Bool := do
  env.point .checkUri
  if !isValidUri gst uri then
    env.point .printInvalid
    return false
  return true

/-- `gst_rtsp_media_factory_new`, `_set_launch` and `_set_shared`. -/
def newFactory (env : Env) (uri : Str) (p : Profile) : Svc GstRTSPMediaFactory := do
  let s ← get
  set { s with objects := s.objects + 1 }
  env.point (.launch p)
  return { object := s.objects, launch := c_str (launchDescription p uri), shared := true }

/-- `gst_rtsp_mount_points_add_factory`, then the entry of `mediaFactories`. -/
def mountFactory (gst : Gst) (env : Env) (mount : Str) (p : Profile)
    (factory : GstRTSPMediaFactory) : Svc PUnit := do
  modify fun s => { s with mounts := gst.add_factory s.mounts (c_str mount) factory }
  env.point (.mediaFactory p)
  modify fun s => { s with mediaFactories := s.mediaFactories.insert mount factory }

/-- One member of the copy assignment to `uriPartsMap[id]`. -/
def copyMember (env : Env) (id : Str) (uriParts : UriParts) (m : Member) : Svc PUnit := do
  env.point (.uriPartsMember m)
  modify fun s => { s with uriPartsMap := s.uriPartsMap.modify id (uriParts.copy · m) }

/-- `uriPartsMap[id] = *uriParts`: a default entry if there is none, then the members. -/
def storeUriParts (env : Env) (id : Str) (uriParts : UriParts) : Svc PUnit := do
  env.point .uriPartsNode
  modify fun s => { s with uriPartsMap := s.uriPartsMap.insertIfNew id {} }
  Member.all.forM (copyMember env id uriParts)

/-- The checks of `AddRtsp` and the four new factories: nothing here touches a table. -/
def AddRtsp.prepare (gst : Gst) (env : Env) (id uri : Str) :
    Svc (Option (UriParts × (Profile → GstRTSPMediaFactory))) := do
  env.point .lock
  if !(← checkUri gst env uri) then return none
  env.point .make_unique
  env.point .parseUri
  let uriParts ← liftM (({} : UriParts).parseUri id uri)
  let s ← get
  -- the comparison is byte by byte, on the whole url and with NUL bytes
  if s.uriPartsMap.toList.any (·.2.full_path == uriParts.full_path) then return none
  if s.uriPartsMap.contains id then return none
  if !env.mounts then return none
  call .get_mount_points
  let firstFactory ← newFactory env uri .first
  let secondFactory ← newFactory env uri .second
  let thirdFactory ← newFactory env uri .third
  let forthFactory ← newFactory env uri .fourth
  env.point .getCurrentTime
  Profile.all.forM fun p => env.point (.printMount p)
  return some (uriParts, Profile.pick firstFactory secondFactory thirdFactory forthFactory)

/-- `uriParts->ready_time = oss.str().c_str()` -/
def UriParts.readyAt (uriParts : UriParts) (now : Str) : UriParts :=
  { uriParts with ready_time := c_str now }

/-- `AddRtsp` from its first `gst_rtsp_mount_points_add_factory` on. -/
def AddRtsp.commit (gst : Gst) (env : Env) (id : Str) (uriParts : UriParts)
    (factory : Profile → GstRTSPMediaFactory) : Svc UriParts := do
  Profile.all.forM fun p => mountFactory gst env (uriParts.mount_points.get p) p (factory p)
  call .unref_mount_points
  env.point .ready_time
  storeUriParts env id (uriParts.readyAt env.now)
  env.point .printAdded
  return uriParts.readyAt env.now

def AddRtsp.body (gst : Gst) (env : Env) (id uri : Str) : Svc (Option UriParts) := do
  match ← AddRtsp.prepare gst env id uri with
  | none => return none
  | some (uriParts, factory) => return some (← AddRtsp.commit gst env id uriParts factory)

/-- `AddRtsp`; every exception becomes `nullptr`. -/
def AddRtsp (gst : Gst) (env : Env) (id uri : Str) :
    TranscodingService → Option UriParts × TranscodingService :=
  catchAll (AddRtsp.body gst env id uri) none

/-! ## Clients -/

/-- `new ClientInfo`, which takes a reference on its client. -/
def ClientInfo.new (client : Option GstRTSPClient) (id uri : Str) : ClientInfo × List GstCall :=
  ({ client := client, uri := uri, session_id := id }, (client.map GstCall.client_ref).toList)

/-- `~ClientInfo`, which gives the reference back. -/
def ClientInfo.release (info : ClientInfo) : List GstCall :=
  (info.client.map GstCall.client_unref).toList

def AddClientInfo (client : Option GstRTSPClient) (id uri : Str) (s : TranscodingService) :
    TranscodingService :=
  let (info, calls) := ClientInfo.new client id uri
  { s with clientInfos := s.clientInfos ++ [info], calls := s.calls ++ calls }

/-- A loop over the list that erases the records selected by `p`; `close` are the calls made for an
erased record before its destructor runs. -/
def eraseLoop (p : ClientInfo → Bool) (close : ClientInfo → List GstCall) :
    List ClientInfo → List ClientInfo × List GstCall
  | [] => ([], [])
  | info :: rest =>
    let (kept, calls) := eraseLoop p close rest
    if p info then (kept, close info ++ info.release ++ calls) else (info :: kept, calls)

def RemoveClientWithClient (client : Option GstRTSPClient) (s : TranscodingService) :
    TranscodingService :=
  match client with
  | none => s
  | some c =>
    if s.clientInfos.isEmpty then s
    else
      let (kept, calls) := eraseLoop (·.client == some c) (fun _ => [.client_close c]) s.clientInfos
      { s with clientInfos := kept, calls := s.calls ++ calls }

def matchesId (id : Str) (info : ClientInfo) : Bool := (find info.uri (str "/" ++ id) 0).isSome

def closeConnection (gst : Gst) (info : ClientInfo) : List GstCall :=
  match info.client.bind gst.get_connection with
  | some conn => [.connection_close info conn, .connection_unref conn]
  | none => []

def RemoveClientWithId.body (gst : Gst) (env : Env) (id : Str) : Svc PUnit := do
  env.point .clientsLock
  env.point .mountPath
  modify fun s =>
    if s.clientInfos.isEmpty then s
    else
      let (kept, calls) := eraseLoop (matchesId id) (closeConnection gst) s.clientInfos
      { s with clientInfos := kept, calls := s.calls ++ calls }

/-- `RemoveClientWithId`; every exception is swallowed. -/
def RemoveClientWithId (gst : Gst) (env : Env) (id : Str) (s : TranscodingService) :
    TranscodingService :=
  (catchAll (RemoveClientWithId.body gst env id) ⟨⟩ s).2

/-! ## `RemoveRtsp` -/

/-- The lambda `removeFactory`. -/
def removeFactory (gst : Gst) (s : TranscodingService) (mount : Str) : TranscodingService :=
  if s.mediaFactories.contains mount then
    { s with
      mounts := gst.remove_factory s.mounts (c_str mount)
      mediaFactories := s.mediaFactories.erase mount }
  else s

def RemoveRtsp.body (gst : Gst) (env : Env) (id : Str) : Svc Bool := do
  env.point .lock
  if !env.mounts then return false
  call .get_mount_points
  match (← get).uriPartsMap[id]? with
  | none => return false  -- the reference to the mount points is not given back here
  | some uriParts =>
    modify (RemoveClientWithId gst env id)
    modify fun s => Profile.all.foldl (fun s p => removeFactory gst s (uriParts.mount_points.get p)) s
    modify fun s => { s with uriPartsMap := s.uriPartsMap.erase id }
    env.point .getCurrentTime
    env.point .printRemoved
    call .unref_mount_points
    return true

/-- `RemoveRtsp`; every exception becomes `false`. -/
def RemoveRtsp (gst : Gst) (env : Env) (id : Str) : TranscodingService → Bool × TranscodingService :=
  catchAll (RemoveRtsp.body gst env id) false

/-! ## The callbacks of the RTSP server -/

/-- Connects the signals of the client to the callbacks below. -/
def client_connected_callback (_client : GstRTSPClient) (s : TranscodingService) :
    TranscodingService := s

/-- A session that is absent has the empty id; without a path nothing is recorded. -/
def setup_request_callback (client : GstRTSPClient) (session abspath : Option Str)
    (s : TranscodingService) : TranscodingService :=
  match abspath with
  | some path => AddClientInfo (some client) (session.getD (str "")) path s
  | none => s

def closed_callback (client : GstRTSPClient) (s : TranscodingService) : TranscodingService :=
  RemoveClientWithClient (some client) s

/-- Cleans up the session pool of GStreamer and nothing of the service. -/
def teardown_request_callback (_client : GstRTSPClient) (_session : Str) (s : TranscodingService) :
    TranscodingService := s

end TranscodingServer
