import Mathlib.Algebra.Group.Int.Defs
import TranscodingServer.Core.Service

/-!
# What the service reports (`GetClientSessions`, `GetMedias`)

A JSON object that the code builds is a structure whose fields are its keys.
-/

namespace TranscodingServer

/-- `static_cast<int>` of a size. -/
def static_cast_int (n : Nat) : Int := Int.bmod n (2 ^ 32)

theorem static_cast_int_of_lt {n : Nat} (h : n < 2 ^ 31) : static_cast_int n = n := by
  unfold static_cast_int
  rw [Int.bmod_eq_of_le_mul_two] <;> omega

theorem static_cast_int_lt (n : Nat) : static_cast_int n < 2 ^ 31 := by
  have hlt := @Int.bmod_lt n (2 ^ 32) (by omega)
  unfold static_cast_int
  omega

theorem static_cast_int_eq_iff {n : Nat} : static_cast_int n = n ↔ n < 2 ^ 31 := by
  constructor
  · intro h
    have hlt := static_cast_int_lt n
    omega
  · exact static_cast_int_of_lt

structure SessionInfo where
  session_id : Str
  uri : Str
  deriving DecidableEq

structure MediaInfo where
  id : Str
  user : Str
  pass : Str
  ip : Str
  port : Str
  path : Str
  full_path : Str
  ready_time : Str
  mount_points : MountPoints
  deriving DecidableEq

structure Report (α : Type) where
  result : Str
  message : Str
  count : Int
  list : List α
  deriving DecidableEq

def ClientInfo.sessionInfo (info : ClientInfo) : SessionInfo where
  session_id := info.session_id
  uri := info.uri

def GetClientSessions (s : TranscodingService) : Report SessionInfo where
  result := str "SUCCESS"
  message := str "All sessions have been successfully retrieved."
  count := static_cast_int s.clientInfos.length
  list := s.clientInfos.map ClientInfo.sessionInfo

/-- `media_info`, under an id. -/
def UriParts.mediaInfo (uriParts : UriParts) (id : Str) : MediaInfo where
  id := id
  user := uriParts.username
  pass := uriParts.password
  ip := uriParts.ip
  port := uriParts.port
  path := uriParts.path
  full_path := uriParts.full_path
  ready_time := uriParts.ready_time
  mount_points := uriParts.mount_points

def GetMedias (s : TranscodingService) : Report MediaInfo where
  result := str "SUCCESS"
  message := str "All medias have been successfully retrieved."
  count := static_cast_int s.uriPartsMap.size
  list := s.uriPartsMap.toList.map fun (_, uriParts) => uriParts.mediaInfo uriParts.id

theorem GetClientSessions_count (s : TranscodingService) :
    (GetClientSessions s).count = static_cast_int s.clientInfos.length := by
  rw [GetClientSessions]

theorem mem_GetMedias {s : TranscodingService} {m : MediaInfo} :
    m ∈ (GetMedias s).list ↔
      ∃ (id : Str) (e : UriParts), s.uriPartsMap[id]? = some e ∧ e.mediaInfo e.id = m := by
  simp [GetMedias, Std.ExtTreeMap.mem_toList_iff_getElem?_eq_some]

theorem mem_GetClientSessions {s : TranscodingService} {i : SessionInfo} :
    i ∈ (GetClientSessions s).list ↔ ∃ info ∈ s.clientInfos, info.sessionInfo = i := by
  simp [GetClientSessions]

end TranscodingServer
