import TranscodingServer.Http.Handlers
import TranscodingServer.Json.Reader

/-!
# The JSON writer (`crow/json.h`: `escape`, `wvalue::dump`)

The values that the service writes: no floating-point numbers and no functions.  `dump` is the one
without indentation.
-/

namespace TranscodingServer

/-- `wvalue` -/
inductive Wvalue
  | null
  | bool (b : Bool)
  | number (si : Int)
  | string (s : Str)
  | list (l : List Wvalue)
  | object (o : List (Str × Wvalue))

/-- The lambda `to_hex`. -/
def to_hex (c : UInt8) : UInt8 :=
  let c := c &&& 0xf
  if c < 10 then '0'.toUInt8 + c else 'a'.toUInt8 + c - 10

def escapeChar (c : UInt8) : Str :=
  if c = quote then [backslash, quote]
  else if c = backslash then [backslash, backslash]
  else if c = '\n'.toUInt8 then [backslash, 'n'.toUInt8]
  else if c = 0x08 then [backslash, 'b'.toUInt8]
  else if c = 0x0C then [backslash, 'f'.toUInt8]
  else if c = '\r'.toUInt8 then [backslash, 'r'.toUInt8]
  else if c = '\t'.toUInt8 then [backslash, 't'.toUInt8]
  else if c < 0x20 then
    [backslash, 'u'.toUInt8, '0'.toUInt8, '0'.toUInt8, to_hex (c / 16), to_hex (c % 16)]
  else [c]

def escape (s : Str) : Str := s.flatMap escapeChar

def dump_string (s : Str) : Str := quote :: (escape s ++ [quote])

/-- `std::to_string` -/
def to_string : Int → Str
  | .ofNat n => (Nat.toDigits 10 n).map Char.toUInt8
  | .negSucc n => '-'.toUInt8 :: (Nat.toDigits 10 (n + 1)).map Char.toUInt8

/-- What stands in front of an item: a comma, but not in front of the first one. -/
def separator (first : Bool) : Str := if first then [] else [','.toUInt8]

mutual
def Wvalue.dump : Wvalue → Str
  | .null => str "null"
  | .bool false => str "false"
  | .bool true => str "true"
  | .number si => to_string si
  | .string s => dump_string s
  | .list l => '['.toUInt8 :: (Wvalue.dumpList true l ++ [']'.toUInt8])
  | .object o => '{'.toUInt8 :: (Wvalue.dumpObject true o ++ ['}'.toUInt8])

def Wvalue.dumpList : Bool → List Wvalue → Str
  | _, [] => []
  | first, x :: l => separator first ++ (x.dump ++ Wvalue.dumpList false l)

def Wvalue.dumpObject : Bool → List (Str × Wvalue) → Str
  | _, [] => []
  | first, kv :: o =>
    separator first ++ (dump_string kv.1 ++ ':'.toUInt8 :: (kv.2.dump ++ Wvalue.dumpObject false o))
end

mutual
/-- The same value with the fields of its objects in other orders.  Each object has a hash map, which
lists its fields in an order of its own: also two objects with equal fields may differ in it. -/
inductive Wvalue.Arranged : Wvalue → Wvalue → Prop
  | null : Arranged .null .null
  | bool (b : Bool) : Arranged (.bool b) (.bool b)
  | number (si : Int) : Arranged (.number si) (.number si)
  | string (s : Str) : Arranged (.string s) (.string s)
  | list {l m} : ArrangedList l m → Arranged (.list l) (.list m)
  | object {o p q} : ArrangedObject o p → p.Perm q → Arranged (.object o) (.object q)

inductive Wvalue.ArrangedList : List Wvalue → List Wvalue → Prop
  | nil : ArrangedList [] []
  | cons {x y l m} : Arranged x y → ArrangedList l m → ArrangedList (x :: l) (y :: m)

inductive Wvalue.ArrangedObject : List (Str × Wvalue) → List (Str × Wvalue) → Prop
  | nil : ArrangedObject [] []
  | cons {key x y o p} :
      Arranged x y → ArrangedObject o p → ArrangedObject ((key, x) :: o) ((key, y) :: p)
end

/-! ## What the service writes -/

def MountPoints.fields (mount_points : MountPoints) : List (Str × Wvalue) :=
  [(str "uri_first", .string mount_points.uri_first),
    (str "uri_second", .string mount_points.uri_second),
    (str "uri_third", .string mount_points.uri_third),
    (str "uri_fourth", .string mount_points.uri_fourth)]

def MountPoints.wvalue (mount_points : MountPoints) : Wvalue := .object mount_points.fields

def MediaInfo.fields (info : MediaInfo) : List (Str × Wvalue) :=
  [(str "id", .string info.id), (str "user", .string info.user), (str "pass", .string info.pass),
    (str "ip", .string info.ip), (str "port", .string info.port), (str "path", .string info.path),
    (str "full_path", .string info.full_path), (str "ready_time", .string info.ready_time),
    (str "mount_points", info.mount_points.wvalue)]

def MediaInfo.wvalue (info : MediaInfo) : Wvalue := .object info.fields

def SessionInfo.fields (info : SessionInfo) : List (Str × Wvalue) :=
  [(str "session_id", .string info.session_id), (str "uri", .string info.uri)]

def SessionInfo.wvalue (info : SessionInfo) : Wvalue := .object info.fields

def Report.fields {α : Type} (item : α → Wvalue) (r : Report α) : List (Str × Wvalue) :=
  [(str "list", .list (r.list.map item)), (str "count", .number r.count),
    (str "result", .string r.result), (str "message", .string r.message)]

def Report.wvalue {α : Type} (item : α → Wvalue) (r : Report α) : Wvalue := .object (r.fields item)

def RemoveResult.fields (r : RemoveResult) : List (Str × Wvalue) :=
  [(str "result", .string r.result), (str "message", .string r.message)]

def RemoveResult.wvalue (r : RemoveResult) : Wvalue := .object r.fields

structure ServerConfig where
  name : Str
  version : Str
  status : Str
  ip_address : Str
  api_port : Str
  rtsp_port : Str
  deriving DecidableEq

def ServerConfig.toJson (config : ServerConfig) : Wvalue :=
  .object
    [(str "name", .string config.name), (str "version", .string config.version),
      (str "status", .string config.status), (str "ip_address", .string config.ip_address),
      (str "api_port", .string config.api_port), (str "rtsp_port", .string config.rtsp_port)]

end TranscodingServer
