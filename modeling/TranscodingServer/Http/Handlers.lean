import TranscodingServer.Core.Reports

/-!
# The handlers of `/add` and `/remove` (`main.cpp`)

`crow::json::load` has read the body; a body that is no JSON is `none`.  Both handlers check each
item of their list in the loop that also applies the items before it.
-/

namespace TranscodingServer

/-- What `crow::json::load` reads.  The fields of an object stand in the order in which a lookup
tries them. -/
inductive Json
  | null
  | bool (b : Bool)
  | number (text : Str)
  | string (s : Str)
  | list (l : List Json)
  | object (fields : List (Str × Json))

/-- `has` and `operator[]` of an object. -/
def Json.get? : Json → Str → Option Json
  | .object fields, key => fields.lookup key
  | _, _ => none

/-- `rvalue::s`, which throws on everything that is not a string. -/
def Json.s : Json → Option Str
  | .string s => some s
  | _ => none

/-- An exception that leaves a handler is answered by crow with the status 500. -/
inductive Response (β : Type)
  | ok (body : β)
  | status (code : Nat)
  deriving DecidableEq

/-- The list under `key`, if the body is an object that has one. -/
def batch (key : Str) (body : Option Json) : Option (List Json) :=
  match body.bind (·.get? key) with
  | some (.list items) => some items
  | _ => none

section Loop

variable {ι α β σ : Type} (args : Json → Except Nat ι) (apply : Nat → ι → α → σ → α × σ)
  (result : α → β)

/-- The loop of a handler: the first item that is malformed ends it.  `n` counts the items. -/
def batchLoop : Nat → List Json → α → σ → Response β × σ
  | _, [], acc, s => (.ok (result acc), s)
  | n, item :: rest, acc, s =>
    match args item with
    | .error code => (.status code, s)
    | .ok i =>
      let (acc, t) := apply n i acc s
      batchLoop (n + 1) rest acc t

/-- The loop over items that are well-formed. -/
def itemsLoop : Nat → List ι → α → σ → α × σ
  | _, [], acc, s => (acc, s)
  | n, i :: rest, acc, s => itemsLoop (n + 1) rest (apply n i acc s).1 (apply n i acc s).2

variable {args apply result}

theorem batchLoop_items (n : Nat) {json : List Json} {items : List ι}
    (h : json.map args = items.map .ok) (acc : α) (s : σ) :
    batchLoop args apply result n json acc s =
      (.ok (result (itemsLoop apply n items acc s).1), (itemsLoop apply n items acc s).2) := by
  induction json generalizing n items acc s with
  | nil =>
      cases items with
      | nil => rfl
      | cons i items => cases h
  | cons item json ih =>
      cases items with
      | nil => cases h
      | cons i items =>
          rw [List.map_cons, List.map_cons, List.cons.injEq] at h
          simp only [batchLoop, h.1]
          exact ih (n + 1) h.2 _ _

end Loop

/-- `'a', 'b'` -/
def quoteList (l : List Str) : Str :=
  (str ", ").intercalate (l.map fun u => str "'" ++ u ++ str "'")

/-- The message of both handlers about the items that failed. -/
def failureMessage (failedUrls : List Str) : Str :=
  quoteList failedUrls ++
    if failedUrls.length = 1 then str " was not added." else str " were not added."

/-! ## `/add` -/

def addArgs (item : Json) : Except Nat (Str × Str) :=
  match item.get? (str "id"), item.get? (str "url") with
  | some id, some url =>
    match id.s, url.s with
    | some id, some url => .ok (id, url)
    | _, _ => .error 500
  | _, _ => .error 400

/-- `uri_info`; the id is that of the request. -/
def UriParts.uriInfo (uriParts : UriParts) (id : Str) : MediaInfo where
  id := id
  full_path := uriParts.full_path
  user := uriParts.username
  pass := uriParts.password
  ip := uriParts.ip
  port := uriParts.port
  path := uriParts.path
  ready_time := uriParts.ready_time
  mount_points := uriParts.mount_points

/-- The variables that the loop fills. -/
structure AddAcc where
  response_list : List MediaInfo := []
  failedUrls : List Str := []
  deriving DecidableEq

def AddAcc.record (id url : Str) (r : Option UriParts) (acc : AddAcc) : AddAcc :=
  match r with
  | some uriParts => { acc with response_list := acc.response_list ++ [uriParts.uriInfo id] }
  | none => { acc with failedUrls := acc.failedUrls ++ [url] }

def addItem (gst : Gst) (now : Str) (item : Str × Str) (acc : AddAcc) (s : TranscodingService) :
    AddAcc × TranscodingService :=
  let (uriParts, t) := AddRtsp gst (Env.calm now) item.1 item.2 s
  (acc.record item.1 item.2 uriParts, t)

/-- `wvalue::operator=(list&&)`: the elements are moved one by one, so the list that is left behind
keeps its size. -/
def assignList {α : Type} (v : List α) : List α × List (Option α) := (v, v.map fun _ => none)

def addResult (acc : AddAcc) : Report MediaInfo :=
  let (list, response_list) := assignList acc.response_list
  { list := list
    count := static_cast_int response_list.length
    result := if acc.failedUrls.isEmpty then str "SUCCESS" else str "FAIL"
    message :=
      if acc.failedUrls.isEmpty then str "All url was added successfully"
      else failureMessage acc.failedUrls }

/-- `POST /add`; `clock n` is the time that the call for the `n`th item reads. -/
def addHandler (gst : Gst) (clock : Nat → Str) (body : Option Json) (s : TranscodingService) :
    Response (Report MediaInfo) × TranscodingService :=
  match batch (str "rtsp_uris") body with
  | none => (.status 400, s)
  | some items => batchLoop addArgs (fun n => addItem gst (clock n)) addResult 0 items {} s

/-! ## `/remove` -/

def removeArgs (item : Json) : Except Nat Str :=
  match item.get? (str "id") with
  | some id => id.s.elim (.error 500) .ok
  | none => .error 400

structure RemoveResult where
  result : Str
  message : Str
  deriving DecidableEq

def removeItem (gst : Gst) (now : Str) (id : Str) (failedUrls : List Str)
    (s : TranscodingService) : List Str × TranscodingService :=
  let (ret, t) := RemoveRtsp gst (Env.calm now) id s
  (if ret then failedUrls else failedUrls ++ [id], t)

def removeResult (failedUrls : List Str) : RemoveResult where
  result := if failedUrls.isEmpty then str "SUCCESS" else str "FAIL"
  message :=
    if failedUrls.isEmpty then str "All id was removed successfully" else failureMessage failedUrls

def removeHandler (gst : Gst) (clock : Nat → Str) (body : Option Json) (s : TranscodingService) :
    Response RemoveResult × TranscodingService :=
  match batch (str "rtsp_ids") body with
  | none => (.status 400, s)
  | some items => batchLoop removeArgs (fun n => removeItem gst (clock n)) removeResult 0 items [] s

end TranscodingServer
