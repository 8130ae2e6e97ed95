import TranscodingServer.Http.Connection
import TranscodingServer.Http.Handlers

/-!
# The endpoints, from text to text (`main.cpp`)

`sort` is the order in which the fields of an object that was read stand at the first lookup.
-/

namespace TranscodingServer

def Response.map {β γ : Type} (f : β → γ) : Response β → Response γ
  | .ok value => .ok (f value)
  | .status code => .status code

/-- `response(returnable&&)` -/
def jsonResponse (value : Wvalue) : CrowResponse where
  headers := set_header (str "Content-Type") (str "application/json") []
  body := value.dump

/-- What the client may get: the hash maps list the fields of the objects in any order. -/
inductive Response.Sends : Response Wvalue → HttpResponse → Prop
  | ok {value arranged : Wvalue} (read : Str → Str) :
      value.Arranged arranged → Sends (.ok value) ((jsonResponse arranged).send read)
  | status (code : Nat) (read : Str → Str) :
      Sends (.status code) (({ code := code } : CrowResponse).send read)

section Endpoints

variable (sort : List (Str × Json) → List (Str × Json))

def sendMedias (r : Report MediaInfo) : Response Wvalue := .ok (r.wvalue MediaInfo.wvalue)

def sendSessions (r : Report SessionInfo) : Response Wvalue := .ok (r.wvalue SessionInfo.wvalue)

def sendRemoved (r : RemoveResult) : Response Wvalue := .ok r.wvalue

/-- `POST /add` -/
def postAdd (gst : Gst) (clock : Nat → Str) (body : Str) (s : TranscodingService) :
    Response Wvalue × TranscodingService :=
  let (r, t) := addHandler gst clock (load sort body).toOption s
  (r.map (Report.wvalue MediaInfo.wvalue), t)

/-- `POST /remove` -/
def postRemove (gst : Gst) (clock : Nat → Str) (body : Str) (s : TranscodingService) :
    Response Wvalue × TranscodingService :=
  let (r, t) := removeHandler gst clock (load sort body).toOption s
  (r.map RemoveResult.wvalue, t)

/-- `GET /get-medias` -/
def getMedias (s : TranscodingService) : Response Wvalue := sendMedias (GetMedias s)

/-- `GET /get-sessions` -/
def getSessions (s : TranscodingService) : Response Wvalue := sendSessions (GetClientSessions s)

def config : ServerConfig where
  name := str "Rtsp Server"
  version := str "v1.0"
  status := str "Active"
  ip_address := str "192.168.202.195"
  api_port := str "8080"
  rtsp_port := str "8555"

/-- `GET /get-config` -/
def getConfig : Response Wvalue := .ok config.toJson

end Endpoints

/-! ## What is sent -/

variable {value : Wvalue} {response : HttpResponse}

/-- A refusal says what its code means. -/
theorem sends_status {code : Nat} {line : Str} (h : (Response.status code).Sends response)
    (hcode : statusCodes.lookup code = some line) (hlo : 400 ≤ code) :
    response = {
      code := code
      headers := [(str "Content-Length", to_string (line.drop 9).length)]
      body := line.drop 9 } := by
  cases h with
  | status code read =>
      simp [CrowResponse.send, CrowResponse.complete, response_end, prepare_buffers, do_write, hcode, hlo]

example : (statusCodes.lookup 400).map (·.drop 9) = some (str "400 Bad Request\r\n") := by decide

end TranscodingServer
