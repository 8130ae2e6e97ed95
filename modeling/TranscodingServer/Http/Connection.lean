import TranscodingServer.Json.Writer

/-!
# Responses on their way out (`crow/http_response.h`, `crow/http_connection.h`)

The headers are a list, where those that the connection sets itself come last; `Server`, `Date` and
`Connection` are left out.
-/

namespace TranscodingServer

abbrev Headers := List (Str × Str)

/-- `std::toupper`, and the lambda of `sanitize_filename`. -/
def toUpper (c : UInt8) : UInt8 :=
  if 'a'.toUInt8 ≤ c ∧ c ≤ 'z'.toUInt8 then c - ('a'.toUInt8 - 'A'.toUInt8) else c

/-- `string_equals`, by which the keys of headers are compared. -/
def string_equals (l r : Str) : Bool := l.map toUpper == r.map toUpper

def set_header (key value : Str) (headers : Headers) : Headers :=
  headers.filter (fun header => !string_equals header.1 key) ++ [(key, value)]

/-- `response`; where it has the `path` of a file, the file is sent and not the body. -/
structure CrowResponse where
  code : Nat := 200
  headers : Headers := []
  body : Str := []
  path : Str := []
  skip_body : Bool := false
  manual_length_header : Bool := false
  deriving DecidableEq

/-- `end`, up to the completion of the request. -/
def response_end (res : CrowResponse) : CrowResponse :=
  if res.skip_body then
    { res with
      headers := set_header (str "Content-Length") (to_string res.body.length) res.headers
      body := []
      manual_length_header := true }
  else res

def statusCodes : List (Nat × Str) :=
  [(100, str "HTTP/1.1 100 Continue\r\n"),
    (101, str "HTTP/1.1 101 Switching Protocols\r\n"),
    (200, str "HTTP/1.1 200 OK\r\n"),
    (201, str "HTTP/1.1 201 Created\r\n"),
    (202, str "HTTP/1.1 202 Accepted\r\n"),
    (203, str "HTTP/1.1 203 Non-Authoritative Information\r\n"),
    (204, str "HTTP/1.1 204 No Content\r\n"),
    (205, str "HTTP/1.1 205 Reset Content\r\n"),
    (206, str "HTTP/1.1 206 Partial Content\r\n"),
    (300, str "HTTP/1.1 300 Multiple Choices\r\n"),
    (301, str "HTTP/1.1 301 Moved Permanently\r\n"),
    (302, str "HTTP/1.1 302 Found\r\n"),
    (303, str "HTTP/1.1 303 See Other\r\n"),
    (304, str "HTTP/1.1 304 Not Modified\r\n"),
    (307, str "HTTP/1.1 307 Temporary Redirect\r\n"),
    (308, str "HTTP/1.1 308 Permanent Redirect\r\n"),
    (400, str "HTTP/1.1 400 Bad Request\r\n"),
    (401, str "HTTP/1.1 401 Unauthorized\r\n"),
    (403, str "HTTP/1.1 403 Forbidden\r\n"),
    (404, str "HTTP/1.1 404 Not Found\r\n"),
    (405, str "HTTP/1.1 405 Method Not Allowed\r\n"),
    (406, str "HTTP/1.1 406 Not Acceptable\r\n"),
    (407, str "HTTP/1.1 407 Proxy Authentication Required\r\n"),
    (409, str "HTTP/1.1 409 Conflict\r\n"),
    (410, str "HTTP/1.1 410 Gone\r\n"),
    (413, str "HTTP/1.1 413 Payload Too Large\r\n"),
    (415, str "HTTP/1.1 415 Unsupported Media Type\r\n"),
    (416, str "HTTP/1.1 416 Range Not Satisfiable\r\n"),
    (417, str "HTTP/1.1 417 Expectation Failed\r\n"),
    (428, str "HTTP/1.1 428 Precondition Required\r\n"),
    (429, str "HTTP/1.1 429 Too Many Requests\r\n"),
    (451, str "HTTP/1.1 451 Unavailable For Legal Reasons\r\n"),
    (500, str "HTTP/1.1 500 Internal Server Error\r\n"),
    (501, str "HTTP/1.1 501 Not Implemented\r\n"),
    (502, str "HTTP/1.1 502 Bad Gateway\r\n"),
    (503, str "HTTP/1.1 503 Service Unavailable\r\n"),
    (504, str "HTTP/1.1 504 Gateway Timeout\r\n"),
    (506, str "HTTP/1.1 506 Variant Also Negotiates\r\n")]

/-- What a client gets. -/
structure HttpResponse where
  code : Nat
  headers : Headers
  body : Str
  deriving DecidableEq

/-- `prepare_buffers`: from 400 on an empty body becomes the status. -/
def prepare_buffers (res : CrowResponse) : CrowResponse :=
  let code := if (statusCodes.lookup res.code).isSome then res.code else 500
  let body :=
    if 400 ≤ code ∧ res.body = [] then ((statusCodes.lookup code).getD []).drop 9 else res.body
  let counted := res.headers.any fun header => string_equals header.1 (str "content-length")
  { res with
    code := code
    headers :=
      if !res.manual_length_header && !counted then
        res.headers ++ [(str "Content-Length", to_string body.length)]
      else res.headers
    body := body }

/-- `do_write_static` and `do_write_general`; `read` is what is in a file. -/
def do_write (read : Str → Str) (res : CrowResponse) : HttpResponse where
  code := res.code
  headers := res.headers
  body := if res.path ≠ [] then read res.path else res.body

/-- `complete_request` -/
def CrowResponse.complete (read : Str → Str) (res : CrowResponse) : HttpResponse :=
  do_write read (prepare_buffers res)

/-- `end` with the completion of the request. -/
def CrowResponse.send (read : Str → Str) (res : CrowResponse) : HttpResponse :=
  (response_end res).complete read

/-! ## `HEAD` -/

section Head

variable {read : Str → Str} {res : CrowResponse}

theorem set_header_of_absent {key value : Str} {headers : Headers}
    (h : (headers.any fun header => string_equals header.1 key) = false) :
    set_header key value headers = headers ++ [(key, value)] := by
  rw [set_header, List.filter_eq_self.mpr]
  intro header hmem
  rw [Bool.not_eq_true', Bool.eq_false_iff]
  exact List.any_eq_false.mp h header hmem

/-- A response without a file is sent to `HEAD` as to `GET`, less its body. -/
theorem send_head (hpath : res.path = []) (hcode : (statusCodes.lookup res.code).isSome)
    (hlt : res.code < 400) (hskip : res.skip_body = false) (hmanual : res.manual_length_header = false)
    (hlength : (res.headers.any fun header =>
      string_equals header.1 (str "content-length")) = false) :
    { res with skip_body := true }.send read = { res.send read with body := [] } := by
  have hset := @set_header_of_absent (str "Content-Length") (to_string res.body.length) res.headers hlength
  have hno : ¬400 ≤ res.code := Nat.not_le.mpr hlt
  simp [CrowResponse.send, CrowResponse.complete, response_end, prepare_buffers, do_write, hpath, hcode,
    hskip, hmanual, hlength, hset, hno]

/-- A file is sent to `HEAD`, too, behind the length of the empty body. -/
theorem send_head_file (hpath : res.path ≠ []) (hcode : (statusCodes.lookup res.code).isSome)
    (hbody : res.body = []) :
    { res with skip_body := true }.send read =
      { code := res.code
        headers := set_header (str "Content-Length") (str "0") res.headers
        body := read res.path } := by
  have hzero : to_string 0 = str "0" := rfl
  simp [CrowResponse.send, CrowResponse.complete, response_end, prepare_buffers, do_write, hpath, hcode,
    hbody, hzero]

end Head

end TranscodingServer
