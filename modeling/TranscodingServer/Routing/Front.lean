import TranscodingServer.Http.Responses
import TranscodingServer.Routing.Theorems

/-!
# Requests at the front of the server

What a url and a method lead to, first as the rules of the server have it, then through the router
that the server builds when it starts.
-/

namespace TranscodingServer

open Patterns

/-- The handler that is there for a method and a url, and what it gets from the url. -/
def endpoint (method : HTTPMethod) (url : Str) : Option (Endpoint × List Str) :=
  if method = .Get then
    if url = str "/get-config" then some (.get_config, [])
    else if url = str "/get-sessions" then some (.get_sessions, [])
    else if url = str "/get-medias" then some (.get_medias, [])
    else if (str "/static/").isPrefixOf url ∧ url.drop 8 ≠ [] then some (.static_dir, [url.drop 8])
    else none
  else if method = .Post then
    if url = str "/add" then some (.add, [])
    else if url = str "/remove" then some (.remove, [])
    else none
  else none

/-- The response to a request without a handler. -/
def refusal (method : HTTPMethod) (url : Str) : CrowResponse :=
  let allowed := HTTPMethod.all.filter fun m => (endpoint m url).isSome
  if method = .Head then { code := 404 }
  else if method = .Options then
    if url = str "/*" then { code := 204, headers := [(str "Allow", str "OPTIONS, HEAD, GET, POST")] }
    else if allowed ≠ [] then { code := 204, headers := [(str "Allow", Router.allow allowed)] }
    else { code := 404 }
  else { code := if allowed ≠ [] then 405 else 404 }

/-! ## The rules -/

section Rules

variable {δ : Type} {strtod : Str → Option (δ × Nat)}

/-- The handler of a rule, with what it gets. -/
def told (x : BaseRule Endpoint × List (Arg δ)) : Option Endpoint × List (Arg δ) := (x.1.handler_, x.2)

theorem first_route {rule : BaseRule Endpoint} {path : Str} (h : rule.pattern = path.map .item)
    (rules : List (BaseRule Endpoint)) (url : Str) :
    (firstRule strtod (rule :: rules) url).map told =
      if url = path then some (rule.handler_, []) else (firstRule strtod rules url).map told := by
  rw [firstRule, List.findSome?_cons, h, read_items]
  by_cases hurl : path = url
  · rw [if_pos hurl, if_pos hurl.symm]
    rfl
  · rw [if_neg hurl, if_neg (Ne.symm hurl)]
    rfl

theorem first_static {rule : BaseRule Endpoint}
    (h : rule.pattern = (str "/static/").map .item ++ [.param .PATH]) (url : Str) :
    (firstRule strtod [rule] url).map told =
      if (str "/static/").isPrefixOf url ∧ url.drop 8 ≠ [] then
        some (rule.handler_, [.string (url.drop 8)])
      else none := by
  rw [firstRule, List.findSome?_cons, h, read_items_append]
  by_cases hpre : (str "/static/").isPrefixOf url = true
  · rw [if_pos hpre, show (str "/static/").length = 8 from rfl]
    cases url.drop 8 with
    | nil =>
        rw [if_neg (by simp)]
        rfl
    | cons c rest =>
        rw [if_pos ⟨hpre, by simp⟩]
        rfl
  · rw [if_neg hpre, if_neg fun hboth => hpre hboth.1]
    rfl

theorem first_getRoutes (url : Str) : (firstRule strtod getRoutes url).map told =
    (endpoint .Get url).map fun x => (some x.1, x.2.map .string) := by
  have hroutes : getRoutes = [(CROW_ROUTE (str "/get-config") .get_config).methods .Get,
    (CROW_ROUTE (str "/get-sessions") .get_sessions).methods .Get,
    (CROW_ROUTE (str "/get-medias") .get_medias).methods .Get,
    CROW_ROUTE CROW_STATIC_ENDPOINT .static_dir] := rfl
  rw [hroutes, @first_route δ strtod _ (str "/get-config") rfl,
    @first_route δ strtod _ (str "/get-sessions") rfl, @first_route δ strtod _ (str "/get-medias") rfl,
    first_static rfl, endpoint, if_pos rfl]
  split_ifs <;> rfl

theorem first_postRoutes (url : Str) : (firstRule strtod postRoutes url).map told =
    (endpoint .Post url).map fun x => (some x.1, x.2.map .string) := by
  have hroutes : postRoutes = [(CROW_ROUTE (str "/add") .add).methods .Post,
    (CROW_ROUTE (str "/remove") .remove).methods .Post] := rfl
  rw [hroutes, @first_route δ strtod _ (str "/add") rfl, @first_route δ strtod _ (str "/remove") rfl,
    endpoint, if_neg (show HTTPMethod.Post ≠ .Get by decide), if_pos (Eq.refl HTTPMethod.Post)]
  split_ifs <;> rfl

theorem redirects_routes (method : HTTPMethod) (url : Str) :
    redirects strtod (rulesFor method routes) url = false := by
  have hno : ∀ rule ∈ routes, has_trailing_slash rule.rule_ = false := by decide
  rw [redirects, List.any_eq_false]
  intro rule hrule
  simp [BaseRule.slashless, hno rule (List.mem_filter.mp hrule).1]

theorem first_routes (method : HTTPMethod) (url : Str) :
    (firstRule strtod (rulesFor method routes) url).map told =
      (endpoint method url).map fun x => (some x.1, x.2.map .string) := by
  rw [rulesFor_routes]
  split_ifs with hget hpost
  · exact hget ▸ first_getRoutes url
  · exact hpost ▸ first_postRoutes url
  · rw [endpoint, if_neg hget, if_neg hpost]
    rfl

theorem push_strings (paths : List Str) (params : RoutingParams δ) :
    (paths.map Arg.string).foldl .push params =
      { params with string_params := params.string_params ++ paths } := by
  induction paths generalizing params with
  | nil => simp
  | cons path paths ih =>
      rw [List.map_cons, List.foldl_cons, ih]
      simp [RoutingParams.push]

theorem lookUp_routes_none {method : HTTPMethod} {url : Str} (h : endpoint method url = none) :
    lookUp strtod (rulesFor method routes) url = .nothing := by
  have hfirst := @first_routes δ strtod method url
  rw [h, Option.map_none, Option.map_eq_none_iff] at hfirst
  rw [lookUp, redirects_routes, hfirst]
  rfl

theorem lookUp_routes_some {method : HTTPMethod} {url : Str} {handler : Endpoint} {paths : List Str}
    (h : endpoint method url = some (handler, paths)) : ∃ rule, rule.handler_ = some handler ∧
      lookUp strtod (rulesFor method routes) url = .rule rule (paths.map .string) := by
  have hfirst := @first_routes δ strtod method url
  rw [h, Option.map_some, Option.map_eq_some_iff] at hfirst
  obtain ⟨⟨rule, args⟩, hrule, htold⟩ := hfirst
  obtain ⟨hhandler, rfl⟩ := Prod.mk.inj htold
  refine ⟨rule, hhandler, ?_⟩
  rw [lookUp, redirects_routes, hrule]
  rfl

theorem found_routes (method : HTTPMethod) (url : Str) :
    (lookUp strtod (rulesFor method routes) url).found = (endpoint method url).isSome := by
  cases h : endpoint method url with
  | none =>
      rw [lookUp_routes_none h]
      rfl
  | some x =>
      obtain ⟨rule, _, hrule⟩ := @lookUp_routes_some δ strtod _ _ x.1 x.2 h
      rw [hrule]
      rfl

theorem served_routes {method : HTTPMethod} {url : Str} {handler : Endpoint} {paths : List Str}
    (h : endpoint method url = some (handler, paths)) (host : Str) (skip_body : Bool) :
    (lookUp strtod (rulesFor method routes) url).served host url skip_body =
      .call handler { string_params := paths } skip_body := by
  obtain ⟨rule, hhandler, hrule⟩ := @lookUp_routes_some δ strtod _ _ _ _ h
  rw [hrule, Match.served, hhandler, push_strings]
  rfl

theorem methodsFor_routes (url : Str) :
    methodsFor strtod routes url = HTTPMethod.all.filter fun m => (endpoint m url).isSome := by
  refine List.filter_congr fun m _ => ?_
  rw [found_routes]

theorem plainServe_routes (host : Str) (method : HTTPMethod) (url : Str) :
    plainServe strtod routes host method url =
      ((endpoint (if method = .Head then .Get else method) url).map fun x =>
        Served.call x.1 { string_params := x.2 } (decide (method = .Head))).getD
          (.respond (refusal method url)) := by
  have hstar : (HTTPMethod.all.filter fun m => !(rulesFor m routes).isEmpty) = [.Get, .Post] := rfl
  have hhead : endpoint .Head url = none := rfl
  have hoptions : endpoint .Options url = none := rfl
  have hallow : Router.allow [.Get, .Post] = str "OPTIONS, HEAD, GET, POST" := by decide
  rw [plainServe, refusal, methodsFor_routes, hstar, hallow]
  generalize (HTTPMethod.all.filter fun m => (endpoint m url).isSome) = allowed
  simp only [found_routes]
  by_cases hm : method = .Head
  · subst hm
    simp only [if_true, hhead, Option.isSome_none, Bool.false_eq_true, if_false, decide_true]
    cases hget : endpoint .Get url with
    | none =>
        rw [lookUp_routes_none hget]
        rfl
    | some x => exact @served_routes δ strtod _ _ x.1 x.2 hget host true
  · simp only [if_neg hm]
    by_cases ho : method = .Options
    · subst ho
      simp only [if_true, hoptions, Option.map_none, Option.getD_none]
      by_cases hurl : url = str "/*"
      · simp only [if_pos hurl]
      · by_cases hallowed : allowed = []
        · simp only [if_neg hurl, if_neg (not_not.mpr hallowed)]
        · simp only [if_neg hurl, if_pos hallowed]
    · simp only [if_neg ho]
      cases hfound : endpoint method url with
      | none =>
          rw [lookUp_routes_none hfound]
          by_cases hallowed : allowed = []
          · simp [hallowed, Match.served]
          · simp [hallowed]
      | some x =>
          have hserved := @served_routes δ strtod _ _ x.1 x.2 hfound host false
          simpa [hm] using hserved

/-- The router of the started server: the requests that reach a handler, what the handler gets, and the
responses to all others. -/
theorem server_dispatches {router : Router Endpoint} (h : Router.validate routes = .ok router)
    (strtod : Str → Option (δ × Nat)) (host : Str) (method : HTTPMethod) (url : Str) :
    router.serve strtod host method url =
      ((endpoint (if method = .Head then .Get else method) url).map fun x =>
        Served.call x.1 { string_params := x.2 } (decide (method = .Head))).getD
          (.respond (refusal method url)) := by
  rw [serve_eq (serves_of_validate no_nul_routes (by decide) h), plainServe_routes]

theorem router_exists : ∃ router, Router.validate routes = .ok router := by
  cases validate_cases no_nul_routes (by decide) with
  | inl hcase => exact hcase.2.imp fun _ => And.left
  | inr hcase => exact absurd startable_routes hcase.1

/-- What the client gets, given the responses that the handlers assign: the flag survives, and a request
that no handler gets is completed without `end`. -/
def Served.sent (answer : Endpoint → RoutingParams δ → CrowResponse) (read : Str → Str) :
    Served Endpoint δ → Option HttpResponse
  | .respond res => some (res.complete read)
  | .call handler params skip_body =>
    some (CrowResponse.send read { answer handler params with skip_body := skip_body })
  | .throws => none

section Head

variable {router : Router Endpoint} {host url : Str} {x : Endpoint × List Str}
  {answer : Endpoint → RoutingParams δ → CrowResponse} {read : Str → Str}

/-- To `HEAD` a value is sent as to `GET`, less its body. -/
theorem head_of_value (h : Router.validate routes = .ok router) (hx : endpoint .Get url = some x)
    (hvalue : ∃ value, answer x.1 { string_params := x.2 } = jsonResponse value) :
    (router.serve strtod host .Head url).sent answer read =
      ((router.serve strtod host .Get url).sent answer read).map ({ · with body := [] }) := by
  obtain ⟨value, hvalue⟩ := hvalue
  have hget : (if HTTPMethod.Get = .Head then HTTPMethod.Get else .Get) = .Get := by decide
  rw [server_dispatches h, server_dispatches h, if_pos rfl, hget, hx]
  have hlt : 200 < 400 := by decide
  have hlength : ((set_header (str "Content-Type") (str "application/json") []).any fun header =>
      string_equals header.1 (str "content-length")) = false := by decide
  simp only [Option.map_some, Option.getD_some, Served.sent, hvalue]
  exact congrArg some (send_head rfl rfl hlt rfl rfl hlength)

/-- To `HEAD` a file is sent as well, behind the length of no body. -/
theorem head_of_file (h : Router.validate routes = .ok router) (hx : endpoint .Get url = some x)
    {res : CrowResponse} (hres : answer x.1 { string_params := x.2 } = res) (hpath : res.path ≠ [])
    (hcode : res.code = 200) (hbody : res.body = []) :
    (router.serve strtod host .Head url).sent answer read =
      some {
        code := 200
        headers := set_header (str "Content-Length") (str "0") res.headers
        body := read res.path } := by
  rw [server_dispatches h, if_pos rfl, hx]
  simp only [Option.map_some, Option.getD_some, Served.sent, hres]
  rw [← hcode]
  exact congrArg some (send_head_file hpath (by rw [hcode]; rfl) hbody)

end Head

theorem server_dispatches_head : ∃ router, Router.validate routes = .ok router ∧
    router.serve (fun _ => (none : Option (Nat × Nat))) [] .Head (str "/static/a") =
      .call .static_dir { string_params := [str "a"] } true := by
  obtain ⟨router, h⟩ := router_exists
  refine ⟨router, h, ?_⟩
  rw [server_dispatches h]
  rfl

end Rules

/-! ## Requests that reach the service -/

section Requests

open Locking

structure RawRequest where
  method : HTTPMethod
  url : Str
  host : Str
  body : Str

/-- What a handler does with a body, for the handlers of `main.cpp`. -/
def Endpoint.request (body : Str) : Endpoint → Option HttpRequest
  | .get_config => some .getConfig
  | .add => some (.postAdd body)
  | .remove => some (.postRemove body)
  | .get_sessions => some .getSessions
  | .get_medias => some .getMedias
  | .static_dir => none

/-- The handler of `main.cpp` that a request is handed over to, if it is to any. -/
def RawRequest.request {δ : Type} (strtod : Str → Option (δ × Nat)) (router : Router Endpoint)
    (raw : RawRequest) : Option HttpRequest :=
  match router.serve strtod raw.host raw.method raw.url with
  | .call handler _ _ => handler.request raw.body
  | _ => none

/-- The calls that change the table of the streams. -/
def Call.Edits : Call → Prop
  | .AddRtsp _ _ _ => True
  | .RemoveRtsp _ _ => True
  | _ => False

/-- The calls are those for the first items of a list, one for each in its order. -/
def ForItems {ι : Type} (args : Json → Except Nat ι) (Made : ι → Call × Ret → Prop)
    (json : Option (List Json)) (calls : List (Call × Ret)) : Prop :=
  ∃ items rest, (json.getD []).map args = items.map .ok ++ rest ∧ List.Forall₂ Made items calls

/-- What a request may do to the service. -/
inductive Commands (sort : List (Str × Json) → List (Str × Json)) (raw : RawRequest)
    (calls : List (Call × Ret)) : Prop
  | add : raw.method = .Post → raw.url = str "/add" →
      ForItems addArgs Addition (bodyItems sort (str "rtsp_uris") raw.body) calls →
      Commands sort raw calls
  | remove : raw.method = .Post → raw.url = str "/remove" →
      ForItems removeArgs Removing (bodyItems sort (str "rtsp_ids") raw.body) calls →
      Commands sort raw calls
  | none : ¬ (raw.method = .Post ∧ (raw.url = str "/add" ∨ raw.url = str "/remove")) → calls = [] →
      Commands sort raw calls

variable {δ : Type} {strtod : Str → Option (δ × Nat)} {router : Router Endpoint} {raw : RawRequest}

theorem endpoint_posts {method : HTTPMethod} {url : Str} {handler : Endpoint} {paths : List Str}
    (h : endpoint method url = some (handler, paths)) :
    (handler = .add ↔ method = .Post ∧ url = str "/add") ∧
      (handler = .remove ↔ method = .Post ∧ url = str "/remove") := by
  have hne : str "/add" ≠ str "/remove" := by decide
  rw [endpoint] at h
  split_ifs at h <;> cases h <;> simp_all

theorem request_eq (h : Router.validate routes = .ok router) :
    raw.request strtod router =
      (endpoint (if raw.method = .Head then .Get else raw.method) raw.url).bind
        fun x => x.1.request raw.body := by
  rw [RawRequest.request, serve_eq (serves_of_validate no_nul_routes (by decide) h), plainServe_routes]
  cases endpoint (if raw.method = .Head then .Get else raw.method) raw.url with
  | none => rfl
  | some x => rfl

/-- What a request is handed over as says where it came from. -/
theorem request_some {q : HttpRequest} (h : Router.validate routes = .ok router)
    (hq : raw.request strtod router = some q) :
    (raw.method = .Post ∧ raw.url = str "/add" ∧ q = .postAdd raw.body) ∨
    (raw.method = .Post ∧ raw.url = str "/remove" ∧ q = .postRemove raw.body) ∨
    (¬ (raw.method = .Post ∧ (raw.url = str "/add" ∨ raw.url = str "/remove")) ∧
      (q = .getConfig ∨ q = .getSessions ∨ q = .getMedias)) := by
  rw [request_eq h, Option.bind_eq_some_iff] at hq
  obtain ⟨⟨handler, paths⟩, hendpoint, hq⟩ := hq
  have hmethod : raw.method = .Post ↔ (if raw.method = .Head then .Get else raw.method) = .Post := by
    split_ifs with hhead
    · simp [hhead]
    · exact Iff.rfl
  generalize (if raw.method = .Head then HTTPMethod.Get else raw.method) = m at hendpoint hmethod
  obtain ⟨hadd, hremove⟩ := endpoint_posts hendpoint
  rw [hmethod]
  cases handler with
  | add =>
      cases hq
      obtain ⟨hpost, hurl⟩ := hadd.mp rfl
      exact .inl ⟨hpost, hurl, rfl⟩
  | remove =>
      cases hq
      obtain ⟨hpost, hurl⟩ := hremove.mp rfl
      exact .inr (.inl ⟨hpost, hurl, rfl⟩)
  | static_dir => cases hq
  | get_config | get_sessions | get_medias =>
      cases hq
      refine .inr (.inr ⟨?_, by simp⟩)
      rintro ⟨hpost, hurl | hurl⟩
      · cases hadd.mpr ⟨hpost, hurl⟩
      · cases hremove.mpr ⟨hpost, hurl⟩

/-! ## Runs -/

variable {sort : List (Str × Json) → List (Str × Json)} {gst : Gst} {ls : List (Method × Answer)}
  {h' : Handler}

theorem forItems_of_progress {ι α : Type} {args : Json → Except Nat ι}
    {call : ι → List Json → α → Handler} {send : α → Response Wvalue} {Made : ι → Call × Ret → Prop}
    {filled : List (Call × Ret) → α} {json : Option (List Json)} {calls : List (Call × Ret)}
    (h : (json = none ∧ calls = [] ∧ h' = .sent (.status 400)) ∨
      ∃ items, json = some items ∧ LoopProgress args call send Made filled items calls h') :
    ForItems args Made json calls := by
  rcases h with ⟨rfl, rfl, _⟩ | ⟨items, rfl, done, todo, hjson, hmade, _⟩
  · exact ⟨[], [], rfl, .nil⟩
  · exact ⟨done, todo.map args, hjson, hmade⟩

theorem listing_run {q : HttpRequest} (hq : q = .getConfig ∨ q = .getSessions ∨ q = .getMedias)
    (h : (Pool.jobLts (Handler.Step gst)).Run (q.start sort) ls h') : callsOf ls = [] := by
  rcases hq with rfl | rfl | rfl
  · rw [(sent_run h).1]
    rfl
  · rcases sessions_run h with ⟨rfl, _⟩ | ⟨s, rfl, _⟩
    · rfl
    · rfl
  · rcases medias_run h with ⟨rfl, _⟩ | ⟨s, rfl, _⟩
    · rfl
    · rfl

/-- The threads of the RTSP server only call back. -/
theorem clients_run (h : (Pool.jobLts (Handler.Step gst)).Run .clients ls h') :
    h' = .clients ∧ ∀ c ∈ callsOf ls, ¬ c.1.Edits := by
  induction h with
  | nil => exact ⟨rfl, by simp [callsOf]⟩
  | @snoc ls h l h' _ hstep ih =>
      obtain ⟨rfl, hold⟩ := ih
      obtain ⟨m, r⟩ := l
      obtain ⟨s, t, hstart, _, rfl⟩ := hstep
      refine ⟨by cases hstart <;> rfl, fun c hc => ?_⟩
      rw [callsOf, List.filterMap_append, List.mem_append] at hc
      cases hc with
      | inl hmem => exact hold c hmem
      | inr hnew =>
          obtain ⟨_, hl, hcall⟩ := List.mem_filterMap.mp hnew
          cases List.mem_singleton.mp hl
          cases hstart with
          | client_connected client | describe client | teardown client session => cases hcall
          | closed client =>
              cases hcall
              exact not_false
          | setup client session abspath =>
              cases abspath with
              | none => cases hcall
              | some path =>
                  cases hcall
                  exact not_false

theorem getElem?_filterMap_isSome {α β : Type*} (f : α → Option β) (l : List α) (k : Nat) :
    (l.filterMap f)[k]? = (l.filter fun a => (f a).isSome)[k]?.bind f := by
  induction l generalizing k with
  | nil => rfl
  | cons a l ih =>
      cases hfa : f a with
      | none => simp [hfa, ih]
      | some b =>
          cases k with
          | zero => simp [hfa]
          | succ k => simp [hfa, ih]

theorem commands_run {q : HttpRequest} (h : Router.validate routes = .ok router)
    (hq : raw.request strtod router = some q)
    (hrun : (Pool.jobLts (Handler.Step gst)).Run (q.start sort) ls h') :
    Commands sort raw (callsOf ls) := by
  rcases request_some h hq with ⟨hpost, hurl, rfl⟩ | ⟨hpost, hurl, rfl⟩ | ⟨hnot, hlisting⟩
  · exact .add hpost hurl (forItems_of_progress (add_progress hrun))
  · exact .remove hpost hurl (forItems_of_progress (remove_progress hrun))
  · exact .none hnot (listing_run hlisting hrun)

/-- A thread that has no request is one of the RTSP server. -/
theorem unrequested_run {requests : List HttpRequest} {n : Nat} {c : TranscodingService × List Handler}
    {calls : List (Nat × Method × Answer)}
    (hrun : (Pool.lts (Handler.Step gst)).Run ({}, handlers sort requests n) calls c)
    {k : Nat} (hk : requests[k]? = none) : ∀ c ∈ callsOf (Pool.labels k calls), ¬ c.1.Edits := by
  rw [List.getElem?_eq_none_iff] at hk
  cases hj : (handlers sort requests n)[k]? with
  | none =>
      have hempty : Pool.labels k calls = [] := by
        rw [Pool.labels_eq_nil]
        intro l hmem
        exact absurd (List.getElem?_eq_none_iff.mp hj) (Nat.not_le.mpr (Pool.lt_length_of_mem hrun hmem))
      rw [hempty]
      simp [callsOf]
  | some j =>
      obtain ⟨j', _, hjob⟩ := Pool.run_job hrun hj
      rw [handlers, List.getElem?_append_right (by simpa using hk)] at hj
      have hclients : j = .clients := List.eq_of_mem_replicate (List.mem_of_getElem? hj)
      subst hclients
      exact (clients_run hjob).2

/-- Any number of requests of any kind and any clients of the RTSP server, statement by statement
beside each other: a thread that changes the table of the streams is a request `POST /add` or
`POST /remove`, and its changes are those that its body asks for, in their order and each one once. -/
theorem edits_are_posted (strtod : Str → Option (δ × Nat)) (h : Router.validate routes = .ok router)
    (gst : Gst) (raws : List RawRequest) (n : Nat) {tr : List (Nat × Option (Method × Answer))}
    {x : Threads TranscodingService Handler Method Answer}
    (hrun : ServerRun sort gst (raws.filterMap (RawRequest.request strtod router)) n tr x)
    (k : Nat) :
    (∃ raw, (raws.filter fun raw => (raw.request strtod router).isSome)[k]? = some raw ∧
      Commands sort raw (callsOf (Pool.labels k (ended tr)))) ∨
    ∀ c ∈ callsOf (Pool.labels k (ended tr)), ¬ c.1.Edits := by
  obtain ⟨t, hpool⟩ := handlers_run hrun
  have hrequest := getElem?_filterMap_isSome (RawRequest.request strtod router) raws k
  cases hraw : (raws.filter fun raw => (raw.request strtod router).isSome)[k]? with
  | some raw =>
      rw [hraw, Option.bind_some] at hrequest
      obtain ⟨q, hq⟩ := Option.isSome_iff_exists.mp (List.mem_filter.mp (List.mem_of_getElem? hraw)).2
      rw [hq] at hrequest
      obtain ⟨j', _, hjob⟩ := Pool.run_job hpool (handlers_request hrequest)
      exact .inl ⟨raw, rfl, commands_run h hq hjob⟩
  | none =>
      rw [hraw, Option.bind_none] at hrequest
      exact .inr (unrequested_run hpool hrequest)

def camRaw : RawRequest := { method := .Post, url := str "/add", host := [], body := camBody }

def listRaw : RawRequest := { method := .Get, url := str "/get-medias", host := [], body := [] }

theorem edits_are_posted_cam : ∃ e,
    Commands id camRaw [(.AddRtsp (str "") (str "cam") camUrl, .uriParts (some e))] := by
  obtain ⟨router, h⟩ := router_exists
  obtain ⟨e, t, tr, _, hrun, _, hended, _⟩ := cam_run
  let strtod : Str → Option (Nat × Nat) := fun _ => none
  have hadd : camRaw.request strtod router = some (.postAdd camBody) := by
    rw [request_eq h]
    rfl
  have hlist : listRaw.request strtod router = some .getMedias := by
    rw [request_eq h]
    rfl
  have hrequests : [camRaw, listRaw].filterMap (RawRequest.request strtod router) = camRequests := by
    simp [hadd, hlist, camRequests]
  have hcalls : callsOf (Pool.labels 0 (ended tr)) =
      [(.AddRtsp (str "") (str "cam") camUrl, .uriParts (some e))] := by
    rw [hended]
    rfl
  have hposted := edits_are_posted strtod h Gst.sequence [camRaw, listRaw] 1 (hrequests ▸ hrun) 0
  rw [hcalls] at hposted
  refine ⟨e, ?_⟩
  cases hposted with
  | inl hcommands =>
      obtain ⟨raw, hraw, hcommands⟩ := hcommands
      have hcam : camRaw = raw := by simpa [hadd] using hraw
      exact hcam ▸ hcommands
  | inr hno => exact absurd trivial (hno _ (List.mem_singleton_self _))

end Requests

end TranscodingServer
