import Mathlib.Logic.Function.Basic
import TranscodingServer.Http.Connection
import TranscodingServer.Routing.Trie

/-!
# The router (`crow/routing.h`: `BaseRule`, `TaggedRule`, `Router`)

There are no blueprints, no middlewares, no catch-all rule and no rules that are upgraded.  A handler
is a value that says which one it is.
-/

namespace TranscodingServer

inductive HTTPMethod
  | Delete | Get | Head | Post | Put
  | Connect | Options | Trace
  | Patch | Purge
  | Copy | Lock | MkCol | Move | Propfind | Proppatch | Search | Unlock | Bind | Rebind | Unbind | Acl
  | Report | MkActivity | Checkout | Merge
  | MSearch | Notify | Subscribe | Unsubscribe
  | MkCalendar
  | Link | Unlink
  | Source
  deriving DecidableEq

/-- The methods in the order of their values. -/
def HTTPMethod.all : List HTTPMethod :=
  [.Delete, .Get, .Head, .Post, .Put, .Connect, .Options, .Trace, .Patch, .Purge, .Copy, .Lock, .MkCol,
    .Move, .Propfind, .Proppatch, .Search, .Unlock, .Bind, .Rebind, .Unbind, .Acl, .Report,
    .MkActivity, .Checkout, .Merge, .MSearch, .Notify, .Subscribe, .Unsubscribe, .MkCalendar, .Link,
    .Unlink, .Source]

def method_name : HTTPMethod → Str
  | .Delete => str "DELETE"
  | .Get => str "GET"
  | .Head => str "HEAD"
  | .Post => str "POST"
  | .Put => str "PUT"
  | .Connect => str "CONNECT"
  | .Options => str "OPTIONS"
  | .Trace => str "TRACE"
  | .Patch => str "PATCH"
  | .Purge => str "PURGE"
  | .Copy => str "COPY"
  | .Lock => str "LOCK"
  | .MkCol => str "MKCOL"
  | .Move => str "MOVE"
  | .Propfind => str "PROPFIND"
  | .Proppatch => str "PROPPATCH"
  | .Search => str "SEARCH"
  | .Unlock => str "UNLOCK"
  | .Bind => str "BIND"
  | .Rebind => str "REBIND"
  | .Unbind => str "UNBIND"
  | .Acl => str "ACL"
  | .Report => str "REPORT"
  | .MkActivity => str "MKACTIVITY"
  | .Checkout => str "CHECKOUT"
  | .Merge => str "MERGE"
  | .MSearch => str "M-SEARCH"
  | .Notify => str "NOTIFY"
  | .Subscribe => str "SUBSCRIBE"
  | .Unsubscribe => str "UNSUBSCRIBE"
  | .MkCalendar => str "MKCALENDAR"
  | .Link => str "LINK"
  | .Unlink => str "UNLINK"
  | .Source => str "SOURCE"

/-! ## Rules -/

structure BaseRule (α : Type) where
  rule_ : Str
  methods_ : BitVec 32 := 1#32 <<< 1
  name_ : Str := []
  handler_ : Option α := none

section Rules

variable {α : Type}

/-- The methods whose bits are set; behind 32 doublings `method_bit` is 0. -/
def BaseRule.foreach_method (rule : BaseRule α) : List HTTPMethod :=
  (HTTPMethod.all.zipIdx.filter fun x => rule.methods_ &&& (1#32 <<< x.2) ≠ 0#32).map Prod.fst

def BaseRule.validate (rule : BaseRule α) : Except StartFault Unit :=
  match rule.rule_ with
  | [] => .error (.thrown .out_of_range)
  | c :: _ =>
    if c ≠ '/'.toUInt8 then
      .error (.thrown (.runtime_error (str "Internal error: Routes must start with a '/'")))
    else if rule.handler_.isNone then
      .error (.thrown (.runtime_error (rule.name_ ++ (if rule.name_ ≠ [] then str ": " else []) ++
        str "no handler for url " ++ rule.rule_)))
    else return ()

def has_trailing_slash (rule : Str) : Bool :=
  rule.length > 1 && rule.getLast? = some '/'.toUInt8

def RULE_SPECIAL_REDIRECT_SLASH : Nat := 1

/-- The rule indices 0 and 1 have a meaning of their own. -/
structure PerMethod (α : Type) where
  rules : List (Option (BaseRule α)) := [none, none]
  trie : Node := {}

/-- The body of `foreach_method` in `internal_add_rule_object`. -/
def PerMethod.add_rule (ruleObject : BaseRule α) (per_method : PerMethod α) :
    Except StartFault (PerMethod α) := do
  let rule := ruleObject.rule_
  let rules := per_method.rules ++ [some ruleObject]
  -- the index is handed over as a `uint16_t`
  let trie ← Trie.add rule ((rules.length - 1) % 0x10000) per_method.trie
  let trie ←
    if has_trailing_slash rule then Trie.add rule.dropLast RULE_SPECIAL_REDIRECT_SLASH trie
    else pure trie
  return { rules := rules, trie := trie }

structure Router (α : Type) where
  per_methods_ : HTTPMethod → PerMethod α := fun _ => {}

/-- `change` on the entries of `methods`, one after the other. -/
def forMethods (change : PerMethod α → Except StartFault (PerMethod α)) (methods : List HTTPMethod)
    (per_methods_ : HTTPMethod → PerMethod α) : Except StartFault (HTTPMethod → PerMethod α) :=
  methods.foldlM (fun per_methods_ method => do
    let per_method ← change (per_methods_ method)
    return Function.update per_methods_ method per_method) per_methods_

def Router.internal_add_rule_object (router : Router α) (ruleObject : BaseRule α) :
    Except StartFault (Router α) := do
  let per_methods_ ← forMethods (PerMethod.add_rule ruleObject) ruleObject.foreach_method
    router.per_methods_
  return { per_methods_ := per_methods_ }

def PerMethod.validate (per_method : PerMethod α) : Except StartFault (PerMethod α) := do
  let trie ← Trie.validate per_method.trie
  return { per_method with trie := trie }

/-- `validate` of a router without tries to which the rules `all_rules_` were added. -/
def Router.validate (all_rules_ : List (BaseRule α)) : Except StartFault (Router α) := do
  let router ← all_rules_.foldlM (fun router rule => do
    rule.validate
    router.internal_add_rule_object rule) ({} : Router α)
  let per_methods_ ← forMethods PerMethod.validate HTTPMethod.all router.per_methods_
  return { per_methods_ := per_methods_ }

/-! ## Requests -/

/-- What becomes of a request: it is answered at once, a handler is called (with `skip_body` in its
response for `HEAD`), or `handle` throws. -/
inductive Served (α δ : Type)
  | respond (res : CrowResponse)
  | call (handler : α) (params : RoutingParams δ) (skip_body : Bool)
  | throws
  deriving DecidableEq

/-- `handle_initial`: the response, or the rule that was found under a method. -/
inductive Initial (δ : Type)
  | respond (res : CrowResponse)
  | found (method : HTTPMethod) (rule_index : Nat) (r_params : RoutingParams δ) (skip_body : Bool)

namespace Router

variable {δ : Type} (strtod : Str → Option (δ × Nat)) (router : Router α)

def find (method : HTTPMethod) (url : Str) : Nat × RoutingParams δ :=
  (router.per_methods_ method).trie.find strtod url {}

/-- The header of a response to `OPTIONS`; `HEAD` is always allowed. -/
def allow (methods : List HTTPMethod) : Str :=
  let listed := methods.flatMap fun method =>
    if method = .Head then [] else method_name method ++ str ", "
  (str "OPTIONS, HEAD, " ++ listed).dropLast.dropLast

def handle_initial (method : HTTPMethod) (url : Str) : Initial δ :=
  let matching := HTTPMethod.all.filter fun m => (router.find strtod m url).1 ≠ 0
  if method = .Head then
    let found := router.find strtod .Head url
    if found.1 ≠ 0 then .found .Head found.1 found.2 true
    else
      let found := router.find strtod .Get url
      if found.1 = 0 then .respond { code := 404 } else .found .Get found.1 found.2 true
  else if method = .Options then
    if url = str "/*" then
      .respond { code := 204, headers := [(str "Allow", allow
        (HTTPMethod.all.filter fun m => !Trie.is_empty (router.per_methods_ m).trie))] }
    else if matching ≠ [] then
      .respond { code := 204, headers := [(str "Allow", allow matching)] }
    else .respond { code := 404 }
  else
    let found := router.find strtod method url
    if found.1 = 0 then .respond { code := if matching ≠ [] then 405 else 404 }
    else .found method found.1 found.2 false

/-- The redirection to the url with a slash behind it. -/
def redirection (host url : Str) (skip_body : Bool) : CrowResponse :=
  response_end {
    code := 301
    headers := [(str "Location",
      if host = [] then url ++ str "/" else str "http://" ++ host ++ url ++ str "/")]
    skip_body := skip_body }

/-- `handle`; `host` is the header, empty if there is none.  A rule without a handler throws, and
what is thrown is answered. -/
def handle (host url : Str) (method : HTTPMethod) (rule_index : Nat) (r_params : RoutingParams δ)
    (skip_body : Bool) : Served α δ :=
  match (router.per_methods_ method).rules[rule_index]? with
  | none => .throws
  | some rule =>
    if rule_index = RULE_SPECIAL_REDIRECT_SLASH then
      .respond (redirection host url skip_body)
    else
      match rule.bind BaseRule.handler_ with
      | some handler => .call handler r_params skip_body
      | none => .respond (response_end { code := 500, skip_body := skip_body })

/-- A request from its url to its handler. -/
def serve (host : Str) (method : HTTPMethod) (url : Str) : Served α δ :=
  match router.handle_initial strtod method url with
  | .respond res => .respond res
  | .found method rule_index r_params skip_body =>
    router.handle host url method rule_index r_params skip_body

end Router

end Rules

end TranscodingServer
