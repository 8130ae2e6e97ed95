import TranscodingServer.Routing.Router

/-!
# What the router is for

Without tries: of the rules for a method, the first one in the order of registration whose pattern
reads the url.  A rule that ends with a slash is also there for the url without the slash, with a
redirection that goes before every rule.
-/

namespace TranscodingServer

open Patterns

variable {α δ : Type}

namespace BaseRule

def pattern (rule : BaseRule α) : Pattern UInt8 ParamType := (urlPieces rule.rule_).getD []

/-- The pattern of the url without the slash at the end of the rule. -/
def slashless (rule : BaseRule α) : List (Pattern UInt8 ParamType) :=
  if has_trailing_slash rule.rule_ then [(urlPieces rule.rule_.dropLast).getD []] else []

def patterns (rule : BaseRule α) : List (Pattern UInt8 ParamType) := rule.pattern :: rule.slashless

/-- Every `<` starts a parameter. -/
def Readable (rule : BaseRule α) : Prop :=
  (urlPieces rule.rule_).isSome ∧
    (has_trailing_slash rule.rule_ = true → (urlPieces rule.rule_.dropLast).isSome)

instance (rule : BaseRule α) : Decidable rule.Readable := inferInstanceAs (Decidable (_ ∧ (_ → _)))

end BaseRule

def rulesFor (method : HTTPMethod) (rules : List (BaseRule α)) : List (BaseRule α) :=
  rules.filter fun rule => rule.foreach_method.contains method

/-- The rules of a method can all be added. -/
def Fits (rules : List (BaseRule α)) : Prop :=
  (∀ rule ∈ rules, rule.Readable) ∧ (rules.flatMap BaseRule.patterns).Nodup

/-- The rules can all be added, each for its methods. -/
structure Startable (rules : List (BaseRule α)) : Prop where
  slash : ∀ rule ∈ rules, rule.rule_.head? = some '/'.toUInt8
  handler : ∀ rule ∈ rules, rule.handler_.isSome
  fits : ∀ method, Fits (rulesFor method rules)

/-- What a url matches. -/
inductive Match (α δ : Type)
  | nothing
  | redirect
  | rule (rule : BaseRule α) (args : List (Arg δ))

variable (strtod : Str → Option (δ × Nat))

def redirects (rules : List (BaseRule α)) (url : Str) : Bool :=
  rules.any fun rule => rule.slashless.any fun p => (Patterns.read (ParamType.take strtod) p url).isSome

def firstRule (rules : List (BaseRule α)) (url : Str) : Option (BaseRule α × List (Arg δ)) :=
  rules.findSome? fun rule =>
    (Patterns.read (ParamType.take strtod) rule.pattern url).map (rule, ·)

def lookUp (rules : List (BaseRule α)) (url : Str) : Match α δ :=
  if redirects strtod rules url then .redirect
  else
    match firstRule strtod rules url with
    | some (rule, args) => .rule rule args
    | none => .nothing

namespace Match

def found : Match α δ → Bool
  | nothing => false
  | _ => true

def served (host url : Str) (skip_body : Bool) : Match α δ → Served α δ
  | nothing => .respond { code := 404 }
  | redirect => .respond (Router.redirection host url skip_body)
  | rule r args =>
    match r.handler_ with
    | some handler => .call handler (args.foldl .push {}) skip_body
    | none => .respond (response_end { code := 500, skip_body := skip_body })

end Match

/-- The methods with a rule for the url. -/
def methodsFor (rules : List (BaseRule α)) (url : Str) : List HTTPMethod :=
  HTTPMethod.all.filter fun m => (lookUp strtod (rulesFor m rules) url).found

/-- What becomes of a request. -/
def plainServe (rules : List (BaseRule α)) (host : Str) (method : HTTPMethod) (url : Str) :
    Served α δ :=
  if method = .Head then
    let found := lookUp strtod (rulesFor .Head rules) url
    (if found.found then found else lookUp strtod (rulesFor .Get rules) url).served host url true
  else if method = .Options then
    if url = str "/*" then
      .respond { code := 204, headers := [(str "Allow", Router.allow
        (HTTPMethod.all.filter fun m => !(rulesFor m rules).isEmpty))] }
    else if methodsFor strtod rules url ≠ [] then
      .respond { code := 204, headers := [(str "Allow", Router.allow (methodsFor strtod rules url))] }
    else .respond { code := 404 }
  else
    let found := lookUp strtod (rulesFor method rules) url
    if !found.found ∧ methodsFor strtod rules url ≠ [] then .respond { code := 405 }
    else found.served host url false

end TranscodingServer
