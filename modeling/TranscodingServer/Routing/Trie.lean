import TranscodingServer.Library.Patterns
import TranscodingServer.Json.Grammar

/-!
# The search tree of the router (`crow/routing.h`: `Trie`)

A position in a url is the part of the url from there on.  No blueprint is registered, so nodes carry
no blueprint index.  `strtod` reads a floating point number: its value and the number of characters
read, or nothing when it is out of range.
-/

namespace TranscodingServer

open Patterns

/-- `ParamType`; `MAX`, no parameter, is `none`. -/
inductive ParamType
  | INT
  | UINT
  | DOUBLE
  | STRING
  | PATH
  deriving DecidableEq

inductive Arg (δ : Type)
  | int (v : Int)
  | uint (v : Nat)
  | double (v : δ)
  | string (v : Str)
  deriving DecidableEq

structure RoutingParams (δ : Type) where
  int_params : List Int := []
  uint_params : List Nat := []
  double_params : List δ := []
  string_params : List Str := []
  deriving DecidableEq

def RoutingParams.push {δ : Type} (params : RoutingParams δ) : Arg δ → RoutingParams δ
  | .int v => { params with int_params := params.int_params ++ [v] }
  | .uint v => { params with uint_params := params.uint_params ++ [v] }
  | .double v => { params with double_params := params.double_params ++ [v] }
  | .string v => { params with string_params := params.string_params ++ [v] }

/-- What `strtoll` and `strtoull` read: a sign, and digits up to the first character that is none. -/
def signedDigits (s : Str) : Option (Bool × Nat × Str) :=
  let t := if s.head? = some '-'.toUInt8 ∨ s.head? = some '+'.toUInt8 then s.tail else s
  if t.takeWhile isDecimal = [] then none
  else some (s.head? = some '-'.toUInt8, readNat (t.takeWhile isDecimal), t.dropWhile isDecimal)

/-- The branches of `find` over the kinds of parameters. -/
def ParamType.take {δ : Type} (strtod : Str → Option (δ × Nat)) :
    ParamType → Str → Option (Arg δ × Str)
  | _, [] => none
  | .INT, c :: s =>
    if isDecimal c ∨ c = '+'.toUInt8 ∨ c = '-'.toUInt8 then
      (signedDigits (c :: s)).bind fun (negative, n, rest) =>
        let value : Int := if negative then -n else n
        if -0x8000000000000000 ≤ value ∧ value ≤ 0x7FFFFFFFFFFFFFFF then some (.int value, rest)
        else none
    else none
  | .UINT, c :: s =>
    if isDecimal c ∨ c = '+'.toUInt8 then
      (signedDigits (c :: s)).bind fun (_, value, rest) =>
        if value ≤ 0xFFFFFFFFFFFFFFFF then some (.uint value, rest) else none
    else none
  | .DOUBLE, c :: s =>
    if isDecimal c ∨ c = '+'.toUInt8 ∨ c = '-'.toUInt8 ∨ c = '.'.toUInt8 then
      (strtod (c :: s)).bind fun (value, n) =>
        if n ≠ 0 then some (.double value, (c :: s).drop n) else none
    else none
  | .STRING, c :: s =>
    let epos := ((c :: s).takeWhile (· ≠ '/'.toUInt8)).length
    if epos ≠ 0 then some (.string ((c :: s).take epos), (c :: s).drop epos) else none
  | .PATH, c :: s => some (.string (c :: s), [])

/-- What keeps the server from starting: an exception, or a call that does not return. -/
inductive StartFault
  | thrown (e : Exn)
  | endless
  deriving DecidableEq

structure Node where
  rule_index : Nat := 0
  key : Str := []
  param : Option ParamType := none
  children : List Node := []

namespace Node

def IsSimpleNode (node : Node) : Bool :=
  node.rule_index = 0 && node.children.length < 2 && node.param.isNone &&
    node.children.all fun x => x.param.isNone

/-! ## Searching -/

section Find

variable {δ : Type} (strtod : Str → Option (δ × Nat))

/-- The lambda `update_found`. -/
def update_found (found ret : Nat × RoutingParams δ) : Nat × RoutingParams δ :=
  if ret.1 ≠ 0 ∧ (found.1 = 0 ∨ found.1 > ret.1) then ret else found

mutual
/-- `find`, from `req_url` at its position on: the rule index, 0 for none, and the parameters. -/
def find : Node → Str → RoutingParams δ → Nat × RoutingParams δ
  | ⟨rule_index, _, _, _⟩, [], params => (rule_index, params)
  | ⟨_, _, _, children⟩, c :: url, params => findIn children (c :: url) params (0, {})

/-- The loop over the children. -/
def findIn : List Node → Str → RoutingParams δ → Nat × RoutingParams δ → Nat × RoutingParams δ
  | [], _, _, found => found
  | child :: rest, url, params, found =>
    findIn rest url params <|
      match child.param with
      | some type =>
        match type.take strtod url with
        | some (arg, rest) => update_found found (find child rest (params.push arg))
        | none => found
      | none =>
        if child.key.isPrefixOf url then
          update_found found (find child (url.drop child.key.length) params)
        else found
end

end Find

/-! ## Adding -/

/-- The first child that `p` finds is changed by `f`, or else a new one. -/
def descend (p : Node → Bool) (new_node : Node) (f : Node → Except StartFault Node) :
    List Node → Except StartFault (List Node)
  | [] => return [← f new_node]
  | child :: rest =>
    if p child then return (← f child) :: rest
    else return child :: (← descend p new_node f rest)

/-- The test for the child that a piece leads to. -/
def leadsTo (piece : Piece UInt8 ParamType) (child : Node) : Bool :=
  match piece with
  | .param type => child.param = some type
  -- the character behind the last one of a `std::string` is 0
  | .item c => child.key.headD 0 = c

def newNode : Piece UInt8 ParamType → Node
  | .param type => { param := some type }
  | .item c => { key := [c] }

/-- `add` behind the pieces of `url` that are already read. -/
def addPieces (url : Str) (rule_index : Nat) : Pattern UInt8 ParamType → Node → Except StartFault Node
  | [], node =>
    if node.rule_index ≠ 0 then
      .error (.thrown (.runtime_error (str "handler already exists for " ++ url)))
    else return { node with rule_index := rule_index }
  | piece :: pieces, node => do
    let children ← descend (leadsTo piece) (newNode piece) (addPieces url rule_index pieces)
      node.children
    return { node with children := children }

end Node

def paramTraits : List (ParamType × Str) :=
  [(.INT, str "<int>"), (.UINT, str "<uint>"), (.DOUBLE, str "<float>"), (.DOUBLE, str "<double>"),
    (.STRING, str "<str>"), (.STRING, str "<string>"), (.PATH, str "<path>")]

/-- The pieces that the loop of `add` reads, behind `skip` characters that belong to the last one.
At a `<` that starts no parameter the loop never gets on. -/
def urlPiecesFrom : Nat → Str → Option (Pattern UInt8 ParamType)
  | _, [] => some []
  | skip + 1, _ :: url => urlPiecesFrom skip url
  | 0, c :: url =>
    if c = '<'.toUInt8 then
      match paramTraits.find? fun x => x.2.isPrefixOf (c :: url) with
      | some x => (urlPiecesFrom (x.2.length - 1) url).map (.param x.1 :: ·)
      | none => none
    else (urlPiecesFrom 0 url).map (.item c :: ·)

def urlPieces (url : Str) : Option (Pattern UInt8 ParamType) := urlPiecesFrom 0 url

/-! ## Compressing -/

namespace Node

mutual
/-- `optimizeNode` of a node whose key stands behind `key`, which it was merged with. -/
def optimizeBehind (key : Str) : Node → Node
  | ⟨rule_index, own, param, []⟩ => ⟨rule_index, key ++ own, param, []⟩
  | ⟨rule_index, own, param, child :: rest⟩ =>
    if IsSimpleNode ⟨rule_index, own, param, child :: rest⟩ then optimizeBehind (key ++ own) child
    else ⟨rule_index, key ++ own, param, optimizeAll (child :: rest)⟩

def optimizeAll : List Node → List Node
  | [] => []
  | child :: rest => optimizeBehind [] child :: optimizeAll rest
end

def optimizeNode (node : Node) : Node := optimizeBehind [] node

end Node

namespace Trie

def add (url : Str) (rule_index : Nat) (head : Node) : Except StartFault Node :=
  match urlPieces url with
  | some ps => head.addPieces url rule_index ps
  | none => .error .endless

def is_empty (head : Node) : Bool := head.children.isEmpty

def validate (head : Node) : Except StartFault Node :=
  if head.IsSimpleNode then return { head with children := head.children.map Node.optimizeNode }
  else .error (.thrown (.runtime_error (str "Internal error: Trie header should be simple!")))

end Trie

end TranscodingServer
