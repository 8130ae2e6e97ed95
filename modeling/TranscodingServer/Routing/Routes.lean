import TranscodingServer.Routing.Rules

/-!
# The routes (`main.cpp`: `startApiServer`, `crow/app.h`: `add_static_dir`)
-/

namespace TranscodingServer

open Patterns

/-- The handlers. -/
inductive Endpoint
  | get_config | add | remove | get_sessions | get_medias | static_dir
  deriving DecidableEq

/-- `methods` of a rule. -/
def BaseRule.methods {α : Type} (method : HTTPMethod) (rule : BaseRule α) : BaseRule α :=
  { rule with methods_ := 1#32 <<< HTTPMethod.all.idxOf method }

def CROW_ROUTE (url : Str) (handler : Endpoint) : BaseRule Endpoint :=
  { rule_ := url, handler_ := some handler }

def CROW_STATIC_ENDPOINT : Str := str "/static/<path>"

/-- The rules in the order in which they are added; `run` adds the last one. -/
def routes : List (BaseRule Endpoint) :=
  [(CROW_ROUTE (str "/get-config") .get_config).methods .Get,
    (CROW_ROUTE (str "/add") .add).methods .Post,
    (CROW_ROUTE (str "/remove") .remove).methods .Post,
    (CROW_ROUTE (str "/get-sessions") .get_sessions).methods .Get,
    (CROW_ROUTE (str "/get-medias") .get_medias).methods .Get,
    CROW_ROUTE CROW_STATIC_ENDPOINT .static_dir]

/-! ## The rules of a method -/

def getRoutes : List (BaseRule Endpoint) := routes.filter fun rule => rule.methods_ = 1#32 <<< 1

def postRoutes : List (BaseRule Endpoint) := routes.filter fun rule => rule.methods_ = 1#32 <<< 3

theorem rulesFor_routes (method : HTTPMethod) :
    rulesFor method routes =
      if method = .Get then getRoutes else if method = .Post then postRoutes else [] := by
  cases method <;> rfl

theorem fits_getRoutes : Fits getRoutes := by
  constructor
  · decide
  · decide

theorem fits_postRoutes : Fits postRoutes := by
  constructor
  · decide
  · decide

theorem startable_routes : Startable routes where
  slash := by decide
  handler := by decide
  fits method := by
    rw [rulesFor_routes]
    split_ifs
    · exact fits_getRoutes
    · exact fits_postRoutes
    · exact ⟨by simp, List.nodup_nil⟩

end TranscodingServer
