import TranscodingServer.Http.Endpoints
import TranscodingServer.Json.Theorems

/-!
# What a client reads out of a response

A client reads the text with any JSON reader and looks the fields up by their names.
-/

namespace TranscodingServer

def Json.field (j : Json) (key : String) : Option Str := (j.get? (str key)).bind Json.s

/-- The field of a whole number. -/
def Json.count (j : Json) (key : String) : Option Int :=
  match j.get? (str key) with
  | some (.number t) => some (readInt t)
  | _ => none

/-- The field of a list, each element read by `item`. -/
def Json.items {α : Type} (item : Json → Option α) (j : Json) (key : String) : Option (List α) :=
  match j.get? (str key) with
  | some (.list l) => l.mapM item
  | _ => none

def MountPoints.ofJson (j : Json) : Option MountPoints := do
  return {
    uri_first := ← j.field "uri_first"
    uri_second := ← j.field "uri_second"
    uri_third := ← j.field "uri_third"
    uri_fourth := ← j.field "uri_fourth" }

def MediaInfo.ofJson (j : Json) : Option MediaInfo := do
  return {
    id := ← j.field "id"
    user := ← j.field "user"
    pass := ← j.field "pass"
    ip := ← j.field "ip"
    port := ← j.field "port"
    path := ← j.field "path"
    full_path := ← j.field "full_path"
    ready_time := ← j.field "ready_time"
    mount_points := ← (j.get? (str "mount_points")).bind MountPoints.ofJson }

def SessionInfo.ofJson (j : Json) : Option SessionInfo := do
  return { session_id := ← j.field "session_id", uri := ← j.field "uri" }

def Report.ofJson {α : Type} (item : Json → Option α) (j : Json) : Option (Report α) := do
  return {
    result := ← j.field "result"
    message := ← j.field "message"
    count := ← j.count "count"
    list := ← j.items item "list" }

def RemoveResult.ofJson (j : Json) : Option RemoveResult := do
  return { result := ← j.field "result", message := ← j.field "message" }

/-! ## What was written is read -/

section Written

variable {sort : List (Str × Json) → List (Str × Json)} {w : Wvalue}

theorem lookup_jsonObject (o : List (Str × Wvalue)) (key : Str) :
    (Wvalue.jsonObject sort o).lookup key = (o.lookup key).map (Wvalue.json sort) := by
  induction o with
  | nil => rfl
  | cons kv o ih =>
      rw [Wvalue.jsonObject, List.lookup_cons, List.lookup_cons, ih]
      cases key == kv.1 <;> rfl

/-- A list of written values is read item by item. -/
theorem mapM_items {α : Type} {item : Json → Option α} {write : α → Wvalue}
    (h : ∀ a w, (write a).Arranged w → item (w.json sort) = some a) (l : List α) {m : List Wvalue}
    (hm : Wvalue.ArrangedList (l.map write) m) : (Wvalue.jsonList sort m).mapM item = some l := by
  induction l generalizing m with
  | nil =>
      cases hm
      rfl
  | cons a l ih =>
      cases hm with
      | cons ha hl =>
          rw [Wvalue.jsonList, List.mapM_cons, h a _ ha, ih hl]
          rfl

variable (hsort : ∀ fields, (sort fields).Perm fields)

include hsort

/-- The order in which the fields are written and the one in which they are found do not matter. -/
theorem Wvalue.Arranged.get? {fields : List (Str × Wvalue)} (hd : (fields.map Prod.fst).Nodup)
    (h : (Wvalue.object fields).Arranged w) {key : Str} {x : Wvalue}
    (hx : fields.lookup key = some x) :
    ∃ y, x.Arranged y ∧ (w.json sort).get? key = some (y.json sort) := by
  cases h with
  | @object _ p q hp hperm =>
      obtain ⟨y, hy, hlookup⟩ := hp.lookup hx
      have hread : (sort (Wvalue.jsonObject sort q)).Perm (Wvalue.jsonObject sort p) := by
        refine (hsort _).trans ?_
        rw [jsonObject_eq, jsonObject_eq]
        exact (hperm.map _).symm
      have hkeys : ((Wvalue.jsonObject sort p).map Prod.fst).Nodup := by
        rw [jsonObject_eq, List.map_map]
        exact hp.keys_eq ▸ hd
      refine ⟨y, hy, ?_⟩
      rw [Wvalue.json, Json.get?, lookup_perm hread ((hread.map Prod.fst).nodup_iff.mpr hkeys),
        lookup_jsonObject, hlookup]
      rfl

theorem Wvalue.Arranged.field {fields : List (Str × Wvalue)} (hd : (fields.map Prod.fst).Nodup)
    (h : (Wvalue.object fields).Arranged w) {key : String} {s : Str}
    (hs : fields.lookup (str key) = some (.string s)) : (w.json sort).field key = some s := by
  obtain ⟨y, hy, hget⟩ := h.get? hsort hd hs
  cases hy
  rw [Json.field, hget]
  rfl

theorem Wvalue.Arranged.items {α : Type} {item : Json → Option α} {write : α → Wvalue}
    (hitem : ∀ a w, (write a).Arranged w → item (w.json sort) = some a)
    {fields : List (Str × Wvalue)} (hd : (fields.map Prod.fst).Nodup)
    (h : (Wvalue.object fields).Arranged w) {key : String} {l : List α}
    (hl : fields.lookup (str key) = some (.list (l.map write))) :
    (w.json sort).items item key = some l := by
  obtain ⟨y, hy, hget⟩ := h.get? hsort hd hl
  cases hy with
  | list hm =>
      rw [Json.items, hget]
      exact mapM_items hitem l hm

end Written

/-! ## The responses are flat -/

section Within

variable {fits : Nat → Prop}

end Within

/-! ## Responses -/

theorem sends_something (reply : Response Wvalue) : ∃ response, reply.Sends response := by
  cases reply with
  | ok value => exact ⟨_, .ok (fun _ => []) (.refl value)⟩
  | status code => exact ⟨_, .status code fun _ => []⟩

/-- The body of the response is a document that reads as the value. -/
def Reads {α : Type} (sort : List (Str × Json) → List (Str × Json)) (ofJson : Json → Option α)
    (response : HttpResponse) (a : α) : Prop :=
  response.code = 200 ∧ ∃ j, Document sort j response.body ∧ ofJson j = some a

section Reads

variable {sort : List (Str × Json) → List (Str × Json)} {response : HttpResponse}

theorem Reads.unique {α : Type} {ofJson : Json → Option α} {a b : α}
    (ha : Reads sort ofJson response a) (hb : Reads sort ofJson response b) : a = b := by
  obtain ⟨_, j, hj, hja⟩ := ha
  obtain ⟨_, j', hj', hjb⟩ := hb
  rw [document_unique hj hj', hjb] at hja
  exact (Option.some.inj hja).symm

variable (hsort : ∀ fields, (sort fields).Perm fields)

include hsort

end Reads

end TranscodingServer
