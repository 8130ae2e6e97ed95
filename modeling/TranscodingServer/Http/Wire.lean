import TranscodingServer.Http.Jobs
import TranscodingServer.Http.Lemmas.Client
import TranscodingServer.Http.Server

/-!
# The endpoints over the wire

What a client sends reaches the handlers, and what they report reaches the client, byte for byte.
-/

namespace TranscodingServer

open JsonParser

def camBody : Str :=
  str "\x7b\"rtsp_uris\":[\x7b\"id\":\"cam\",\"url\":\"rtsp://10.0.0.1/live\"\x7d]\x7d"

def camAdded (e : UriParts) : Report MediaInfo := addResult (.record (str "cam") camUrl (some e) {})

section Wire

variable {sort : List (Str × Json) → List (Str × Json)}
  (hsort : ∀ fields, (sort fields).Perm fields)

section Batches

include hsort

/-- The list of a body is no longer than the longest array of the reader. -/
theorem length_bodyItems {key body : Str} {json : List Json} (h : bodyItems sort key body = some json) :
    json.length ≤ max_elements := by
  rw [bodyItems] at h
  cases hload : load sort body with
  | error e =>
      rw [hload] at h
      cases h
  | ok v =>
      rw [hload, batch] at h
      split at h
      · rename_i l hget
        cases h
        obtain ⟨_, _, _, _, _, hvalue, _⟩ := load_eq_ok_iff.mp hload
        have hzero : 0 ≤ max_elements := Nat.zero_le _
        exact @Value.get?_fits _ (· ≤ max_elements) _ hzero hsort _ _ _ _ hvalue hget
      · cases h

/-- The batch of a body whose items are well-formed. -/
def Batch.ofBody {ι : Type} {args : Json → Except Nat ι} {key body : Str} {json : List Json}
    {items : List ι} (h : bodyItems sort key body = some json) (hargs : json.map args = items.map .ok) :
    Batch ι where
  items := items
  short := by
    have hlength := congrArg List.length hargs
    rw [List.length_map, List.length_map] at hlength
    rw [← hlength]
    exact Nat.lt_of_le_of_lt (length_bodyItems hsort h) (by decide)

/-- The request `POST /add` with a body of well-formed items is the job of their batch. -/
theorem postAdd_run {body : Str} {json : List Json} {items : List (Str × Str)}
    (h : bodyItems sort (str "rtsp_uris") body = some json) (hargs : json.map addArgs = items.map .ok)
    (gst : Gst) (clock : Nat → Str) (s : TranscodingService) :
    ∃ tr acc t, (poolLts gst).Run (s, [(Request.add (.ofBody hsort h hargs)).start]) tr
        (t, [.add [] acc]) ∧
      postAdd sort gst clock body s = (sendMedias (addResult acc), t) := by
  obtain ⟨tr, acc, t, hrun, hhandler⟩ := addHandler_run clock (.ofBody hsort h hargs) h hargs s
  exact ⟨tr, acc, t, hrun, by rw [postAdd, hhandler]; rfl⟩

theorem postRemove_run {body : Str} {json : List Json} {ids : List Str}
    (h : bodyItems sort (str "rtsp_ids") body = some json) (hargs : json.map removeArgs = ids.map .ok)
    (gst : Gst) (clock : Nat → Str) (s : TranscodingService) :
    ∃ tr failedUrls t, (poolLts gst).Run (s, [(Request.remove (.ofBody hsort h hargs)).start]) tr
        (t, [.remove [] failedUrls]) ∧
      postRemove sort gst clock body s = (sendRemoved (removeResult failedUrls), t) := by
  obtain ⟨tr, failedUrls, t, hrun, hhandler⟩ :=
    removeHandler_run clock (.ofBody hsort h hargs) h hargs s
  exact ⟨tr, failedUrls, t, hrun, by rw [postRemove, hhandler]; rfl⟩

end Batches

/-! ## Requests as the writer writes them -/

include hsort

end Wire

end TranscodingServer
