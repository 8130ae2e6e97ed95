import TranscodingServer.Core.Lemmas.Log
import TranscodingServer.Http.Lemmas.Listing
import TranscodingServer.Http.Server

/-!
# How far the handlers have come
-/

namespace TranscodingServer

open Lts Locking

variable {gst : Gst} {s t : TranscodingService}
  {h h' : Handler} {l : Method × Answer}

/-- The calls of the service in the log of a thread. -/
def callsOf (ls : List (Method × Answer)) : List (Call × Ret) := ls.filterMap Method.call?

theorem Handler.Starts.calm {m : Method} (h : Handler.Starts h' m) : m.Calm := by
  cases h with
  | add now => rfl
  | remove now => rfl
  | getMedias | getSessions | client_connected client | describe client
    | setup client session abspath | teardown client session | closed client => trivial

theorem sent_run {reply : Response Wvalue} {ls : List (Method × Answer)}
    (h : (Pool.jobLts (Handler.Step gst)).Run (.sent reply) ls h') :
    ls = [] ∧ h' = .sent reply := by
  induction h with
  | nil => exact ⟨rfl, rfl⟩
  | snoc _ hstep ih =>
      obtain ⟨s, t, hstart, _⟩ := hstep
      rw [ih.2] at hstart
      cases hstart

/-! ## The loops -/

section Loop

variable {ι α : Type} {args : Json → Except Nat ι} {call : ι → List Json → α → Handler}
  {send : α → Response Wvalue}

/-- The loop has made the calls `ls`, one for each of its first items, and filled its variables from
them. -/
def LoopProgress (args : Json → Except Nat ι) (call : ι → List Json → α → Handler)
    (send : α → Response Wvalue) (Made : ι → Call × Ret → Prop) (filled : List (Call × Ret) → α)
    (json : List Json) (ls : List (Call × Ret)) (h : Handler) : Prop :=
  ∃ items todo, json.map args = items.map .ok ++ todo.map args ∧ List.Forall₂ Made items ls ∧
    h = nextCall args call send todo (filled ls)

variable {Made : ι → Call × Ret → Prop} {filled : List (Call × Ret) → α}

/-- A call of the loop is one for its next item, and what it returns goes into the variables. -/
def LoopStep (gst : Gst) (args : Json → Except Nat ι) (call : ι → List Json → α → Handler)
    (send : α → Response Wvalue) (Made : ι → Call × Ret → Prop) (filled : List (Call × Ret) → α) : Prop :=
  ∀ i rest ls s l h' t, Handler.Step gst (call i rest (filled ls)) s l h' t →
    ∃ c, Method.call? l = some c ∧ Made i c ∧
      h' = nextCall args call send rest (filled (ls ++ [c]))

theorem LoopProgress.step {json : List Json} {ls : List (Call × Ret)}
    (hloop : LoopStep gst args call send Made filled)
    (hp : LoopProgress args call send Made filled json ls h)
    (hstep : Handler.Step gst h s l h' t) :
    LoopProgress args call send Made filled json (ls ++ callsOf [l]) h' := by
  obtain ⟨items, todo, hjson, hmade, rfl⟩ := hp
  cases todo with
  | nil => cases hstep.1
  | cons item rest =>
      rw [nextCall] at hstep
      cases hargs : args item with
      | error code =>
          rw [hargs] at hstep
          cases hstep.1
      | ok i =>
          rw [hargs] at hstep
          obtain ⟨c, hcall, hmade', rfl⟩ := hloop i rest ls s l h' t hstep
          have hcalls : callsOf [l] = [c] := by simp [callsOf, hcall]
          rw [hcalls]
          refine ⟨items ++ [i], rest, ?_, List.rel_append hmade (.cons hmade' .nil), rfl⟩
          rw [hjson]
          simp [hargs]

theorem loopProgress_run {json : List Json} {ls : List (Method × Answer)}
    (hloop : LoopStep gst args call send Made filled)
    (hrun : (Pool.jobLts (Handler.Step gst)).Run
      (nextCall args call send json (filled [])) ls h) :
    LoopProgress args call send Made filled json (callsOf ls) h := by
  induction hrun with
  | nil => exact ⟨[], json, rfl, .nil, rfl⟩
  | snoc _ hstep ih =>
      obtain ⟨s, t, hstep⟩ := hstep
      rw [callsOf, List.filterMap_append]
      exact ih.step hloop hstep

end Loop

/-- A handler that goes through the list of its body, if there is one. -/
theorem batch_progress {ι α : Type} {args : Json → Except Nat ι} {call : ι → List Json → α → Handler}
    {send : α → Response Wvalue} {Made : ι → Call × Ret → Prop} {filled : List (Call × Ret) → α}
    (hloop : LoopStep gst args call send Made filled) {json : Option (List Json)} {h₀ : Handler}
    (hnone : json = none → h₀ = .sent (.status 400))
    (hsome : ∀ items, json = some items → h₀ = nextCall args call send items (filled []))
    {ls : List (Method × Answer)} (hrun : (Pool.jobLts (Handler.Step gst)).Run h₀ ls h) :
    (json = none ∧ callsOf ls = [] ∧ h = .sent (.status 400)) ∨
      ∃ items, json = some items ∧ LoopProgress args call send Made filled items (callsOf ls) h := by
  cases json with
  | none =>
      rw [hnone rfl] at hrun
      obtain ⟨rfl, rfl⟩ := sent_run hrun
      exact .inl ⟨rfl, rfl, rfl⟩
  | some items =>
      rw [hsome items rfl] at hrun
      exact .inr ⟨items, rfl, loopProgress_run hloop hrun⟩

/-- What the loop of `/add` has filled behind the calls `ls`. -/
def AddAcc.filled (ls : List (Call × Ret)) : AddAcc where
  response_list := ls.filterMap listed
  failedUrls := ls.filterMap notAdded

theorem AddAcc.filled_snoc (ls : List (Call × Ret)) (now id url : Str) (r : Option UriParts) :
    AddAcc.filled (ls ++ [(.AddRtsp now id url, .uriParts r)]) = (AddAcc.filled ls).record id url r := by
  simp only [AddAcc.filled, List.filterMap_append]
  cases r with
  | none =>
      have hlisted : [(Call.AddRtsp now id url, Ret.uriParts none)].filterMap listed = [] := rfl
      rw [hlisted, List.append_nil]
      rfl
  | some e =>
      have hfailed : [(Call.AddRtsp now id url, Ret.uriParts (some e))].filterMap notAdded = [] := rfl
      rw [hfailed, List.append_nil]
      rfl

theorem nextAdd_loop : LoopStep gst addArgs .add (fun acc => sendMedias (addResult acc))
    Addition AddAcc.filled := by
  rintro ⟨id, url⟩ rest ls s ⟨m, r⟩ h' t ⟨hstart, hexec, rfl⟩
  cases hstart with
  | add now =>
      rw [Method.exec] at hexec
      rcases AddRtsp_cases gst s now id url with ⟨parts, _, hp, hadd⟩ | ⟨_, hadd⟩
      · rw [hadd] at hexec
        cases hexec
        refine ⟨_, rfl, .added now (id, url) _ (readyAt_full_path hp), ?_⟩
        rw [AddAcc.filled_snoc]
        rfl
      · rw [hadd] at hexec
        cases hexec
        refine ⟨_, rfl, .failed now (id, url), ?_⟩
        rw [AddAcc.filled_snoc]
        rfl

theorem add_progress {sort : List (Str × Json) → List (Str × Json)} {body : Str}
    {ls : List (Method × Answer)}
    (hrun : (Pool.jobLts (Handler.Step gst)).Run ((HttpRequest.postAdd body).start sort) ls h) :
    (bodyItems sort (str "rtsp_uris") body = none ∧ callsOf ls = [] ∧ h = .sent (.status 400)) ∨
      ∃ items, bodyItems sort (str "rtsp_uris") body = some items ∧
        LoopProgress addArgs .add (fun acc => sendMedias (addResult acc)) Addition AddAcc.filled items
          (callsOf ls) h := by
  refine batch_progress nextAdd_loop (fun hnone => ?_) (fun items hsome => ?_) hrun
  · rw [HttpRequest.start, hnone]
  · rw [HttpRequest.start, hsome]
    rfl

/-- The removal of an id, with what it returned. -/
inductive Removing : Str → Call × Ret → Prop
  | removing (now id : Str) (ret : Bool) : Removing id (.RemoveRtsp now id, .bool ret)

def notRemoved : Call × Ret → Option Str
  | (.RemoveRtsp _ id, .bool false) => some id
  | _ => none

theorem notRemoved_snoc (ls : List (Call × Ret)) (now id : Str) (ret : Bool) :
    (ls ++ [(Call.RemoveRtsp now id, Ret.bool ret)]).filterMap notRemoved =
      if ret then ls.filterMap notRemoved else ls.filterMap notRemoved ++ [id] := by
  rw [List.filterMap_append]
  cases ret with
  | true => exact List.append_nil _
  | false => rfl

theorem nextRemove_loop : LoopStep gst removeArgs .remove
    (fun failedUrls => sendRemoved (removeResult failedUrls)) Removing
    (·.filterMap notRemoved) := by
  rintro id rest ls s ⟨m, r⟩ h' t ⟨hstart, hexec, rfl⟩
  cases hstart with
  | remove now =>
      have hr : (.bool (RemoveRtsp gst (Env.calm now) id s).1 : Answer) = r :=
        congrArg Prod.fst hexec
      subst hr
      refine ⟨_, rfl, .removing now id _, ?_⟩
      exact congrArg (nextRemove rest) (notRemoved_snoc ls now id _).symm

theorem remove_progress {sort : List (Str × Json) → List (Str × Json)} {body : Str}
    {ls : List (Method × Answer)}
    (hrun : (Pool.jobLts (Handler.Step gst)).Run ((HttpRequest.postRemove body).start sort) ls h) :
    (bodyItems sort (str "rtsp_ids") body = none ∧ callsOf ls = [] ∧ h = .sent (.status 400)) ∨
      ∃ items, bodyItems sort (str "rtsp_ids") body = some items ∧
        LoopProgress removeArgs .remove (fun failedUrls => sendRemoved (removeResult failedUrls))
          Removing (·.filterMap notRemoved) items (callsOf ls) h := by
  refine batch_progress nextRemove_loop (fun hnone => ?_) (fun items hsome => ?_) hrun
  · rw [HttpRequest.start, hnone]
  · rw [HttpRequest.start, hsome]
    rfl

/-! ## The listings -/

/-- A handler of one call, whose answer is sent. -/
theorem single_run {j : Handler} {m : Method} {reply : TranscodingService → Response Wvalue}
    (hstarts : ∀ m', Handler.Starts j m' → m' = m)
    (hresume : ∀ s, j.resume (m.exec gst s).1 = .sent (reply s)) {ls : List (Method × Answer)}
    (h : (Pool.jobLts (Handler.Step gst)).Run j ls h') :
    ls = [] ∧ h' = j ∨ ∃ s, ls = [(m, (m.exec gst s).1)] ∧ h' = .sent (reply s) := by
  induction h with
  | nil => exact .inl ⟨rfl, rfl⟩
  | @snoc ls h l h' _ hstep ih =>
      obtain ⟨m', r⟩ := l
      obtain ⟨s, t, hstart, hexec, rfl⟩ := hstep
      rcases ih with ⟨rfl, rfl⟩ | ⟨s', rfl, rfl⟩
      · obtain rfl := hstarts m' hstart
        obtain rfl : (m'.exec gst s).1 = r := congrArg Prod.fst hexec
        exact .inr ⟨s, rfl, hresume s⟩
      · cases hstart

theorem medias_run {ls : List (Method × Answer)}
    (h : (Pool.jobLts (Handler.Step gst)).Run .getMedias ls h') :
    ls = [] ∧ h' = .getMedias ∨
      ∃ s, ls = [(.GetMedias, .medias (GetMedias s))] ∧ h' = .sent (sendMedias (GetMedias s)) := by
  refine single_run (fun m hstart => ?_) (fun s => ?_) h
  · cases hstart
    rfl
  · rfl

theorem sessions_run {ls : List (Method × Answer)}
    (h : (Pool.jobLts (Handler.Step gst)).Run .getSessions ls h') :
    ls = [] ∧ h' = .getSessions ∨
      ∃ s, ls = [(.GetClientSessions, .sessions (GetClientSessions s))] ∧
        h' = .sent (sendSessions (GetClientSessions s)) := by
  refine single_run (fun m hstart => ?_) (fun s => ?_) h
  · cases hstart
    rfl
  · rfl

/-! ## What is left to do -/

/-- The calls that a handler has still to make at most. -/
def Handler.calls : Handler → Nat
  | .add _ rest _ => rest.length + 1
  | .remove _ rest _ => rest.length + 1
  | .getMedias => 1
  | .getSessions => 1
  | .sent _ => 0
  | .clients => 0

section Loop

variable {ι α : Type} {args : Json → Except Nat ι} {call : ι → List Json → α → Handler}
  {send : α → Response Wvalue}

theorem nextCall_calls (hcall : ∀ i rest acc, (call i rest acc).calls = rest.length + 1)
    (todo : List Json) (acc : α) : (nextCall args call send todo acc).calls ≤ todo.length := by
  cases todo with
  | nil => exact Nat.le_refl 0
  | cons item rest =>
      rw [nextCall]
      cases args item with
      | error code => exact Nat.zero_le _
      | ok i => exact Nat.le_of_eq (hcall i rest acc)

theorem nextCall_ne_clients (hcall : ∀ i rest acc, call i rest acc ≠ .clients) (todo : List Json)
    (acc : α) : nextCall args call send todo acc ≠ .clients := by
  cases todo with
  | nil => exact Handler.noConfusion
  | cons item rest =>
      rw [nextCall]
      cases args item with
      | error code => exact Handler.noConfusion
      | ok i => exact hcall i rest acc

end Loop

theorem Handler.starts_of_calls (hcalls : h.calls ≠ 0) : ∃ m, Handler.Starts h m := by
  cases h with
  | add item rest acc => exact ⟨_, .add (str "")⟩
  | remove id rest failedUrls => exact ⟨_, .remove (str "")⟩
  | getMedias => exact ⟨_, .getMedias⟩
  | getSessions => exact ⟨_, .getSessions⟩
  | sent reply => exact absurd rfl hcalls
  | clients => exact absurd rfl hcalls

/-- Every call brings a handler nearer to its response. -/
theorem Handler.Step.calls_lt (hstep : Handler.Step gst h s l h' t) (hcalls : h.calls ≠ 0) :
    h'.calls < h.calls := by
  obtain ⟨m, r⟩ := l
  obtain ⟨hstart, hexec, rfl⟩ := hstep
  cases hstart with
  | add now =>
      cases hexec
      exact Nat.lt_succ_of_le (nextCall_calls (fun _ _ _ => rfl) _ _)
  | remove now =>
      cases hexec
      exact Nat.lt_succ_of_le (nextCall_calls (fun _ _ _ => rfl) _ _)
  | getMedias =>
      cases hexec
      exact Nat.one_pos
  | getSessions =>
      cases hexec
      exact Nat.one_pos
  | client_connected client | describe client | setup client session abspath
    | teardown client session | closed client => exact absurd rfl hcalls

theorem Handler.Step.ne_clients (hstep : Handler.Step gst h s l h' t) (hne : h ≠ .clients) :
    h' ≠ .clients := by
  obtain ⟨m, r⟩ := l
  obtain ⟨hstart, hexec, rfl⟩ := hstep
  cases hstart with
  | add now =>
      cases hexec
      exact nextCall_ne_clients (fun _ _ _ => Handler.noConfusion) _ _
  | remove now =>
      cases hexec
      exact nextCall_ne_clients (fun _ _ _ => Handler.noConfusion) _ _
  | getMedias =>
      cases hexec
      exact Handler.noConfusion
  | getSessions =>
      cases hexec
      exact Handler.noConfusion
  | client_connected client | describe client | setup client session abspath
    | teardown client session | closed client => exact absurd rfl hne

theorem start_ne_clients {sort : List (Str × Json) → List (Str × Json)} (q : HttpRequest) :
    q.start sort ≠ .clients := by
  cases q with
  | postAdd body =>
      rw [HttpRequest.start]
      cases bodyItems sort (str "rtsp_uris") body with
      | none => exact Handler.noConfusion
      | some items => exact nextCall_ne_clients (fun _ _ _ => Handler.noConfusion) _ _
  | postRemove body =>
      rw [HttpRequest.start]
      cases bodyItems sort (str "rtsp_ids") body with
      | none => exact Handler.noConfusion
      | some items => exact nextCall_ne_clients (fun _ _ _ => Handler.noConfusion) _ _
  | getMedias => exact Handler.noConfusion
  | getSessions => exact Handler.noConfusion
  | getConfig => exact Handler.noConfusion

end TranscodingServer
