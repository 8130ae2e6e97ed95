import TranscodingServer.Http.Lemmas.Listing
import TranscodingServer.Http.Lemmas.Loop
import TranscodingServer.Http.Lemmas.Order

/-!
# What the requests leave behind and what they answer
-/

namespace TranscodingServer

open Lts

variable {gst : Gst} {s t : TranscodingService} {id : Str}

/-! ## Rejected requests -/

/-- A rejected request leaves the tables as they are exactly when every item before the malformed one
is refused. -/
theorem rejected_unchanged_iff (gst : Gst) (clock : Nat → Str) (body : Option Json)
    (s : TranscodingService) :
    (RejectedUnchanged (addHandler gst clock body s) s ↔
      ∀ items, batch (str "rtsp_uris") body = some items →
        (∃ item ∈ items, WellFormed addArgs item = false) →
        ∀ item ∈ items.takeWhile (WellFormed addArgs), ∀ i, addArgs item = .ok i →
          ¬Accepts gst s i.1 i.2) ∧
    (RejectedUnchanged (removeHandler gst clock body s) s ↔
      ∀ items, batch (str "rtsp_ids") body = some items →
        (∃ item ∈ items, WellFormed removeArgs item = false) →
        ∀ item ∈ items.takeWhile (WellFormed removeArgs), ∀ id, removeArgs item = .ok id →
          id ∉ s.uriPartsMap) := by
  constructor
  · unfold addHandler
    cases batch (str "rtsp_uris") body with
    | none => simp [RejectedUnchanged]
    | some items =>
        simp only [Option.some.injEq, forall_eq']
        exact (addItem_marks clock).rejectedUnchanged_iff 0 items {} s
  · unfold removeHandler
    cases batch (str "rtsp_ids") body with
    | none => simp [RejectedUnchanged]
    | some items =>
        simp only [Option.some.injEq, forall_eq']
        exact (removeItem_marks clock).rejectedUnchanged_iff 0 items [] s

/-- The second item has no url. -/
def halfBatch : Json :=
  .object [(str "rtsp_uris", .list [
    .object [(str "id", .string (str "cam")), (str "url", .string (str "rtsp://10.0.0.1/live"))],
    .object [(str "id", .string (str "cam2"))]])]

/-- The request is answered 400, but its first item has been added. -/
theorem rejected_changed :
    ¬RejectedUnchanged (addHandler Gst.sequence (fun _ => str "") (some halfBatch) {}) {} := by
  intro h
  have hstatus :
      (addHandler Gst.sequence (fun _ => str "") (some halfBatch) {}).1 = .status 400 := by
    decide +kernel
  have hsame := h (fun body hbody => by rw [hstatus] at hbody; cases hbody)
  revert hsame
  decide +kernel

/-! ## Requests beside each other -/

/-- Registered at first, plus listed as added, minus removed. -/
def netCount (s : TranscodingService) (tr : List (Nat × Call × Ret)) (js : List Job) (id : Str) : Int :=
  registered s id + ((responses js).map fun r => r.list.countP (·.id == id)).sum -
    (tr.map Prod.snd).countP (removesStream id)

/-- The answer to a batch whose calls were `ls`. -/
structure Answers (items : List (Str × Str)) (ls : List (Call × Ret)) (r : Report MediaInfo) : Prop where
  calls : List.Forall₂ Addition items ls
  list : r.list = ls.filterMap listed
  order : (r.list.map fun m => (m.id, m.full_path)).Sublist items
  count_list : r.count = r.list.length
  count_items : r.count = items.length - (ls.filterMap notAdded).length
  success : r.result = str "SUCCESS" ↔ ls.filterMap notAdded = []

/-- What the clients are told agrees with what the tables hold. -/
structure Accounted (s : TranscodingService) (requests : List Request)
    (tr : List (Nat × Call × Ret)) (t : TranscodingService) (js : List Job) : Prop where
  streams : ∀ id, (netCount s tr js id = 0 ∨ netCount s tr js id = 1) ∧
    (netCount s tr js id = 1 ↔ id ∈ t.uriPartsMap)
  conflicts : ∀ pre mid post k k' now now' id id' uri uri' e e',
    tr = pre ++ (k, .AddRtsp now id uri, .uriParts (some e)) ::
      (mid ++ (k', .AddRtsp now' id' uri', .uriParts (some e')) :: post) →
    id = id' ∨ uri = uri' → ∃ k'' now'', (k'', .RemoveRtsp now'' id, .bool true) ∈ mid
  answers : ∀ k b, requests[k]? = some (.add b) →
    ∃ acc, js[k]? = some (.add [] acc) ∧ Answers b.items (Pool.labels k tr) (addResult acc)

theorem answers_of_progress {b : Batch (Str × Str)} {ls : List (Call × Ret)} {j : Job}
    (h : AddProgress b.items ls j) (hj : j.finished) :
    ∃ acc, j = .add [] acc ∧ Answers b.items ls (addResult acc) := by
  obtain ⟨done, todo, hitems, hcalls, rfl⟩ := h
  cases hj
  rw [List.append_nil] at hitems
  rw [← hitems] at hcalls
  have hlength := listed_length hcalls
  have hcount : static_cast_int (ls.filterMap listed).length = (ls.filterMap listed).length :=
    static_cast_int_of_lt (by have := b.short; omega)
  refine ⟨_, rfl, hcalls, rfl, listed_sublist hcalls, ?_, ?_, ?_⟩
  · simpa [addResult, assignList] using hcount
  · simp only [addResult, assignList, List.length_map, hcount]
    omega
  · cases ls.filterMap notAdded with
    | nil => simp [addResult, assignList]
    | cons url rest => simp [addResult, assignList]; decide

def readded : Request :=
  .add ⟨[(str "cam", str "rtsp://10.0.0.1/live"), (str "cam", str "rtsp://10.0.0.2/live")], by decide⟩

def removedOnce : Request := .remove ⟨[str "cam"], by decide⟩

/-- Every interleaving of requests, from every reachable state, is accounted for. -/
theorem requests_accounted (gst : Gst) (cs : List Call) (requests : List Request)
    {tr : List (Nat × Call × Ret)} {t : TranscodingService} {js : List Job}
    (h : (poolLts gst).Run (stateAfter gst cs, requests.map Request.start) tr (t, js))
    (hdone : ∀ j ∈ js, j.finished) :
    Accounted (stateAfter gst cs) requests tr t js where
  streams := by
    intro id
    have htables : registered (stateAfter gst cs) id + (tr.map Prod.snd).countP (addsStream id) =
        registered t id + (tr.map Prod.snd).countP (removesStream id) :=
      registered_run (serviceRun_of_poolRun h)
    have hjobs := Pool.run_count (fun j s l j' t hj => @listedCount_step gst s t id j j' l hj) h
    rw [listedCount_start, ← responses_count hdone] at hjobs
    have hnet : netCount (stateAfter gst cs) tr js id = registered t id := by
      rw [netCount, hjobs]
      omega
    rw [hnet, registered]
    by_cases hid : id ∈ t.uriPartsMap <;> simp [hid]
  conflicts := by
    intro pre mid post k k' now now' id id' uri uri' e e' htr hconflict
    have hservice := serviceRun_of_poolRun h
    rw [htr, List.map_append, List.map_cons, List.map_append, List.map_cons] at hservice
    obtain ⟨now'', hmem⟩ := removed_between hservice (consistent gst cs) hconflict
    obtain ⟨⟨k'', l⟩, hl, heq⟩ := List.mem_map.mp hmem
    cases heq
    exact ⟨k'', now'', hl⟩
  answers := by
    intro k b hk
    have hstart : (requests.map Request.start)[k]? = some (.add b.items {}) := by
      rw [List.getElem?_map, hk]
      rfl
    obtain ⟨j, hj, hrun⟩ := Pool.run_job h hstart
    obtain ⟨acc, rfl, hanswers⟩ := answers_of_progress (addProgress_run hrun)
      (hdone j (List.mem_of_getElem? hj))
    exact ⟨acc, hj, hanswers⟩

/-- Two additions of one id, with a removal by another request between them. -/
theorem requests_accounted_readded :
    ∃ tr t js,
      (poolLts Gst.sequence).Run
        (stateAfter Gst.sequence [], [readded, removedOnce].map Request.start) tr (t, js) ∧
      (∀ j ∈ js, j.finished) ∧
      Accounted (stateAfter Gst.sequence []) [readded, removedOnce] tr t js := by
  obtain ⟨tr, t, js, hrun, hdone⟩ : ∃ tr t js,
      (poolLts Gst.sequence).Run
        (stateAfter Gst.sequence [], [readded, removedOnce].map Request.start) tr (t, js) ∧
      ∀ j ∈ js, j.finished := by
    refine ⟨_, _, _, .cons (poolStep_add Gst.sequence (str "") _ 0 rfl)
      (.cons (poolStep_remove Gst.sequence (str "") _ 1 rfl)
        (.single (poolStep_add Gst.sequence (str "") _ 0 rfl))), ?_⟩
    exact List.forall_mem_cons.mpr ⟨rfl, List.forall_mem_singleton.mpr rfl⟩
  exact ⟨tr, t, js, hrun, hdone, requests_accounted Gst.sequence [] [readded, removedOnce] hrun hdone⟩

/-! ## Two views of a stream -/

/-- `GetMedias` lists the streams, each with the object that the answer to its addition holds. -/
structure ViewsAgree (tr : List (Nat × Call × Ret)) (t : TranscodingService) (ts : List Task) :
    Prop where
  lists : ListsAll t
  same : ∀ pre post k now id uri e, tr = pre ++ (k, .AddRtsp now id uri, .uriParts (some e)) :: post →
    (∀ k' now', (k', .RemoveRtsp now' id, .bool true) ∉ post) →
    ∃ todo acc, ts[k]? = some (.request (.add todo acc)) ∧
      e.uriInfo id ∈ (addResult acc).list ∧ e.uriInfo id ∈ (GetMedias t).list

/-- The views agree in every state of every run of requests beside client events. -/
theorem views_agree (gst : Gst) (cs : List Call) (requests : List Request)
    {tr : List (Nat × Call × Ret)} {t : TranscodingService} {ts : List Task}
    (h : (tasksLts gst).Run (stateAfter gst cs, tasks requests) tr (t, ts)) : ViewsAgree tr t ts where
  lists := by
    have hc : Consistent t := (serviceRun_of_tasksRun h).invariant
      (fun s l t hs hl => Consistent.step hs hl) (consistent gst cs)
    exact hc.listsAll
  same := by
    rintro pre post k now id uri e rfl hno
    obtain ⟨⟨x, hx, todo, acc, rfl, hm⟩, hlisted⟩ := listed_until_removed h (consistent gst cs) hno
    exact ⟨todo, acc, hx, hm, hlisted⟩

/-- A client connects between an addition and the refused addition of the same id. -/
theorem views_agree_readded :
    ∃ tr t ts, (tasksLts Gst.sequence).Run (stateAfter Gst.sequence [], tasks [readded]) tr (t, ts) ∧
      tr.length = 3 ∧ ViewsAgree tr t ts := by
  have hadd : ∀ s item todo acc ts, ts[0]? = some (Task.request (.add (item :: todo) acc)) →
      (tasksLts Gst.sequence).step (s, ts)
        (0, .AddRtsp (str "") item.1 item.2,
          ((Call.AddRtsp (str "") item.1 item.2).exec Gst.sequence s).1)
        ((addItem Gst.sequence (str "") item acc s).2,
          ts.set 0 (.request (.add todo (addItem Gst.sequence (str "") item acc s).1))) :=
    fun s item todo acc ts h => ⟨_, _, h, .request (.add (str "") item todo acc s), rfl⟩
  have hconnect : ∀ s ts, ts[1]? = some Task.clients → (tasksLts Gst.sequence).step (s, ts)
      (1, .AddClientInfo (some 7) (str "5F21") (str "/cam/first/stream=0"), .void)
      (AddClientInfo (some 7) (str "5F21") (str "/cam/first/stream=0") s, ts.set 1 .clients) :=
    fun s ts h => ⟨_, _, h, .connect _ _ _ s, rfl⟩
  have hrun := Run.cons (hadd (stateAfter Gst.sequence []) _ _ _ (tasks [readded]) rfl)
    (.cons (hconnect _ _ rfl) (.single (hadd _ _ _ _ _ rfl)))
  exact ⟨_, _, _, hrun, rfl, views_agree Gst.sequence [] [readded] hrun⟩

def crowdUri (i : Nat) : Str := str "rtsp://" ++ List.replicate i 97

/-- Additions of `"", "a", "aa"` and so on. -/
def crowd (n : Nat) : List Call :=
  (List.range n).map fun i => .AddRtsp (str "") (List.replicate i 97) (crowdUri i)

theorem crowdUri_valid (i : Nat) : isValidUri Gst.sequence (crowdUri i) = true := by
  have hnul : 0 ∉ crowdUri i := by
    rw [crowdUri, List.mem_append, not_or]
    exact ⟨by decide, fun hmem => absurd (List.eq_of_mem_replicate hmem) (by decide)⟩
  rw [isValidUri, c_str_of_no_nul hnul]
  rfl

/-- The next id and url are new. -/
theorem crowd_accepts {n : Nat} {s : TranscodingService}
    (h : ∀ (id : Str) (e : UriParts), s.uriPartsMap[id]? = some e →
      ∃ i < n, id = List.replicate i 97 ∧ e.full_path = crowdUri i) :
    Accepts Gst.sequence s (List.replicate n 97) (crowdUri n) := by
  have hinj : ∀ {i j : Nat}, List.replicate i (97 : UInt8) = List.replicate j 97 → i = j := by
    intro i j heq
    simpa using congrArg List.length heq
  refine ⟨crowdUri_valid n, ⟨str "rtsp:", List.replicate n 97, rfl⟩, ?_, ?_⟩
  · intro id e he hfull
    obtain ⟨i, hi, _, hfull'⟩ := h id e he
    have hlen := hinj (List.append_cancel_left (hfull'.symm.trans hfull))
    omega
  · intro hmem
    obtain ⟨e, he⟩ := (OrdMap.mem_iff _ _).mp hmem
    obtain ⟨i, hi, hid, _⟩ := h _ e he
    have hlen := hinj hid
    omega

theorem crowd_streams (n : Nat) :
    (stateAfter Gst.sequence (crowd n)).uriPartsMap.size = n ∧
      ∀ (id : Str) (e : UriParts), (stateAfter Gst.sequence (crowd n)).uriPartsMap[id]? = some e →
        ∃ i < n, id = List.replicate i 97 ∧ e.full_path = crowdUri i := by
  induction n with
  | zero => exact ⟨rfl, fun id e he => by simp [crowd, stateAfter, Call.execAll] at he⟩
  | succ n ih =>
      obtain ⟨hsize, hentries⟩ := ih
      have ha := crowd_accepts hentries
      obtain ⟨parts, hp, hadd⟩ := @AddRtsp_accepted Gst.sequence _ (str "") _ _ ha
      have hnext : stateAfter Gst.sequence (crowd (n + 1)) =
          (stateAfter Gst.sequence (crowd n)).added Gst.sequence (List.replicate n 97) (crowdUri n)
            (parts.readyAt (str "")) := by
        have hsnoc : crowd (n + 1) =
            crowd n ++ [.AddRtsp (str "") (List.replicate n 97) (crowdUri n)] := by
          simp [crowd, List.range_succ]
        rw [hsnoc, stateAfter_snoc, Call.exec, hadd]
      have hnew : ¬(stateAfter Gst.sequence (crowd n)).uriPartsMap.contains (List.replicate n 97) =
          true := ha.freshId
      rw [hnext]
      constructor
      · rw [TranscodingService.added, Std.ExtTreeMap.size_insert, if_neg hnew, hsize]
      · intro id e he
        rw [added_uriPartsMap] at he
        split at he
        · rename_i hid
          cases he
          exact ⟨n, Nat.lt_succ_self n, hid.symm, readyAt_full_path hp⟩
        · obtain ⟨i, hi, hrest⟩ := hentries id e he
          exact ⟨i, Nat.lt_succ_of_lt hi, hrest⟩

/-- The number of streams does not fit into an `int`. -/
theorem count_overflows :
    ∃ tr t, (serviceLts Gst.sequence).Run {} tr t ∧
      (GetMedias t).count ≠ (GetMedias t).list.length := by
  obtain ⟨n, hn⟩ : ∃ n, 2 ^ 31 ≤ n := ⟨_, Nat.le_refl _⟩
  refine ⟨_, stateAfter Gst.sequence (crowd n), execAll_run (crowd n) {}, fun h => ?_⟩
  have hlt := (consistent Gst.sequence (crowd n)).listsAll.count.mp h
  rw [GetMedias_length, (crowd_streams n).1] at hlt
  exact absurd hn (Nat.not_le_of_lt hlt)

/-! ## The order of a batch -/

/-- A body of `/add` with well-formed items, whose ids and urls are distinct. -/
structure AddBatch where
  body : Option Json
  json : List Json
  items : List (Str × Str)
  list : batch (str "rtsp_uris") body = some json
  args : json.map addArgs = items.map .ok
  ids : (items.map Prod.fst).Nodup
  urls : (items.map Prod.snd).Nodup

/-- A body of `/remove` with well-formed items. -/
structure RemoveBatch where
  body : Option Json
  json : List Json
  ids : List Str
  list : batch (str "rtsp_ids") body = some json
  args : json.map removeArgs = ids.map .ok

theorem AddBatch.handler (b : AddBatch) (gst : Gst) (clock : Nat → Str) (s : TranscodingService) :
    addHandler gst clock b.body s =
      (.ok (addResult (addLoop gst clock 0 b.items {} s).1), (addLoop gst clock 0 b.items {} s).2) := by
  rw [addHandler, b.list]
  exact batchLoop_items 0 b.args ({} : AddAcc) s

theorem RemoveBatch.handler (b : RemoveBatch) (gst : Gst) (clock : Nat → Str)
    (s : TranscodingService) :
    removeHandler gst clock b.body s =
      (.ok (removeResult (removeLoop gst clock 0 b.ids [] s).1),
        (removeLoop gst clock 0 b.ids [] s).2) := by
  rw [removeHandler, b.list]
  exact batchLoop_items 0 b.args [] s

/-- Two orders of one batch, from every reachable state: an `/add` accepts the same items and ends in
the same streams, a `/remove` fails for the same ids and ends in the same tables. -/
theorem batches_commute (gst : Gst) (cs : List Call) (clock clock' : Nat → Str) :
    (∀ b b' : AddBatch, b.items.Perm b'.items →
      ∃ r r' t t', addHandler gst clock b.body (stateAfter gst cs) = (.ok r, t) ∧
        addHandler gst clock' b'.body (stateAfter gst cs) = (.ok r', t') ∧
        (r.list.map fun m => (m.id, m.full_path)).Perm (r'.list.map fun m => (m.id, m.full_path)) ∧
        SameButTimes t t') ∧
    ∀ b b' : RemoveBatch, b.ids.Perm b'.ids →
      ∃ failed failed' t t',
        removeLoop gst clock 0 b.ids [] (stateAfter gst cs) = (failed, t) ∧
        removeLoop gst clock' 0 b'.ids [] (stateAfter gst cs) = (failed', t') ∧
        removeHandler gst clock b.body (stateAfter gst cs) = (.ok (removeResult failed), t) ∧
        removeHandler gst clock' b'.body (stateAfter gst cs) = (.ok (removeResult failed'), t') ∧
        failed.length = failed'.length ∧ failed.Perm failed' ∧
        t.uriPartsMap = t'.uriPartsMap ∧ t.mediaFactories = t'.mediaFactories ∧
        t.clientInfos = t'.clientInfos := by
  have hc := consistent gst cs
  constructor
  · intro b b' hperm
    have h := @addOutcome gst clock 0 b.items b.ids b.urls {} (stateAfter gst cs)
    have h' := @addOutcome gst clock' 0 b'.items b'.ids b'.urls {} (stateAfter gst cs)
    refine ⟨_, _, _, _, b.handler gst clock _, b'.handler gst clock' _, ?_, ?_⟩
    · change (List.map _ (addLoop gst clock 0 b.items {} (stateAfter gst cs)).1.response_list).Perm
        (List.map _ (addLoop gst clock' 0 b'.items {} (stateAfter gst cs)).1.response_list)
      rw [h.accepted, h'.accepted]
      exact hperm.filter _
    · exact .of_entries (hc.addLoop _ _ _ _) (hc.addLoop _ _ _ _) (h.entries h' hperm)
  · intro b b' hperm
    have h := @removeOutcome gst clock 0 b.ids [] (stateAfter gst cs) hc
    have h' := @removeOutcome gst clock' 0 b'.ids [] (stateAfter gst cs) hc
    obtain ⟨hfailed, htables⟩ :=
      h.perm h' hperm (hc.removeLoop _ _ _ _) (hc.removeLoop _ _ _ _)
    exact ⟨_, _, _, _, rfl, rfl, b.handler gst clock _, b'.handler gst clock' _, hfailed.length_eq,
      hfailed, htables⟩

/-- The body that a client sends for `items`. -/
def addBody (items : List (Str × Str)) (ids : (items.map Prod.fst).Nodup)
    (urls : (items.map Prod.snd).Nodup) : AddBatch where
  body := some (.object [(str "rtsp_uris", .list (items.map fun i =>
    .object [(str "id", .string i.1), (str "url", .string i.2)]))])
  json := items.map fun i => .object [(str "id", .string i.1), (str "url", .string i.2)]
  items := items
  list := rfl
  args := by
    rw [List.map_map]
    rfl
  ids := ids
  urls := urls

/-- Two cameras in both orders; a third one is registered already. -/
theorem batches_commute_cams :
    ∃ b b' : AddBatch, b.items ≠ b'.items ∧
      ∃ r r' t t', addHandler Gst.sequence (fun _ => str "") b.body
          (stateAfter Gst.sequence [.AddRtsp (str "") (str "cam3") (str "rtsp://10.0.0.3/live")]) =
            (.ok r, t) ∧
        addHandler Gst.sequence (fun _ => str "") b'.body
          (stateAfter Gst.sequence [.AddRtsp (str "") (str "cam3") (str "rtsp://10.0.0.3/live")]) =
            (.ok r', t') ∧
        SameButTimes t t' := by
  have hcommute := (batches_commute Gst.sequence
    [.AddRtsp (str "") (str "cam3") (str "rtsp://10.0.0.3/live")] (fun _ => str "") (fun _ => str "")).1
    (addBody [(str "cam1", str "rtsp://10.0.0.1/live"), (str "cam2", str "rtsp://10.0.0.2/live")]
      (by decide) (by decide))
    (addBody [(str "cam2", str "rtsp://10.0.0.2/live"), (str "cam1", str "rtsp://10.0.0.1/live")]
      (by decide) (by decide)) (.swap _ _ _)
  obtain ⟨r, r', t, t', h, h', _, hsame⟩ := hcommute
  exact ⟨_, _, by decide, r, r', t, t', h, h', hsame⟩

end TranscodingServer
