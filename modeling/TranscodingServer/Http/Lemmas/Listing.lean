import TranscodingServer.Http.Lemmas.Accounting

/-!
# The listing of the streams and the answers of `/add`

The requests run beside the callbacks of the RTSP server, which add and remove client records between
their calls.
-/

namespace TranscodingServer

open Lts

variable {gst : Gst} {s t : TranscodingService} {now id uri : Str} {e : UriParts} {m : MediaInfo}

/-! ## What `GetMedias` lists -/

theorem GetMedias_ids (h : Consistent s) : (GetMedias s).list.map (·.id) = s.uriPartsMap.keys := by
  rw [← Std.ExtTreeMap.map_fst_toList_eq_keys, GetMedias, List.map_map]
  refine List.map_congr_left ?_
  rintro ⟨id, e⟩ he
  rw [Std.ExtTreeMap.mem_toList_iff_getElem?_eq_some] at he
  exact (h.parsed id e he).id_eq

theorem GetMedias_length : (GetMedias s).list.length = s.uriPartsMap.size := by
  rw [GetMedias, List.length_map, Std.ExtTreeMap.length_toList]

/-- Every registered id once, in ascending order; the count is the length of the list as long as an
`int` can hold it. -/
structure ListsAll (s : TranscodingService) : Prop where
  ids : ∀ id, id ∈ (GetMedias s).list.map (·.id) ↔ id ∈ s.uriPartsMap
  once : ((GetMedias s).list.map (·.id)).Nodup
  ascending : ((GetMedias s).list.map (·.id)).Pairwise fun a b => compare a b = .lt
  count : (GetMedias s).count = (GetMedias s).list.length ↔ (GetMedias s).list.length < 2 ^ 31

theorem Consistent.listsAll (h : Consistent s) : ListsAll s where
  ids id := by rw [GetMedias_ids h, Std.ExtTreeMap.mem_keys]
  once := by rw [GetMedias_ids h]; exact s.uriPartsMap.nodup_keys
  ascending := by rw [GetMedias_ids h]; exact s.uriPartsMap.ordered_keys
  count := by
    rw [GetMedias_length, GetMedias, static_cast_int_eq_iff]

/-! ## Requests beside the callbacks -/

/-- What calls the service: a request on its way, or the RTSP server, whose clients come and go. -/
inductive Task
  | request (j : Job)
  | clients

inductive Task.Step (gst : Gst) :
    Task → TranscodingService → Call × Ret → Task → TranscodingService → Prop
  | request {j j' : Job} {s t : TranscodingService} {l : Call × Ret} :
      Job.Step gst j s l j' t → Step gst (.request j) s l (.request j') t
  | connect (client : Option GstRTSPClient) (id uri : Str) (s : TranscodingService) :
      Step gst .clients s (.AddClientInfo client id uri, .void) .clients (AddClientInfo client id uri s)
  | disconnect (client : Option GstRTSPClient) (s : TranscodingService) :
      Step gst .clients s (.RemoveClientWithClient client, .void) .clients
        (RemoveClientWithClient client s)

abbrev tasksLts (gst : Gst) : Lts (TranscodingService × List Task) (Nat × Call × Ret) :=
  Pool.lts (Task.Step gst)

/-- The tasks at the start: the requests, and the RTSP server. -/
def tasks (requests : List Request) : List Task :=
  requests.map (fun r => Task.request r.start) ++ [.clients]

theorem serviceStep_of_taskStep {x x' : Task} {l : Call × Ret} (h : Task.Step gst x s l x' t) :
    (serviceLts gst).step s l t := by
  cases h with
  | request hj => exact serviceStep_of_jobStep hj
  | connect client id uri => rfl
  | disconnect client => rfl

theorem serviceRun_of_tasksRun {c d : TranscodingService × List Task} {tr : List (Nat × Call × Ret)}
    (h : (tasksLts gst).Run c tr d) : (serviceLts gst).Run c.1 (tr.map Prod.snd) d.1 := by
  refine (Pool.run_shared h).mono ?_
  rintro s l t ⟨x, x', hx⟩
  exact serviceStep_of_taskStep hx

/-- The request is an `/add` whose answer lists the object. -/
def Task.Lists (m : MediaInfo) (x : Task) : Prop :=
  ∃ todo acc, x = .request (.add todo acc) ∧ m ∈ (addResult acc).list

theorem addItem_list (item : Str × Str) (acc : AddAcc) :
    (addResult (addItem gst now item acc s).1).list =
      (acc.record item.1 item.2 (AddRtsp gst (Env.calm now) item.1 item.2 s).1).response_list := rfl

/-- An object that is in the list of an answer stays there. -/
theorem Task.Lists.step {x x' : Task} {l : Call × Ret} (h : x.Lists m)
    (hstep : Task.Step gst x s l x' t) : x'.Lists m := by
  obtain ⟨todo, acc, rfl, hm⟩ := h
  cases hstep with
  | request hj =>
      cases hj with
      | add now item todo acc s =>
          refine ⟨_, _, rfl, ?_⟩
          rw [addItem_list]
          cases (AddRtsp gst (Env.calm now) item.1 item.2 s).1 with
          | none => exact hm
          | some e => exact List.mem_append_left _ hm

/-- The object that an addition returns goes into the answer. -/
theorem lists_of_step {x x' : Task}
    (h : Task.Step gst x s (.AddRtsp now id uri, .uriParts (some e)) x' t) :
    x'.Lists (e.uriInfo id) := by
  generalize hl : ((Call.AddRtsp now id uri, Ret.uriParts (some e)) : Call × Ret) = l at h
  cases h with
  | connect client id' uri' s => cases hl
  | disconnect client s => cases hl
  | request hj =>
      cases hj with
      | remove now' id' todo failedUrls s => cases hl
      | add now' item todo acc s =>
          rw [Call.exec] at hl
          simp only [Prod.mk.injEq, Call.AddRtsp.injEq, Ret.uriParts.injEq] at hl
          obtain ⟨⟨rfl, rfl, rfl⟩, hr⟩ := hl
          refine ⟨_, _, rfl, ?_⟩
          rw [addItem_list, ← hr]
          exact List.mem_append_right _ (List.mem_singleton_self _)

/-- What an addition returned is listed, in its answer and by `GetMedias`, until its id is removed. -/
theorem listed_until_removed {c d : TranscodingService × List Task}
    {pre post : List (Nat × Call × Ret)} {k : Nat}
    (h : (tasksLts gst).Run c (pre ++ (k, .AddRtsp now id uri, .uriParts (some e)) :: post) d)
    (hc : Consistent c.1) (hno : ∀ k' now', (k', .RemoveRtsp now' id, .bool true) ∉ post) :
    (∃ x, d.2[k]? = some x ∧ x.Lists (e.uriInfo id)) ∧ e.uriInfo id ∈ (GetMedias d.1).list := by
  obtain ⟨u, hpre, h⟩ := h.split
  obtain ⟨v, hstep, hpost⟩ := h.cons_inv
  have hcv : Consistent v.1 := by
    refine (serviceRun_of_tasksRun (hpre.snoc hstep)).invariant ?_ hc
    exact fun s l t hs hl => Consistent.step hs hl
  obtain ⟨x, x', hx, hadd, hset⟩ := hstep
  constructor
  · have hlt : k < u.2.length := (List.getElem?_eq_some_iff.mp hx).1
    have hk : v.2[k]? = some x' := by rw [hset, List.getElem?_set_self hlt]
    obtain ⟨y, hy, hrun⟩ := Pool.run_job hpost hk
    refine ⟨y, hy, hrun.invariant ?_ (lists_of_step hadd)⟩
    rintro x l y hx ⟨s, t, hstep⟩
    exact hx.step hstep
  · obtain ⟨_, he, _⟩ := accepts_of_step (serviceStep_of_taskStep hadd)
    obtain ⟨_, he'⟩ := registered_until_removed (serviceRun_of_tasksRun hpost) hcv he (by
      intro now' hmem
      obtain ⟨⟨k', l⟩, hl, heq⟩ := List.mem_map.mp hmem
      cases heq
      exact hno k' now' hl)
    have hid : e.id = id := (hcv.parsed id e he).id_eq
    exact mem_GetMedias.mpr ⟨id, e, he', by rw [hid, UriParts.mediaInfo, UriParts.uriInfo]⟩

end TranscodingServer
