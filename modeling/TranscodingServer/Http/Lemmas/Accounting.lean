import TranscodingServer.Core.Lemmas.History
import TranscodingServer.Http.Jobs

/-!
# Counting additions and removals

What the calls of all jobs return, seen from the tables and from each job.
-/

namespace TranscodingServer

open Lts

variable {gst : Gst} {s t : TranscodingService} {id uri : Str} {e : UriParts}

/-! ## Seen from the tables -/

def addsStream (id : Str) : Call × Ret → Bool
  | (.AddRtsp _ id' _, .uriParts (some _)) => id' == id
  | _ => false

def removesStream (id : Str) : Call × Ret → Bool
  | (.RemoveRtsp _ id', .bool true) => id' == id
  | _ => false

def registered (s : TranscodingService) (id : Str) : Nat := if id ∈ s.uriPartsMap then 1 else 0

theorem SameStreams.registered (h : SameStreams s t) (id : Str) :
    registered t id = TranscodingServer.registered s id := by
  rw [TranscodingServer.registered, h.uriPartsMap]
  rfl

theorem registered_step {l : Call × Ret} (h : (serviceLts gst).step s l t) :
    registered s id + (addsStream id l).toNat = registered t id + (removesStream id l).toNat := by
  obtain ⟨c, r⟩ := l
  have hexec : c.exec gst s = (r, t) := h
  have ho := exec_outcome gst s c
  rw [hexec] at ho
  cases ho with
  | accepted now id' uri parts ha hp =>
      by_cases hid : id' = id
      · subst hid
        simp [registered, addsStream, removesStream, mem_added_uriPartsMap, ha.freshId]
      · simp [registered, addsStream, removesStream, mem_added_uriPartsMap, hid]
  | refused now id' uri _ => simp [addsStream, removesStream]
  | known now id' e he =>
      have hmem : id' ∈ s.uriPartsMap := (OrdMap.mem_iff _ _).mpr ⟨e, he⟩
      by_cases hid : id' = id
      · subst hid
        simp [registered, addsStream, removesStream, mem_removed_uriPartsMap, hmem]
      · simp [registered, addsStream, removesStream, mem_removed_uriPartsMap, hid]
  | unknown now id' t _ hs => simp [addsStream, removesStream, hs.registered]
  | connect client id' uri t hs => simp [addsStream, removesStream, hs.registered]
  | disconnect client t hs => simp [addsStream, removesStream, hs.registered]

theorem registered_run {tr : List (Call × Ret)} (h : (serviceLts gst).Run s tr t) :
    registered s id + tr.countP (addsStream id) =
      registered t id + tr.countP (removesStream id) := by
  induction h with
  | nil => simp
  | @snoc tr u l t _ hstep ih =>
      have hone := @registered_step gst u t id l hstep
      rw [Pool.countP_snoc, Pool.countP_snoc]
      omega

theorem Consistent.step {l : Call × Ret} (hc : Consistent s) (h : (serviceLts gst).step s l t) :
    Consistent t := by
  have ht : t = (l.1.exec gst s).2 := by rw [h]
  rw [ht]
  exact hc.exec s l.1

/-- A registered stream is there, unchanged, until a removal of it succeeds. -/
theorem registered_until_removed {tr : List (Call × Ret)} (h : (serviceLts gst).Run s tr t)
    (hc : Consistent s) (he : s.uriPartsMap[id]? = some e)
    (hno : ∀ now, (.RemoveRtsp now id, .bool true) ∉ tr) :
    Consistent t ∧ t.uriPartsMap[id]? = some e := by
  induction h with
  | nil => exact ⟨hc, he⟩
  | @snoc tr u l t _ hstep ih =>
      obtain ⟨hu, hue⟩ := ih fun now hmem => hno now (by simp [hmem])
      obtain ⟨c, r⟩ := l
      have hexec : c.exec gst u = (r, t) := hstep
      have hne : ∀ now, c ≠ .RemoveRtsp now id := by
        rintro now rfl
        rw [Call.exec, RemoveRtsp_known hue] at hexec
        cases hexec
        exact hno now (by simp)
      have hkeep : (c.exec gst u).2.uriPartsMap[id]? = u.uriPartsMap[id]? :=
        (exec_frame_registered hu ((OrdMap.mem_iff _ _).mpr ⟨e, hue⟩) hne).1
      rw [hexec] at hkeep
      exact ⟨hu.step hstep, hkeep.trans hue⟩

theorem accepts_of_step {now : Str} (h : (serviceLts gst).step s
    (.AddRtsp now id uri, .uriParts (some e)) t) :
    Accepts gst s id uri ∧ t.uriPartsMap[id]? = some e ∧ e.full_path = uri := by
  have hexec : (Call.AddRtsp now id uri).exec gst s = (.uriParts (some e), t) := h
  rcases AddRtsp_cases gst s now id uri with ⟨parts, ha, hp, hadd⟩ | ⟨_, hadd⟩
  · rw [Call.exec, hadd] at hexec
    cases hexec
    exact ⟨ha, by rw [added_uriPartsMap, if_pos rfl], readyAt_full_path hp⟩
  · rw [Call.exec, hadd] at hexec
    cases hexec

/-- Between two additions of one id or of one url there is a removal of the first one. -/
theorem removed_between {pre mid post : List (Call × Ret)} {now now' id' uri' : Str} {e' : UriParts}
    (h : (serviceLts gst).Run s (pre ++ (.AddRtsp now id uri, .uriParts (some e)) ::
      (mid ++ (.AddRtsp now' id' uri', .uriParts (some e')) :: post)) t) (hc : Consistent s)
    (hconflict : id = id' ∨ uri = uri') : ∃ now'', (.RemoveRtsp now'' id, .bool true) ∈ mid := by
  obtain ⟨u₀, hpre, h⟩ := h.split
  obtain ⟨u₁, hfirst, h⟩ := h.cons_inv
  obtain ⟨u₂, hmid, h⟩ := h.split
  obtain ⟨u₃, hsecond, _⟩ := h.cons_inv
  by_contra hno
  have hc₁ : Consistent u₁ :=
    (hpre.snoc hfirst).invariant (fun s l t hs hstep => Consistent.step hs hstep) hc
  obtain ⟨_, he, hfull⟩ := accepts_of_step hfirst
  obtain ⟨_, he₂⟩ := registered_until_removed hmid hc₁ he fun now'' hmem => hno ⟨now'', hmem⟩
  obtain ⟨ha, _, _⟩ := accepts_of_step hsecond
  rcases hconflict with rfl | rfl
  · exact ha.freshId ((OrdMap.mem_iff _ _).mpr ⟨e, he₂⟩)
  · exact ha.freshUri id e he₂ hfull

/-! ## Seen from a job -/

theorem serviceStep_of_jobStep {j j' : Job} {l : Call × Ret} (h : Job.Step gst j s l j' t) :
    (serviceLts gst).step s l t := by
  cases h with
  | add now item todo acc s => rfl
  | remove now id todo failedUrls s => rfl

theorem serviceRun_of_poolRun {c d : TranscodingService × List Job} {tr : List (Nat × Call × Ret)}
    (h : (poolLts gst).Run c tr d) : (serviceLts gst).Run c.1 (tr.map Prod.snd) d.1 := by
  refine (Pool.run_shared h).mono ?_
  rintro s l t ⟨j, j', hj⟩
  exact serviceStep_of_jobStep hj

/-- The addition of an item, with what it returned. -/
inductive Addition : Str × Str → Call × Ret → Prop
  | added (now : Str) (item : Str × Str) (e : UriParts) :
      e.full_path = item.2 → Addition item (.AddRtsp now item.1 item.2, .uriParts (some e))
  | failed (now : Str) (item : Str × Str) :
      Addition item (.AddRtsp now item.1 item.2, .uriParts none)

/-- The object that the answer lists for a call. -/
def listed : Call × Ret → Option MediaInfo
  | (.AddRtsp _ id _, .uriParts (some uriParts)) => some (uriParts.uriInfo id)
  | _ => none

def notAdded : Call × Ret → Option Str
  | (.AddRtsp _ _ uri, .uriParts none) => some uri
  | _ => none

/-- How far a job of `/add` has come with its items, after the calls `ls`. -/
def AddProgress (items : List (Str × Str)) (ls : List (Call × Ret)) (j : Job) : Prop :=
  ∃ done todo, items = done ++ todo ∧ List.Forall₂ Addition done ls ∧
    j = .add todo { response_list := ls.filterMap listed, failedUrls := ls.filterMap notAdded }

theorem AddProgress.step {items : List (Str × Str)} {ls : List (Call × Ret)} {j j' : Job}
    {l : Call × Ret} (h : AddProgress items ls j) (hstep : Job.Step gst j s l j' t) :
    AddProgress items (ls ++ [l]) j' := by
  obtain ⟨done, todo, rfl, hdone, rfl⟩ := h
  cases hstep with
  | add now item todo acc s =>
      rcases AddRtsp_cases gst s now item.1 item.2 with ⟨parts, _, hp, hadd⟩ | ⟨_, hadd⟩
      · refine ⟨done ++ [item], todo, by simp, ?_, ?_⟩
        · refine List.rel_append hdone (.cons ?_ .nil)
          rw [Call.exec, hadd]
          exact .added now item _ (readyAt_full_path hp)
        · simp [addItem, hadd, AddAcc.record, Call.exec, listed, notAdded]
      · refine ⟨done ++ [item], todo, by simp, ?_, ?_⟩
        · refine List.rel_append hdone (.cons ?_ .nil)
          rw [Call.exec, hadd]
          exact .failed now item
        · simp [addItem, hadd, AddAcc.record, Call.exec, listed, notAdded]

theorem addProgress_run {items : List (Str × Str)} {ls : List (Call × Ret)} {j : Job}
    (h : (Pool.jobLts (Job.Step gst)).Run (.add items {}) ls j) : AddProgress items ls j := by
  induction h with
  | nil => exact ⟨[], items, rfl, .nil, rfl⟩
  | snoc _ hstep ih =>
      obtain ⟨s, t, hj⟩ := hstep
      exact ih.step hj

/-- The listed objects are those of the items that were added, in the order of the batch. -/
theorem listed_sublist {items : List (Str × Str)} {ls : List (Call × Ret)}
    (h : List.Forall₂ Addition items ls) :
    ((ls.filterMap listed).map fun m => (m.id, m.full_path)).Sublist items := by
  induction h with
  | nil => exact .slnil
  | cons hl _ ih =>
      cases hl with
      | added now item e he =>
          simp only [listed, List.filterMap_cons, List.map_cons, UriParts.uriInfo, he]
          exact ih.cons_cons _
      | failed now item =>
          simp only [listed, List.filterMap_cons]
          exact ih.cons _

theorem listed_length {items : List (Str × Str)} {ls : List (Call × Ret)}
    (h : List.Forall₂ Addition items ls) :
    (ls.filterMap listed).length + (ls.filterMap notAdded).length = items.length := by
  induction h with
  | nil => rfl
  | cons hl _ ih =>
      cases hl with
      | added now item e he =>
          simp only [listed, notAdded, List.filterMap_cons, List.length_cons]
          omega
      | failed now item =>
          simp only [listed, notAdded, List.filterMap_cons, List.length_cons]
          omega

/-! ## Seen from the answers -/

/-- The answers of the jobs of `/add` that have ended. -/
def responses (js : List Job) : List (Report MediaInfo) := js.filterMap Job.response

def Job.listedCount (id : Str) : Job → Nat
  | .add _ acc => acc.response_list.countP (·.id == id)
  | .remove _ _ => 0

theorem listedCount_step {j j' : Job} {l : Call × Ret} (h : Job.Step gst j s l j' t) :
    j'.listedCount id = j.listedCount id + (addsStream id l).toNat := by
  cases h with
  | add now item todo acc s =>
      rcases AddRtsp_cases gst s now item.1 item.2 with ⟨parts, _, _, hadd⟩ | ⟨_, hadd⟩
      · cases hid : item.1 == id <;>
          simp [Job.listedCount, addItem, hadd, AddAcc.record, Call.exec, addsStream,
            UriParts.uriInfo, hid]
      · simp [Job.listedCount, addItem, hadd, AddAcc.record, Call.exec, addsStream]
  | remove now id' todo failedUrls s =>
      simp [Job.listedCount, addsStream]

theorem listedCount_start (requests : List Request) :
    ((requests.map Request.start).map (Job.listedCount id)).sum = 0 := by
  induction requests with
  | nil => rfl
  | cons r requests ih =>
      rw [List.map_cons, List.map_cons, List.sum_cons, ih]
      cases r <;> rfl

theorem responses_count {js : List Job} (hdone : ∀ j ∈ js, j.finished) :
    ((responses js).map fun r => r.list.countP (·.id == id)).sum =
      (js.map (Job.listedCount id)).sum := by
  induction js with
  | nil => rfl
  | cons j js ih =>
      have hrest := ih fun i hi => hdone i (by simp [hi])
      have hj : j.finished := hdone j (by simp)
      rw [List.map_cons, List.sum_cons, ← hrest]
      cases j with
      | add todo acc =>
          cases hj
          simp [responses, Job.response, Job.listedCount, addResult, assignList]
      | remove todo failedUrls =>
          rw [responses, List.filterMap_cons_none (by rfl)]
          exact (Nat.zero_add _).symm

end TranscodingServer
