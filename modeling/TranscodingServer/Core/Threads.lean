import TranscodingServer.Core.Lemmas.History
import TranscodingServer.Core.Lemmas.Statements
import TranscodingServer.Core.Lemmas.Sturdy

/-!
# The service under its threads

The workers of crow and the threads of the RTSP server run the methods of one service at once, each
method statement by statement.  What their jobs are is left open here: a job says which calls it may
make next, with any exceptions in `AddRtsp` and `RemoveRtsp`, and goes on with the answer.
-/

namespace TranscodingServer

open Lts Locking Balance

/-- The service under whole calls. -/
def methodLts (gst : Gst) : Lts TranscodingService (Method × Answer) where
  step s l t := l.1.exec gst s = (l.2, t)

section Jobs

variable (gst : Gst) {J : Type} (starts : J → Method → Prop) (resume : J → Method → Answer → J)

def serviceJobs : Jobs TranscodingService J Method Answer where
  starts := starts
  code := Method.statements gst
  resume := resume

/-- A job that makes whole calls. -/
def wholeCall : Pool.JobStep TranscodingService J (Method × Answer) := fun j s l j' t =>
  starts j l.1 ∧ l.1.exec gst s = (l.2, t) ∧ resume j l.1 l.2 = j'

/-- A run of statements from `s₀` on, beside a run of the calls that have ended their sections. -/
structure Serialised (s₀ : TranscodingService) (js : List J)
    (tr : List (Nat × Option (Method × Answer))) (x : Threads TranscodingService J Method Answer) :
    Prop where
  calls : ∃ t, (Pool.lts (wholeCall gst starts resume)).Run (s₀, js) (ended tr)
    (t, x.jobs (serviceJobs gst starts resume)) ∧ (x.mutex = none → x.state = t)
  settles : ∃ tr' t ths, (threadsLts (serviceJobs gst starts resume)).Run x tr' ⟨t, none, ths⟩ ∧
    ∀ (k : Nat) th, x.threads[k]? = some th →
      ∃ th', ths[k]? = some th' ∧ Settles (serviceJobs gst starts resume) th th'

variable {gst starts resume} {s₀ : TranscodingService} {js : List J}
  {tr : List (Nat × Option (Method × Answer))} {x : Threads TranscodingService J Method Answer}

theorem callStep_iff {j j' : J} {s t : TranscodingService} {l : Method × Answer} :
    callStep (serviceJobs gst starts resume) j s l j' t ↔ wholeCall gst starts resume j s l j' t := by
  have hcode : ((serviceJobs gst starts resume).code l.1).run s = l.1.exec gst s :=
    run_statements l.1 s
  rw [callStep, wholeCall, hcode]
  rfl

/-- The calls that have ended their sections are a run of whole calls. -/
theorem serial_threads (h : (threadsLts (serviceJobs gst starts resume)).Run (.idle js s₀) tr x) :
    ∃ t, Serial (serviceJobs gst starts resume) x t ∧
      (Pool.lts (wholeCall gst starts resume)).Run (s₀, js) (ended tr)
        (t, x.jobs (serviceJobs gst starts resume)) := by
  obtain ⟨t, hserial, hrun⟩ := serial_run (fun _ c _ => guarded_statements c) h
  refine ⟨t, hserial, hrun.mono ?_⟩
  rintro c l d ⟨j, j', hk, hstep, hset⟩
  exact ⟨j, j', hk, callStep_iff.mp hstep, hset⟩

theorem methodRun_of_threads
    (h : (threadsLts (serviceJobs gst starts resume)).Run (.idle js s₀) tr x) :
    ∃ t, (methodLts gst).Run s₀ ((ended tr).map Prod.snd) t ∧ (x.mutex = none → x.state = t) := by
  obtain ⟨t, hserial, hrun⟩ := serial_threads h
  refine ⟨t, (Pool.run_shared hrun).mono ?_, hserial.state_eq⟩
  rintro s l t ⟨j, j', _, hexec, _⟩
  exact hexec

/-- The threads do what whole calls do, in the order in which they give `processMutex` back, and the
calls on their way can always be brought to their ends. -/
theorem threads_serialised (gst : Gst) (starts : J → Method → Prop)
    (resume : J → Method → Answer → J) (s₀ : TranscodingService) (js : List J)
    {tr : List (Nat × Option (Method × Answer))} {x : Threads TranscodingService J Method Answer}
    (h : (threadsLts (serviceJobs gst starts resume)).Run (.idle js s₀) tr x) :
    Serialised gst starts resume s₀ js tr x where
  calls := by
    obtain ⟨t, hserial, hrun⟩ := serial_threads h
    exact ⟨t, hrun, hserial.state_eq⟩
  settles := by
    obtain ⟨t, hserial, _⟩ := serial_threads h
    exact hserial.settles fun _ c _ => guarded_statements c

theorem threads_of_calls {c : TranscodingService × List J} {calls : List (Nat × Method × Answer)}
    (h : (Pool.lts (wholeCall gst starts resume)).Run (s₀, js) calls c) :
    ∃ tr, ended tr = calls ∧
      (threadsLts (serviceJobs gst starts resume)).Run (.idle js s₀) tr (.idle c.2 c.1) := by
  refine calls_run (fun _ c _ => guarded_statements c) (h.mono ?_)
  rintro c l d ⟨j, j', hk, hstep, hset⟩
  exact ⟨j, j', hk, callStep_iff.mpr hstep, hset⟩

/-- Between two moments at which no call is on its way, the threads can do just what whole calls can
do, in any order of the calls and with the same results. -/
theorem threads_do_calls (gst : Gst) (starts : J → Method → Prop) (resume : J → Method → Answer → J)
    (s t : TranscodingService) (js js' : List J) (calls : List (Nat × Method × Answer)) :
    (∃ tr, ended tr = calls ∧
      (threadsLts (serviceJobs gst starts resume)).Run (.idle js s) tr (.idle js' t)) ↔
    (Pool.lts (wholeCall gst starts resume)).Run (s, js) calls (t, js') := by
  constructor
  · rintro ⟨tr, rfl, h⟩
    obtain ⟨u, hserial, hrun⟩ := serial_threads h
    rw [idle_jobs] at hrun
    have ht : t = u := hserial.state_eq rfl
    exact ht ▸ hrun
  · exact threads_of_calls

/-! ## An addition that throws -/

def camUrl : Str := str "rtsp://10.0.0.1/live"

def doorUrl : Str := str "rtsp://10.0.0.2/live"

theorem cam_accepted : Accepts Gst.sequence {} (str "cam") camUrl :=
  ⟨by decide +kernel, by decide +kernel, (fun id e he => by cases he), by decide⟩

/-- The table of the factories cannot take the second one. -/
def thrownEnv : Env := { Env.calm (str "") with raises := (· == .mediaFactory .second) }

/-- A stream is added, another one is not, and the first one is listed. -/
def thrownCalls (e : UriParts) (t : TranscodingService) : List (Nat × Method × Answer) :=
  [(0, .AddRtsp (Env.calm (str "")) (str "cam") camUrl, .uriParts (some e)),
    (1, .AddRtsp thrownEnv (str "door") doorUrl, .uriParts none),
    (0, .GetMedias, .medias (GetMedias t))]

/-- A call of one of two threads that may call anything. -/
theorem free_step {gst : Gst} {s t : TranscodingService} {l : Nat × Method × Answer}
    (hl : [(), ()][l.1]? = some ()) (h : l.2.1.exec gst s = (l.2.2, t)) :
    (Pool.lts (wholeCall gst (fun _ _ => True) fun j _ _ => j)).step (s, [(), ()]) l (t, [(), ()]) :=
  ⟨(), (), hl, ⟨trivial, h, rfl⟩, List.ext_getElem (by simp) fun _ _ _ => rfl⟩

theorem thrown_calls : ∃ e t,
    (Pool.lts (wholeCall Gst.sequence (fun _ _ => True) fun j _ _ => j)).Run ({}, [(), ()])
      (thrownCalls e t) (t, [(), ()]) ∧
    mountPoint (str "door") .first ∈ t.mediaFactories ∧ str "door" ∉ t.uriPartsMap := by
  obtain ⟨parts, _, hadd⟩ := @AddRtsp_accepted _ _ (str "") _ _ cam_accepted
  have hstate := congrArg Prod.snd hadd
  have hthrown : (AddRtsp Gst.sequence thrownEnv (str "door") doorUrl
      (AddRtsp Gst.sequence (Env.calm (str "")) (str "cam") camUrl {}).2).1 = none := by decide +kernel
  have htrace : mountPoint (str "door") .first ∈ (AddRtsp Gst.sequence thrownEnv (str "door") doorUrl
      (AddRtsp Gst.sequence (Env.calm (str "")) (str "cam") camUrl {}).2).2.mediaFactories := by
    decide +kernel
  have hdoor : str "door" ∉ (AddRtsp Gst.sequence thrownEnv (str "door") doorUrl
      (AddRtsp Gst.sequence (Env.calm (str "")) (str "cam") camUrl {}).2).2.uriPartsMap := by
    decide +kernel
  rw [hstate] at hthrown htrace hdoor
  generalize parts.readyAt (str "") = e at hadd hthrown htrace hdoor
  generalize TranscodingService.added _ _ _ _ _ = t at hadd hthrown htrace hdoor
  cases hfailed : AddRtsp Gst.sequence thrownEnv (str "door") doorUrl t with
  | mk r u =>
      rw [hfailed] at hthrown htrace hdoor
      obtain rfl : r = none := hthrown
      have hfirst := @free_step Gst.sequence {} t
        (0, .AddRtsp (Env.calm (str "")) (str "cam") camUrl, .uriParts (some e)) rfl
        (by rw [Method.exec, hadd])
      have hsecond := @free_step Gst.sequence t u
        (1, .AddRtsp thrownEnv (str "door") doorUrl, .uriParts none) rfl (by rw [Method.exec, hfailed])
      have hthird := @free_step Gst.sequence u u (0, .GetMedias, .medias (GetMedias u)) rfl rfl
      exact ⟨e, u, .cons hfirst (.cons hsecond (.single hthird)), htrace, hdoor⟩

/-- One thread is about to list the streams, another one waits for its section. -/
theorem two_threads_run (s : TranscodingService) : ∃ x, x.mutex = some (0, 0) ∧
    (threadsLts (serviceJobs Gst.sequence (fun _ _ => True) fun j _ _ => j)).Run
      (.idle [(), ()] s) [(0, none), (1, none), (0, none), (0, none)] x := by
  refine ⟨_, ?_, Step.cons_run rfl (.call (c := .GetMedias) trivial) <|
    Step.cons_run rfl (.call (c := .GetClientSessions) trivial) <|
      Step.cons_run rfl .lock <| Step.run_one rfl .act⟩
  rfl

theorem threads_serialised_two : ∃ e t tr x, ended tr = thrownCalls e t ∧ x.mutex = some (0, 0) ∧
    Serialised Gst.sequence (fun _ _ => True) (fun j _ _ => j) {} [(), ()] tr x := by
  obtain ⟨e, t, hcalls, _⟩ := thrown_calls
  obtain ⟨tr, hended, hrun⟩ := threads_of_calls hcalls
  obtain ⟨x, hx, hrun'⟩ := two_threads_run t
  refine ⟨e, t, _, x, ?_, hx, threads_serialised _ _ _ _ _ (hrun.append hrun')⟩
  rw [ended_append, hended]
  rfl

end Jobs

/-! ## Under exceptions -/

variable {gst : Gst} {s t : TranscodingService} {id uri : Str} {e : UriParts}

theorem setup_same (client : GstRTSPClient) (session abspath : Option Str) :
    SameStreams s (setup_request_callback client session abspath s) := by
  cases abspath with
  | none => exact .refl
  | some path => exact AddClientInfo_same _ _ _

theorem closed_same (client : GstRTSPClient) : SameStreams s (closed_callback client s) :=
  RemoveClientWithClient_same (some client)

theorem Sturdy.same (h : Sturdy s) (hs : SameStreams s t) : Sturdy t :=
  h.of_toTables hs.uriPartsMap hs.mediaFactories

theorem Sturdy.step {l : Method × Answer} (h : Sturdy s) (hl : (methodLts gst).step s l t) :
    Sturdy t := by
  obtain ⟨m, r⟩ := l
  have ht : t = (m.exec gst s).2 := (congrArg Prod.snd hl).symm
  subst ht
  cases m with
  | AddRtsp env id uri => exact h.AddRtsp env id uri
  | RemoveRtsp env id => exact h.RemoveRtsp env id
  | setup_request_callback client session abspath => exact h.same (setup_same client session abspath)
  | closed_callback client => exact h.same (closed_same client)
  | GetMedias | GetClientSessions | client_connected_callback client
    | describe_request_callback client | teardown_request_callback client session => exact h

theorem HeldIn.step {l : Method × Answer} (h : HeldIn s) (hl : (methodLts gst).step s l t) :
    HeldIn t := by
  obtain ⟨m, r⟩ := l
  have ht : t = (m.exec gst s).2 := (congrArg Prod.snd hl).symm
  subst ht
  cases m with
  | AddRtsp env id uri => exact h.AddRtsp env id uri
  | RemoveRtsp env id => exact h.RemoveRtsp env id
  | setup_request_callback client session abspath =>
      cases abspath with
      | none => exact h
      | some path => exact @Held.exec_call gst s h (.AddClientInfo (some client) _ path)
  | closed_callback client => exact @Held.exec_call gst s h (.RemoveClientWithClient (some client))
  | GetMedias | GetClientSessions | client_connected_callback client
    | describe_request_callback client | teardown_request_callback client session => exact h

/-- No call but a removal of its id touches an entry. -/
theorem entry_step {l : Method × Answer} (he : s.uriPartsMap[id]? = some e)
    (hl : (methodLts gst).step s l t) (hno : ∀ env, l.1 ≠ .RemoveRtsp env id) :
    t.uriPartsMap[id]? = some e := by
  obtain ⟨m, r⟩ := l
  have ht : t = (m.exec gst s).2 := (congrArg Prod.snd hl).symm
  subst ht
  cases m with
  | AddRtsp env id' uri =>
      have ho := AddRtsp_faulty gst env s id' uri
      change (AddRtsp gst env id' uri s).2.uriPartsMap[id]? = some e
      generalize AddRtsp gst env id' uri s = r at ho ⊢
      cases ho with
      | unchanged hsame => exact (congrArg (·.uriPartsMap[id]?) hsame).trans he
      | adding parts ha hp hadding _ =>
          have hne : id ≠ id' := fun heq => ha.freshId (heq ▸ (OrdMap.mem_iff _ _).mpr ⟨e, he⟩)
          exact (hadding.others id hne).trans he
  | RemoveRtsp env id' =>
      have hne : id' ≠ id := fun heq => hno env (by rw [heq])
      change (RemoveRtsp gst env id' s).2.uriPartsMap[id]? = some e
      rcases RemoveRtsp_faulty gst env s id' with hsame | ⟨d, _, hdropped⟩
      · exact (congrArg (·.uriPartsMap[id]?) hsame).trans he
      · refine (congrArg (·.uriPartsMap[id]?) hdropped).trans ?_
        rw [dropped_uriPartsMap, OrdMap.getElem?_erase, if_neg hne, he]
  | setup_request_callback client session abspath =>
      exact (congrArg (·[id]?) (setup_same client session abspath).uriPartsMap).trans he
  | closed_callback client =>
      exact (congrArg (·[id]?) (closed_same client).uriPartsMap).trans he
  | GetMedias | GetClientSessions | client_connected_callback client
    | describe_request_callback client | teardown_request_callback client session => exact he

theorem entry_run {tr : List (Method × Answer)} (h : (methodLts gst).Run s tr t)
    (he : s.uriPartsMap[id]? = some e) (hno : ∀ env r, (.RemoveRtsp env id, r) ∉ tr) :
    t.uriPartsMap[id]? = some e := by
  induction h with
  | nil => exact he
  | @snoc tr u l t _ hl ih =>
      refine entry_step (ih fun env r hmem => hno env r (List.mem_append_left _ hmem)) hl ?_
      rintro env heq
      exact hno env l.2 (List.mem_append_right _ (by rw [← heq]; exact List.mem_singleton_self l))

/-- What an addition returns is in the table behind it. -/
theorem entry_of_addition {env : Env}
    (h : (methodLts gst).step s (.AddRtsp env id uri, .uriParts (some e)) t) :
    t.uriPartsMap[id]? = some e ∧ e.id = id ∧ e.full_path = uri ∧ hasSlashes uri := by
  have hexec : (Method.AddRtsp env id uri).exec gst s = (.uriParts (some e), t) := h
  have ho := AddRtsp_faulty gst env s id uri
  rw [Method.exec] at hexec
  generalize AddRtsp gst env id uri s = r at ho hexec
  cases ho with
  | unchanged hsame => cases hexec
  | adding parts ha hp hadding hreturned =>
      cases hexec
      obtain ⟨rfl, he⟩ := hreturned e rfl
      exact ⟨he, (parsed_readyAt hp).id_eq, readyAt_full_path hp, ha.slashes⟩

/-- What no exception can break, behind the calls `tr` of all threads: a stream whose addition has
returned it is complete, and is listed, until a removal of its id. -/
structure Withstands (tr : List (Nat × Method × Answer)) (t : TranscodingService) : Prop where
  sturdy : Sturdy t
  held : Held t.clientInfos t.calls
  added : ∀ pre post k env id uri e,
    tr = pre ++ (k, .AddRtsp env id uri, .uriParts (some e)) :: post →
    (∀ k' env' r, (k', .RemoveRtsp env' id, r) ∉ post) →
    t.uriPartsMap[id]? = some e ∧
      (∀ p, ∃ f, t.mediaFactories[mountPoint id p]? = some f ∧
        f.launch = c_str (launchDescription p uri)) ∧
      ∀ k' r, (k', .GetMedias, .medias r) ∈ post → e.mediaInfo id ∈ r.list

theorem listed_of_entry {u : TranscodingService} {r : Report MediaInfo}
    (h : (methodLts gst).step s (.GetMedias, .medias r) u) (he : s.uriPartsMap[id]? = some e)
    (hid : e.id = id) : e.mediaInfo id ∈ r.list := by
  have hexec : (Answer.medias (GetMedias s), s) = (.medias r, u) := h
  cases hexec
  exact mem_GetMedias.mpr ⟨id, e, he, by rw [hid]⟩

/-- In every run of the threads from the start of the service, whatever their calls throw. -/
theorem threads_withstand (gst : Gst) {J : Type} (starts : J → Method → Prop)
    (resume : J → Method → Answer → J) (js : List J) {tr : List (Nat × Option (Method × Answer))}
    {x : Threads TranscodingService J Method Answer}
    (h : (threadsLts (serviceJobs gst starts resume)).Run (.idle js {}) tr x)
    (hfree : x.mutex = none) : Withstands (ended tr) x.state := by
  obtain ⟨t, hrun, hstate⟩ := methodRun_of_threads h
  rw [hstate hfree]
  have hsturdy : Sturdy t := hrun.invariant (fun s l t hs hl => Sturdy.step hs hl) .empty
  have hheld : HeldIn t :=
    hrun.invariant (P := HeldIn) (fun s l t hs hl => HeldIn.step hs hl) fun _ => rfl
  refine ⟨hsturdy, hheld, ?_⟩
  intro pre post k env id uri e htr hno
  rw [htr, List.map_append, List.map_cons] at hrun
  obtain ⟨u, hpre, hrest⟩ := hrun.split
  obtain ⟨v, hadd, hpost⟩ := hrest.cons_inv
  obtain ⟨hv, hid, rfl, hslashes⟩ := entry_of_addition hadd
  have hno' : ∀ env' r, (Method.RemoveRtsp env' id, r) ∉ post.map Prod.snd := by
    intro env' r hmem
    obtain ⟨⟨k', l⟩, hl, heq⟩ := List.mem_map.mp hmem
    cases heq
    exact hno k' env' r hl
  have he := entry_run hpost hv hno'
  refine ⟨he, fun p => ?_, fun k' r hmem => ?_⟩
  · obtain ⟨f, hf, hlaunch⟩ := (hsturdy.entries id e he).factories p
    refine ⟨f, hf, hlaunch.resolve_left fun hnil => ?_⟩
    rw [hnil] at hslashes
    exact absurd hslashes (by decide)
  · obtain ⟨mid, last, rfl⟩ := List.append_of_mem hmem
    rw [List.map_append, List.map_cons] at hpost hno'
    obtain ⟨w, hmid, hlast⟩ := hpost.split
    obtain ⟨w', hlist, _⟩ := hlast.cons_inv
    have hw := entry_run hmid hv fun env' r hmem => hno' env' r (List.mem_append_left _ hmem)
    exact listed_of_entry hlist hw hid

/-- The stream that was added withstands the addition that throws. -/
theorem threads_withstand_thrown : ∃ e t, Withstands (thrownCalls e t) t ∧
    mountPoint (str "door") .first ∈ t.mediaFactories ∧ str "door" ∉ t.uriPartsMap := by
  obtain ⟨e, t, hcalls, htrace, hdoor⟩ := thrown_calls
  obtain ⟨tr, hended, hrun⟩ := threads_of_calls hcalls
  refine ⟨e, t, ?_, htrace, hdoor⟩
  rw [← hended]
  exact threads_withstand _ _ _ _ hrun rfl

end TranscodingServer
