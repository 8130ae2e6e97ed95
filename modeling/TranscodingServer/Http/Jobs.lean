import TranscodingServer.Library.Pool
import TranscodingServer.Core.Calls
import TranscodingServer.Http.Handlers

/-!
# Requests beside each other

Crow runs its handlers on several threads.  A handler with a well-formed list is a job that takes
one call of `AddRtsp` or `RemoveRtsp` at a time; the calls of all jobs are serialised by
`processMutex`.
-/

namespace TranscodingServer

/-- A list as crow can deliver it: `rvalue::emplace_back` computes its sizes as `int`. -/
structure Batch (α : Type) where
  items : List α
  short : items.length < 2 ^ 31

inductive Request
  | add (items : Batch (Str × Str))
  | remove (ids : Batch Str)

/-- A handler on its way: the items still to come, and what its loop has filled. -/
inductive Job
  | add (todo : List (Str × Str)) (acc : AddAcc)
  | remove (todo : List Str) (failedUrls : List Str)
  deriving DecidableEq

def Request.start : Request → Job
  | .add b => .add b.items {}
  | .remove b => .remove b.items []

def Job.finished : Job → Prop
  | .add todo _ => todo = []
  | .remove todo _ => todo = []

inductive Job.Step (gst : Gst) : Job → TranscodingService → Call × Ret → Job → TranscodingService → Prop
  | add (now : Str) (item : Str × Str) (todo : List (Str × Str)) (acc : AddAcc)
      (s : TranscodingService) :
      Step gst (.add (item :: todo) acc) s
        (.AddRtsp now item.1 item.2, ((Call.AddRtsp now item.1 item.2).exec gst s).1)
        (.add todo (addItem gst now item acc s).1) (addItem gst now item acc s).2
  | remove (now id : Str) (todo failedUrls : List Str) (s : TranscodingService) :
      Step gst (.remove (id :: todo) failedUrls) s
        (.RemoveRtsp now id, ((Call.RemoveRtsp now id).exec gst s).1)
        (.remove todo (removeItem gst now id failedUrls s).1) (removeItem gst now id failedUrls s).2

abbrev poolLts (gst : Gst) : Lts (TranscodingService × List Job) (Nat × Call × Ret) :=
  Pool.lts (Job.Step gst)

section PoolStep

variable (gst : Gst) (now : Str) (s : TranscodingService) {js : List Job} (k : Nat)

theorem poolStep_add {item : Str × Str} {todo : List (Str × Str)} {acc : AddAcc}
    (h : js[k]? = some (.add (item :: todo) acc)) :
    (poolLts gst).step (s, js)
      (k, .AddRtsp now item.1 item.2, ((Call.AddRtsp now item.1 item.2).exec gst s).1)
      ((addItem gst now item acc s).2, js.set k (.add todo (addItem gst now item acc s).1)) :=
  ⟨_, _, h, .add now item todo acc s, rfl⟩

theorem poolStep_remove {id : Str} {todo failedUrls : List Str}
    (h : js[k]? = some (.remove (id :: todo) failedUrls)) :
    (poolLts gst).step (s, js)
      (k, .RemoveRtsp now id, ((Call.RemoveRtsp now id).exec gst s).1)
      ((removeItem gst now id failedUrls s).2,
        js.set k (.remove todo (removeItem gst now id failedUrls s).1)) :=
  ⟨_, _, h, .remove now id todo failedUrls s, rfl⟩

end PoolStep

def Job.response : Job → Option (Report MediaInfo)
  | .add [] acc => some (addResult acc)
  | _ => none

/-! ## A handler alone -/

section Loop

variable {ι α : Type} {apply : Nat → ι → α → TranscodingService → α × TranscodingService}
  {gst : Gst} (start : List ι → α → Job)

/-- The loop over well-formed items is a run of a single job, if an item is a step of it. -/
theorem itemsLoop_run (hstep : ∀ n i todo acc s, ∃ l, (poolLts gst).step (s, [start (i :: todo) acc]) l
      ((apply n i acc s).2, [start todo (apply n i acc s).1]))
    (n : Nat) (items : List ι) (acc : α) (s : TranscodingService) :
    ∃ tr, (poolLts gst).Run (s, [start items acc]) tr
      ((itemsLoop apply n items acc s).2, [start [] (itemsLoop apply n items acc s).1]) := by
  induction items generalizing n acc s with
  | nil => exact ⟨[], .nil⟩
  | cons i items ih =>
      obtain ⟨l, hl⟩ := hstep n i items acc s
      obtain ⟨tr, hrun⟩ := ih (n + 1) (apply n i acc s).1 (apply n i acc s).2
      exact ⟨l :: tr, .cons hl hrun⟩

end Loop

variable {gst : Gst} {body : Option Json} {items : List Json}

theorem addHandler_run (clock : Nat → Str) (b : Batch (Str × Str))
    (hbody : batch (str "rtsp_uris") body = some items)
    (hargs : items.map addArgs = b.items.map .ok) (s : TranscodingService) :
    ∃ tr acc t, (poolLts gst).Run (s, [(Request.add b).start]) tr (t, [.add [] acc]) ∧
      addHandler gst clock body s = (.ok (addResult acc), t) := by
  obtain ⟨tr, hrun⟩ := @itemsLoop_run _ _ (fun n => addItem gst (clock n)) gst .add
    (fun n i todo acc s => ⟨_, poolStep_add gst (clock n) s 0 rfl⟩) 0 b.items {} s
  refine ⟨tr, _, _, hrun, ?_⟩
  rw [addHandler, hbody]
  exact batchLoop_items 0 hargs _ s

theorem removeHandler_run (clock : Nat → Str) (b : Batch Str)
    (hbody : batch (str "rtsp_ids") body = some items)
    (hargs : items.map removeArgs = b.items.map .ok) (s : TranscodingService) :
    ∃ tr failedUrls t, (poolLts gst).Run (s, [(Request.remove b).start]) tr (t, [.remove [] failedUrls]) ∧
      removeHandler gst clock body s = (.ok (removeResult failedUrls), t) := by
  obtain ⟨tr, hrun⟩ := @itemsLoop_run _ _ (fun n => removeItem gst (clock n)) gst .remove
    (fun n i todo acc s => ⟨_, poolStep_remove gst (clock n) s 0 rfl⟩) 0 b.items [] s
  refine ⟨tr, _, _, hrun, ?_⟩
  rw [removeHandler, hbody]
  exact batchLoop_items 0 hargs _ s

end TranscodingServer
