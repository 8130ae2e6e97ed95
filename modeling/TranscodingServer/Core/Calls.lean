import TranscodingServer.Library.Runs
import TranscodingServer.Core.Service

/-!
# Sequences of calls

Every call takes `processMutex`, so the calls of all threads form one sequence; `now` is the time
that a call reads.
-/

namespace TranscodingServer

inductive Call
  | AddRtsp (now id uri : Str)
  | RemoveRtsp (now id : Str)
  | AddClientInfo (client : Option GstRTSPClient) (id uri : Str)
  | RemoveClientWithClient (client : Option GstRTSPClient)
  deriving DecidableEq

inductive Ret
  | uriParts (r : Option UriParts)
  | bool (r : Bool)
  | void
  deriving DecidableEq

def Call.exec (gst : Gst) (s : TranscodingService) : Call → Ret × TranscodingService
  | .AddRtsp now id uri =>
    let (r, t) := TranscodingServer.AddRtsp gst (Env.calm now) id uri s
    (.uriParts r, t)
  | .RemoveRtsp now id =>
    let (r, t) := TranscodingServer.RemoveRtsp gst (Env.calm now) id s
    (.bool r, t)
  | .AddClientInfo client id uri => (.void, TranscodingServer.AddClientInfo client id uri s)
  | .RemoveClientWithClient client =>
    (.void, TranscodingServer.RemoveClientWithClient client s)

/-- The calls with what they returned, and the state behind them. -/
def Call.execAll (gst : Gst) : List Call → TranscodingService →
    List (Call × Ret) × TranscodingService
  | [], s => ([], s)
  | c :: cs, s =>
    let (r, t) := c.exec gst s
    let (rs, u) := Call.execAll gst cs t
    ((c, r) :: rs, u)

/-- The state that a sequence of calls leads to from the empty service. -/
def stateAfter (gst : Gst) (cs : List Call) : TranscodingService := (Call.execAll gst cs {}).2

/-- The service as a transition system, its steps labelled with the call and its result. -/
def serviceLts (gst : Gst) : Lts TranscodingService (Call × Ret) where
  step s l t := l.1.exec gst s = (l.2, t)

variable {gst : Gst}

theorem execAll_append (cs ds : List Call) (s : TranscodingService) :
    Call.execAll gst (cs ++ ds) s =
      ((Call.execAll gst cs s).1 ++ (Call.execAll gst ds (Call.execAll gst cs s).2).1,
        (Call.execAll gst ds (Call.execAll gst cs s).2).2) := by
  induction cs generalizing s with
  | nil => rfl
  | cons c cs ih => simp [Call.execAll, ih]

theorem stateAfter_snoc (cs : List Call) (c : Call) :
    stateAfter gst (cs ++ [c]) = (c.exec gst (stateAfter gst cs)).2 := by
  simp [stateAfter, execAll_append, Call.execAll]

theorem execAll_run (cs : List Call) (s : TranscodingService) :
    (serviceLts gst).Run s (Call.execAll gst cs s).1 (Call.execAll gst cs s).2 := by
  induction cs generalizing s with
  | nil => exact .nil
  | cons c cs ih => exact .cons rfl (ih _)

theorem stateAfter_invariant {P : TranscodingService → Prop} (h₀ : P {})
    (hP : ∀ s c, P s → P (Call.exec gst s c).2) (cs : List Call) : P (stateAfter gst cs) := by
  refine (execAll_run cs {}).invariant ?_ h₀
  intro s l t hs hstep
  have ht : t = (l.1.exec gst s).2 := by rw [hstep]
  rw [ht]
  exact hP s l.1 hs

end TranscodingServer
