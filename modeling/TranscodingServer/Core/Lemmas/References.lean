import TranscodingServer.Library.Balance
import TranscodingServer.Core.Calls
import TranscodingServer.Core.Lemmas.Tables

/-!
# The references that the service holds

Every record of a client holds one reference on it.  The loops that erase records are also seen
iteration by iteration here.
-/

namespace TranscodingServer

open Balance Throwing

variable {gst : Gst} {s : TranscodingService} {now id : Str} {info : ClientInfo}

/-! ## What a call acquires and releases -/

def clientWeight (c : GstRTSPClient) : GstCall → Int
  | .client_ref d => if d = c then 1 else 0
  | .client_unref d => if d = c then -1 else 0
  | _ => 0

def mountsWeight : GstCall → Int
  | .get_mount_points => 1
  | .unref_mount_points => -1
  | _ => 0

/-- `gst_rtsp_client_get_connection` lends its connection, so no call acquires one. -/
def connectionWeight (conn : GstRTSPConnection) : GstCall → Int
  | .connection_unref d => if d = conn then -1 else 0
  | _ => 0

/-- The records of a client. -/
def isClient (c : GstRTSPClient) (info : ClientInfo) : Bool := info.client == some c

theorem net_client_release (c : GstRTSPClient) (info : ClientInfo) :
    net (clientWeight c) info.release = if isClient c info then -1 else 0 := by
  unfold ClientInfo.release isClient
  cases info.client with
  | none => rfl
  | some d => by_cases h : d = c <;> simp [clientWeight, h]

theorem net_client_closeConnection (c : GstRTSPClient) (info : ClientInfo) :
    net (clientWeight c) (closeConnection gst info) = 0 := by
  unfold closeConnection
  split <;> rfl

/-! ## The loops that erase records -/

/-- A loop on its way: the records in front of its iterator, those from there on, and the calls made
so far. -/
structure EraseState where
  before : List ClientInfo
  rest : List ClientInfo
  calls : List GstCall

section Loop

variable (p : ClientInfo → Bool) (close : ClientInfo → List GstCall)

/-- One iteration. -/
def EraseState.next (st : EraseState) : EraseState :=
  match st.rest with
  | [] => st
  | info :: rest =>
    if p info then { st with rest := rest, calls := st.calls ++ (close info ++ info.release) }
    else { st with before := st.before ++ [info], rest := rest }

/-- As many iterations as there are records are the whole loop. -/
theorem iterate_next (l before : List ClientInfo) (calls : List GstCall) :
    (EraseState.next p close)^[l.length] ⟨before, l, calls⟩ =
      ⟨before ++ (eraseLoop p close l).1, [], calls ++ (eraseLoop p close l).2⟩ := by
  induction l generalizing before calls with
  | nil => simp [eraseLoop]
  | cons info l ih =>
      rw [List.length_cons, Function.iterate_succ_apply]
      cases hp : p info with
      | true => simp [EraseState.next, eraseLoop, hp, ih]
      | false => simp [EraseState.next, eraseLoop, hp, ih]

end Loop

/-- The service holds one reference on a client for each of its records. -/
def Held (infos : List ClientInfo) (calls : List GstCall) : Prop :=
  ∀ c, net (clientWeight c) calls = infos.countP (isClient c)

theorem Held.next {p : ClientInfo → Bool} {close : ClientInfo → List GstCall}
    (hclose : ∀ info c, net (clientWeight c) (close info) = 0) {st : EraseState}
    (h : Held (st.before ++ st.rest) st.calls) :
    Held ((st.next p close).before ++ (st.next p close).rest) (st.next p close).calls := by
  rcases st with ⟨before, _ | ⟨info, rest⟩, calls⟩
  · exact h
  · cases hp : p info with
    | true =>
        intro c
        have hc := h c
        simp only [EraseState.next, hp, ↓reduceIte, net_append, hclose, net_client_release,
          List.countP_append, List.countP_cons] at hc ⊢
        cases hclient : isClient c info with
        | true => simp [hclient] at hc ⊢; omega
        | false => simp [hclient] at hc ⊢; omega
    | false =>
        simp only [EraseState.next, hp, Bool.false_eq_true, ↓reduceIte, List.append_assoc]
        exact h

theorem Held.iterate_next {p : ClientInfo → Bool} {close : ClientInfo → List GstCall}
    (hclose : ∀ info c, net (clientWeight c) (close info) = 0) {st : EraseState}
    (h : Held (st.before ++ st.rest) st.calls) (n : Nat) :
    Held (((EraseState.next p close)^[n] st).before ++ ((EraseState.next p close)^[n] st).rest)
      ((EraseState.next p close)^[n] st).calls := by
  induction n with
  | zero => exact h
  | succ n ih =>
      rw [Function.iterate_succ_apply']
      exact ih.next hclose

/-! ## Removals -/

/-- The two ways to remove records. -/
inductive Removal
  | client (c : GstRTSPClient)
  | id (now id : Str)

def Removal.exec (gst : Gst) (s : TranscodingService) : Removal → TranscodingService
  | .client c => RemoveClientWithClient (some c) s
  | .id now id => RemoveClientWithId gst (Env.calm now) id s

def Removal.selects : Removal → ClientInfo → Bool
  | .client c => isClient c
  | .id _ id => matchesId id

def Removal.close (gst : Gst) : Removal → ClientInfo → List GstCall
  | .client c => fun _ => [.client_close c]
  | .id _ _ => closeConnection gst

/-- The loop of a removal that was called in `s`, after `n` iterations. -/
def Removal.moment (gst : Gst) (r : Removal) (n : Nat) (s : TranscodingService) : EraseState :=
  (EraseState.next r.selects (r.close gst))^[n] ⟨[], s.clientInfos, s.calls⟩

theorem Removal.exec_eq (r : Removal) (s : TranscodingService) :
    r.exec gst s = { s with
      clientInfos := s.clientInfos.filter (!r.selects ·)
      calls := s.calls ++ (s.clientInfos.filter r.selects).flatMap fun info =>
        r.close gst info ++ info.release } := by
  cases r with
  | client c => exact RemoveClientWithClient_some c
  | id now id => exact RemoveClientWithId_calm

theorem Removal.last_moment (r : Removal) (s : TranscodingService) :
    r.moment gst s.clientInfos.length s = ⟨(r.exec gst s).clientInfos, [], (r.exec gst s).calls⟩ := by
  rw [Removal.moment, iterate_next, eraseLoop_eq, Removal.exec_eq]
  rfl

theorem Removal.net_close (r : Removal) (info : ClientInfo) (c : GstRTSPClient) :
    net (clientWeight c) (r.close gst info) = 0 := by
  cases r with
  | client d => rfl
  | id now id => exact net_client_closeConnection c info

theorem Held.moment (h : Held s.clientInfos s.calls) (r : Removal) (n : Nat) :
    Held ((r.moment gst n s).before ++ (r.moment gst n s).rest) (r.moment gst n s).calls :=
  @Held.iterate_next _ _ r.net_close ⟨[], s.clientInfos, s.calls⟩ h n

theorem Held.exec (h : Held s.clientInfos s.calls) (r : Removal) :
    Held (r.exec gst s).clientInfos (r.exec gst s).calls := by
  have hlast := @Held.moment gst s h r s.clientInfos.length
  rw [r.last_moment, List.append_nil] at hlast
  exact hlast

/-! ## Removals one after the other -/

theorem removals_clientInfos (rs : List Removal) (s : TranscodingService) :
    (rs.foldl (Removal.exec gst) s).clientInfos =
      s.clientInfos.filter fun info => !rs.any (·.selects info) := by
  induction rs generalizing s with
  | nil => simp
  | cons r rs ih =>
      rw [List.foldl_cons, ih, Removal.exec_eq, List.filter_filter]
      refine List.filter_congr fun info _ => ?_
      simp [Bool.and_comm]

theorem count_release (c : GstRTSPClient) (info : ClientInfo) :
    info.release.count (.client_unref c) = (isClient c info).toNat := by
  unfold ClientInfo.release isClient
  cases info.client with
  | none => rfl
  | some d =>
      by_cases h : d = c
      · simp [h]
      · have hne : (d == c) = false := by simpa using h
        simp [h, hne]

theorem Removal.count_close (r : Removal) (info : ClientInfo) (c : GstRTSPClient) :
    (r.close gst info).count (.client_unref c) = 0 ∧ (r.close gst info).count (.client_ref c) = 0 := by
  cases r with
  | client d => simp [Removal.close]
  | id now id =>
      simp only [Removal.close, closeConnection]
      split <;> simp

/-- A removal releases each record that it removes once, and takes no reference. -/
theorem Removal.count_exec (r : Removal) (s : TranscodingService) (c : GstRTSPClient) :
    (r.exec gst s).calls.count (.client_unref c) =
        s.calls.count (.client_unref c) + (s.clientInfos.filter r.selects).countP (isClient c) ∧
      (r.exec gst s).calls.count (.client_ref c) = s.calls.count (.client_ref c) := by
  have hmade : ∀ l : List ClientInfo,
      (l.flatMap fun info => r.close gst info ++ info.release).count (.client_unref c) =
          l.countP (isClient c) ∧
        (l.flatMap fun info => r.close gst info ++ info.release).count (.client_ref c) = 0 := by
    intro l
    induction l with
    | nil => exact ⟨rfl, rfl⟩
    | cons info l ih =>
        have hclose := @Removal.count_close gst r info c
        have hno : info.release.count (.client_ref c) = 0 := by
          unfold ClientInfo.release
          cases info.client <;> simp
        simp only [List.flatMap_cons, List.count_append, hclose, ih, hno, count_release,
          List.countP_cons]
        cases isClient c info <;> simp [Nat.add_comm]
  rw [Removal.exec_eq]
  simp [List.count_append, hmade]

theorem countP_filter_or {α : Type} (q p p' : α → Bool) (l : List α) :
    (l.filter p).countP q + (l.filter fun a => p' a && !p a).countP q =
      (l.filter fun a => p a || p' a).countP q := by
  induction l with
  | nil => rfl
  | cons a l ih =>
      cases hp : p a <;> cases hp' : p' a <;> cases hq : q a <;> simp [hp, hp', hq] <;> omega

theorem removals_count (rs : List Removal) (s : TranscodingService) (c : GstRTSPClient) :
    (rs.foldl (Removal.exec gst) s).calls.count (.client_unref c) = s.calls.count (.client_unref c) +
        (s.clientInfos.filter fun info => rs.any (·.selects info)).countP (isClient c) ∧
      (rs.foldl (Removal.exec gst) s).calls.count (.client_ref c) =
        s.calls.count (.client_ref c) := by
  induction rs generalizing s with
  | nil => simp
  | cons r rs ih =>
      have hone := @Removal.count_exec gst r s c
      obtain ⟨hrest, hrefs⟩ := ih (r.exec gst s)
      refine ⟨?_, hrefs.trans hone.2⟩
      have hinfos : (r.exec gst s).clientInfos = s.clientInfos.filter (!r.selects ·) := by
        rw [Removal.exec_eq]
      rw [List.foldl_cons, hrest, hone.1, hinfos, List.filter_filter,
        Nat.add_assoc, countP_filter_or]
      rfl

/-! ## Runs of the service -/

theorem Held.calls_append {infos : List ClientInfo} {calls calls' : List GstCall}
    (h : Held infos calls) (hzero : ∀ c, net (clientWeight c) calls' = 0) :
    Held infos (calls ++ calls') := by
  intro c
  rw [net_append_of_zero _ (hzero c)]
  exact h c

theorem Held.exec_call (h : Held s.clientInfos s.calls) (c : Call) :
    Held (c.exec gst s).2.clientInfos (c.exec gst s).2.calls := by
  cases c with
  | AddRtsp now id uri =>
      rcases AddRtsp_cases gst s now id uri with ⟨parts, _, _, hadd⟩ | ⟨_, hadd⟩
      · rw [Call.exec, hadd]
        exact h.calls_append fun _ => rfl
      · rw [Call.exec, hadd]
        exact h
  | RemoveRtsp now id =>
      have hgot : Held s.clientInfos (s.calls ++ [.get_mount_points]) :=
        h.calls_append fun _ => rfl
      rcases RemoveRtsp_cases gst s now id with ⟨e, _, _, hremove⟩ | ⟨_, hremove⟩
      · have hpurged := @Held.exec gst { s with calls := s.calls ++ [.get_mount_points] } hgot
          (.id now id)
        rw [Removal.exec_eq] at hpurged
        rw [Call.exec, hremove, removed_clientInfos, removed_calls]
        exact hpurged.calls_append fun _ => rfl
      · rw [Call.exec, hremove]
        exact hgot
  | AddClientInfo client id uri =>
      intro c
      have hc := h c
      simp only [Call.exec, AddClientInfo, ClientInfo.new, net_append, List.countP_append, hc]
      cases client with
      | none => simp [isClient]
      | some d => by_cases hd : d = c <;> simp [clientWeight, isClient, hd]
  | RemoveClientWithClient client =>
      cases client with
      | none => exact h
      | some c => exact @Held.exec gst s h (.client c)

theorem held (gst : Gst) (cs : List Call) :
    Held (stateAfter gst cs).clientInfos (stateAfter gst cs).calls :=
  stateAfter_invariant (P := fun s => Held s.clientInfos s.calls) (fun _ => rfl)
    (fun _ c h => h.exec_call c) cs

theorem Held.closed (h : Held s.clientInfos s.calls) (c : GstRTSPClient) :
    net (clientWeight c) (closed_callback c s).calls = 0 := by
  have hnone : ((closed_callback c s).clientInfos).countP (isClient c) = 0 := by
    rw [closed_callback, RemoveClientWithClient_some, List.countP_eq_zero]
    intro info hinfo
    simpa [isClient] using (List.mem_filter.mp hinfo).2
  have hheld : Held (closed_callback c s).clientInfos (closed_callback c s).calls :=
    @Held.exec default s h (.client c)
  rw [hheld c, hnone]
  rfl

/-! ## Connections -/

/-- The connection that the loop closes for a record. -/
def usesConnection (gst : Gst) (conn : GstRTSPConnection) (info : ClientInfo) : Bool :=
  info.client.bind gst.get_connection == some conn

theorem connectionWeight_nonpos (conn : GstRTSPConnection) (c : GstCall) :
    connectionWeight conn c ≤ 0 := by
  cases c with
  | connection_unref d => by_cases h : d = conn <;> simp [connectionWeight, h]
  | _ => exact Int.le_refl 0

theorem net_connection_release (conn : GstRTSPConnection) (info : ClientInfo) :
    net (connectionWeight conn) info.release = 0 := by
  unfold ClientInfo.release
  cases info.client <;> rfl

theorem net_connection_closeConnection (conn : GstRTSPConnection) (info : ClientInfo) :
    net (connectionWeight conn) (closeConnection gst info) =
      if usesConnection gst conn info then -1 else 0 := by
  unfold closeConnection usesConnection
  cases info.client.bind gst.get_connection with
  | none => rfl
  | some d => by_cases h : d = conn <;> simp [connectionWeight, h]

theorem purged_connection (conn : GstRTSPConnection) :
    net (connectionWeight conn) (s.purged gst id).calls = net (connectionWeight conn) s.calls -
      ((s.clientInfos.filter (matchesId id)).countP (usesConnection gst conn) : Int) := by
  have hone : ∀ info, net (connectionWeight conn) (closeConnection gst info ++ info.release) =
      if usesConnection gst conn info then -1 else 0 := by
    intro info
    rw [net_append, net_connection_closeConnection, net_connection_release, Int.add_zero]
  rw [TranscodingService.purged, net_append, net_flatMap _ hone]
  rfl

/-! ## Mount points -/

/-- A call that no exception meets; `mounts` says whether the server returns its mount points or
null. -/
inductive StreamCall
  | AddRtsp (mounts : Bool) (now id uri : Str)
  | RemoveRtsp (mounts : Bool) (now id : Str)
  deriving DecidableEq

def Env.answering (mounts : Bool) (now : Str) : Env := { Env.calm now with mounts := mounts }

def StreamCall.exec (gst : Gst) (s : TranscodingService) : StreamCall → TranscodingService
  | .AddRtsp mounts now id uri =>
    (TranscodingServer.AddRtsp gst (Env.answering mounts now) id uri s).2
  | .RemoveRtsp mounts now id =>
    (TranscodingServer.RemoveRtsp gst (Env.answering mounts now) id s).2

def streamAfter (gst : Gst) (cs : List StreamCall) : TranscodingService :=
  cs.foldl (StreamCall.exec gst) {}

/-- A removal that gets the mount points is for a registered stream. -/
def FindsStream (s : TranscodingService) : StreamCall → Prop
  | .RemoveRtsp true _ id => id ∈ s.uriPartsMap
  | _ => True

/-- Without mount points the preparation ends before it has done anything. -/
theorem exec_prepare_no_mounts (uri : Str) :
    exec (AddRtsp.prepare gst (Env.answering false now) id uri) s = (.ok none, s) ∨
      ∃ e, exec (AddRtsp.prepare gst (Env.answering false now) id uri) s = (.error e, s) := by
  have hpoint : ∀ pt, (Env.answering false now).point pt = pure ⟨⟩ := fun _ => rfl
  have hmounts : (Env.answering false now).mounts = false := rfl
  have hcheck : checkUri gst (Env.answering false now) uri = pure (isValidUri gst uri) := by
    cases hv : isValidUri gst uri <;> simp [checkUri, hpoint, hv]
  by_cases hv : isValidUri gst uri = true
  · by_cases hs : hasSlashes uri
    · left
      obtain ⟨parts, hp, _⟩ := @parseUri_ok {} id uri hs
      simp [AddRtsp.prepare, exec_bind, exec_map, hpoint, hcheck, hmounts, hv, hp]
    · right
      exact ⟨_, by simp [AddRtsp.prepare, exec_bind, hpoint, hcheck, hv, parseUri_throws hs]; rfl⟩
  · left
    simp [AddRtsp.prepare, hpoint, hcheck, hv]

theorem AddRtsp_no_mounts (uri : Str) :
    AddRtsp gst (Env.answering false now) id uri s = (none, s) := by
  rw [AddRtsp, catchAll, AddRtsp.body, exec_bind]
  rcases exec_prepare_no_mounts uri with hnone | ⟨e, herr⟩
  · rw [hnone]; rfl
  · rw [herr]

theorem RemoveRtsp_no_mounts : RemoveRtsp gst (Env.answering false now) id s = (false, s) := rfl

theorem net_mounts_removals (l : List ClientInfo) :
    net mountsWeight (l.flatMap fun info => closeConnection gst info ++ info.release) = 0 := by
  refine net_flatMap_eq_zero l fun info => ?_
  rw [net_append, closeConnection, ClientInfo.release]
  cases info.client.bind gst.get_connection <;> cases info.client <;> rfl

/-- A call that finds its stream gives back what it got. -/
theorem net_mounts_found {c : StreamCall} (h : FindsStream s c) :
    net mountsWeight (c.exec gst s).calls = net mountsWeight s.calls := by
  cases c with
  | AddRtsp mounts now id uri =>
      cases mounts with
      | false => rw [StreamCall.exec, AddRtsp_no_mounts]
      | true =>
          change net mountsWeight (AddRtsp gst (Env.calm now) id uri s).2.calls = _
          rcases AddRtsp_cases gst s now id uri with ⟨parts, _, _, hadd⟩ | ⟨_, hadd⟩
          · rw [hadd]
            exact net_append_of_zero _ rfl
          · rw [hadd]
  | RemoveRtsp mounts now id =>
      cases mounts with
      | false => rw [StreamCall.exec, RemoveRtsp_no_mounts]
      | true =>
          obtain ⟨e, he⟩ := (OrdMap.mem_iff _ _).mp h
          change net mountsWeight (RemoveRtsp gst (Env.calm now) id s).2.calls = _
          rw [RemoveRtsp_known he, removed_calls]
          simp [net_mounts_removals, mountsWeight]

/-- A removal that does not find its stream keeps its reference. -/
theorem net_mounts_not_found {c : StreamCall} (h : ¬FindsStream s c) :
    net mountsWeight (c.exec gst s).calls = net mountsWeight s.calls + 1 := by
  cases c with
  | AddRtsp mounts now id uri => exact absurd trivial h
  | RemoveRtsp mounts now id =>
      cases mounts with
      | false => exact absurd trivial h
      | true =>
          change net mountsWeight (RemoveRtsp gst (Env.calm now) id s).2.calls = _
          rw [RemoveRtsp_unknown h, net_append]
          rfl

end TranscodingServer
