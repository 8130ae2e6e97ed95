import TranscodingServer.Core.Lemmas.Faults
import TranscodingServer.Core.Statements

/-!
# The statements of a method do what its call does
-/

namespace TranscodingServer

open Text Throwing Locking

variable {gst : Gst} {env : Env} {s : TranscodingService} {id uri : Str}

/-- A method whose body starts with its lock. -/
theorem serves_locked {α : Type} {pt : Point} {c : Stepwise.Stmts α} {m : Svc α}
    (h : Implements c m) (a : α) :
    Serves (Stepwise.locked env pt c a) (catchAll (env.point pt >>= fun _ => m) a) := by
  refine (h.serves Exn.bad_alloc a).congr fun s => ?_
  rw [Env.point]
  by_cases hp : env.raises pt = true
  · rw [if_pos hp, if_pos hp]
    rfl
  · rw [if_neg hp, if_neg hp]
    rfl

/-! ## `AddRtsp` -/

theorem implements_mountFactory (mount : Str) (p : Profile) (factory : GstRTSPMediaFactory) :
    Implements (Stepwise.mountFactory gst env mount p factory) (mountFactory gst env mount p factory) :=
  (Implements.statement _).bind fun _ => (Implements.statement _).bind fun _ => .statement _

theorem implements_storeUriParts (uriParts : UriParts) :
    Implements (Stepwise.storeUriParts env id uriParts) (storeUriParts env id uriParts) :=
  (Implements.statement _).bind fun _ => (Implements.statement _).bind fun _ =>
    .forM (fun _ => .statement _) _

theorem implements_commit (uriParts : UriParts) (factory : Profile → GstRTSPMediaFactory) :
    Implements (Stepwise.AddRtsp.commit gst env id uriParts factory)
      (AddRtsp.commit gst env id uriParts factory) := by
  refine (Implements.forM (fun p => implements_mountFactory _ _ _) _).bind fun _ => ?_
  refine (Implements.statement _).bind fun _ => (Implements.statement _).bind fun _ => ?_
  exact (implements_storeUriParts _).bind fun _ => (Implements.statement _).bind fun _ => .pure _

/-- A value that the state determines, read inside the section. -/
def reading {α : Type} (f : TranscodingService → α) : Svc α := f <$> get

@[simp] theorem exec_reading {α : Type} (f : TranscodingService → α) (s : TranscodingService) :
    exec (reading f) s = (.ok (f s), s) := by
  rw [reading, exec_map, exec_get]

theorem implements_read {α : Type} (f : TranscodingService → α) :
    Implements (lift (read f)) (reading f) :=
  .lift (.read f) fun s => by rw [exec_reading]

theorem implements_urlExists : Implements (lift (Stepwise.urlExists uri))
    (reading fun s => s.uriPartsMap.toList.any (·.2.full_path == uri)) := by
  refine .lift (.scan false) fun s => ?_
  rw [exec_reading, scanList_any]

/-- What a `get` is taken for may be read by a statement, or by a loop of statements. -/
theorem implements_get_bind {α β : Type} {c : Stepwise.Stmts α} {f : TranscodingService → α}
    {k : α → Stepwise.Stmts β} {m : TranscodingService → Svc β} (hc : Implements c (reading f))
    (hk : ∀ a, ∃ g, Implements (k a) g ∧ ∀ s, f s = a → exec g s = exec (m s) s) :
    Implements (c >>= k) (get >>= m) := by
  choose g hg hexec using hk
  refine (hc.bind hg).congr fun s => ?_
  exact (exec_bind_ok (exec_reading f s)).trans (hexec _ s rfl)

/-- `AddRtsp.prepare` behind its lock. -/
theorem implements_prepare : ∃ m, Implements (Stepwise.AddRtsp.prepare gst env id uri) m ∧
    AddRtsp.prepare gst env id uri = (env.point .lock >>= fun _ => m) := by
  refine ⟨_, (Implements.statement _).bind fun valid => .ite (.pure _) <|
    (Implements.statement _).bind fun _ => (Implements.statement _).bind fun _ =>
    (Implements.statement _).bind fun uriParts =>
    implements_get_bind implements_urlExists fun found => ?_, rfl⟩
  cases found with
  | true =>
      refine ⟨_, .pure _, fun s hs => ?_⟩
      simp only [hs, ↓reduceIte]
  | false =>
      refine ⟨_, (implements_read _).bind fun known => .ite (.pure _) <| .ite (.pure _) <|
        (Implements.statement _).bind fun _ => (Implements.statement _).bind fun _ =>
        (Implements.statement _).bind fun _ => (Implements.statement _).bind fun _ =>
        (Implements.statement _).bind fun _ => (Implements.statement _).bind fun _ =>
        (Implements.forM (fun _ => .statement _) _).bind fun _ => .pure _, fun s hs => ?_⟩
      simp only [hs, Bool.false_eq_true, ↓reduceIte]
      exact exec_bind_ok (exec_reading _ s)

theorem serves_AddRtsp : Serves (Stepwise.AddRtsp gst env id uri) (AddRtsp gst env id uri) := by
  obtain ⟨m, hm, hprepare⟩ := @implements_prepare gst env id uri
  rw [AddRtsp, AddRtsp.body, hprepare, bind_assoc]
  refine serves_locked (hm.bind fun r => ?_) none
  cases r with
  | none => exact .pure _
  | some r => exact (implements_commit _ _).bind fun _ => .pure _

/-! ## Clients -/

theorem serves_AddClientInfo (client : Option GstRTSPClient) :
    Serves (Stepwise.AddClientInfo client id uri) fun s => (⟨⟩, AddClientInfo client id uri s) :=
  ((Performs.write _).bind fun _ => .write _).guard

theorem performs_calls (calls : List GstCall) :
    Performs (calls.forM fun c => write fun s : TranscodingService => { s with calls := s.calls ++ [c] })
      fun s => (⟨⟩, { s with calls := s.calls ++ calls }) := by
  induction calls with
  | nil => exact (Performs.done _).congr fun s => by rw [List.append_nil]
  | cons c calls ih =>
      refine ((Performs.write _).bind fun _ => ih).congr fun s => ?_
      rw [List.append_assoc]
      rfl

section Erase

variable {p : ClientInfo → Bool} {close : ClientInfo → List GstCall}

/-- The loop from the position behind `pre` on. -/
theorem run_eraseFrom (fuel : Nat) (pre rest : List ClientInfo) (s : TranscodingService)
    (hs : s.clientInfos = pre ++ rest) (hfuel : rest.length ≤ fuel) :
    (Stepwise.eraseFrom p close fuel pre.length).run s =
      (⟨⟩, { s with
        clientInfos := pre ++ (eraseLoop p close rest).1
        calls := s.calls ++ (eraseLoop p close rest).2 }) := by
  induction fuel generalizing pre rest s with
  | zero =>
      have hrest : rest = [] := List.length_eq_zero_iff.mp (by omega)
      subst hrest
      simp only [eraseLoop, List.append_nil, ← hs]
      rfl
  | succ fuel ih =>
      cases rest with
      | nil =>
          have hget : s.clientInfos[pre.length]? = none := by simp [hs]
          simp only [Stepwise.eraseFrom, Code.run, id, hget, eraseLoop, List.append_nil, ← hs]
      | cons info rest =>
          have hget : s.clientInfos[pre.length]? = some info := by simp [hs]
          have hlen : rest.length ≤ fuel := by simpa using hfuel
          simp only [Stepwise.eraseFrom, Code.run, id, hget]
          by_cases hp : p info = true
          · have hloop : eraseLoop p close (info :: rest) = ((eraseLoop p close rest).1,
                close info ++ info.release ++ (eraseLoop p close rest).2) := by
              simp [eraseLoop, hp]
            have herase : (pre ++ info :: rest).eraseIdx pre.length = pre ++ rest := by
              rw [List.eraseIdx_append_of_length_le (Nat.le_refl _)]
              simp
            have hnext := ih pre rest { s with
              clientInfos := (pre ++ info :: rest).eraseIdx pre.length
              calls := s.calls ++ close info ++ info.release } herase hlen
            rw [if_pos hp, hloop]
            refine (Code.run_bind _ _ s).trans ?_
            rw [(performs_calls (close info)).run s]
            refine (Code.run_bind _ _ _).trans ?_
            simp only [(Performs.write _).run, hs]
            simpa using hnext
          · have hloop : eraseLoop p close (info :: rest) =
                (info :: (eraseLoop p close rest).1, (eraseLoop p close rest).2) := by
              simp [eraseLoop, hp]
            have hnext := ih (pre ++ [info]) rest s (by simp [hs]) hlen
            rw [List.length_append, List.length_singleton] at hnext
            rw [if_neg hp, hnext, hloop, List.append_assoc]
            rfl

theorem inside_eraseFrom (fuel i : Nat) : Inside (Stepwise.eraseFrom p close fuel i) := by
  induction fuel generalizing i with
  | zero => exact .done _
  | succ fuel ih =>
      refine .act fun s => ?_
      cases s.clientInfos[i]? with
      | none => exact .done _
      | some info =>
          dsimp only
          split
          · exact (performs_calls _).inside.bind fun _ => (Performs.write _).inside.bind fun _ => ih i
          · exact ih (i + 1)

theorem performs_eraseClients : Performs (Stepwise.eraseClients p close) fun s =>
    (⟨⟩, if s.clientInfos.isEmpty then s else { s with
      clientInfos := (eraseLoop p close s.clientInfos).1
      calls := s.calls ++ (eraseLoop p close s.clientInfos).2 }) where
  run s := by
    simp only [Stepwise.eraseClients, Code.run, id]
    split
    · rfl
    · exact run_eraseFrom s.clientInfos.length [] s.clientInfos s rfl (Nat.le_refl _)
  inside := by
    refine .act fun s => ?_
    split
    · exact .done _
    · exact inside_eraseFrom _ _

end Erase

theorem serves_RemoveClientWithClient (client : Option GstRTSPClient) :
    Serves (Stepwise.RemoveClientWithClient client) fun s => (⟨⟩, RemoveClientWithClient client s) := by
  cases client with
  | none => exact (Performs.done _).guard
  | some c => exact performs_eraseClients.guard

theorem serves_RemoveClientWithId :
    Serves (Stepwise.RemoveClientWithId gst env id) fun s => (⟨⟩, RemoveClientWithId gst env id s) := by
  have hbody : Implements (do
      statement (env.point .mountPath)
      lift (Stepwise.eraseClients (matchesId id) (closeConnection gst))) (do
      env.point .mountPath
      modify _) :=
    (Implements.statement _).bind fun _ => .lift performs_eraseClients fun _ => rfl
  exact (serves_locked hbody ⟨⟩).congr fun s => rfl

/-! ## `RemoveRtsp` -/

theorem performs_removeFactory (mount : Str) :
    Performs (Stepwise.removeFactory gst mount) fun s => (⟨⟩, removeFactory gst s mount) where
  run s := by
    simp only [Stepwise.removeFactory, removeFactory, Code.run, id]
    split <;> rfl
  inside := by
    refine .act fun s => ?_
    split
    · exact (Performs.write _).inside.bind fun _ => (Performs.write _).inside
    · exact .done _

theorem exec_forM_modify {ι : Type} (f : ι → TranscodingService → TranscodingService) (l : List ι)
    (s : TranscodingService) :
    exec (l.forM fun i => modify (f i) : Svc PUnit) s = (.ok ⟨⟩, l.foldl (fun s i => f i s) s) := by
  induction l generalizing s with
  | nil => rfl
  | cons i l ih =>
      rw [List.forM_eq_forM, List.forM_cons]
      exact ih (f i s)

theorem implements_modify {c : Code TranscodingService PUnit}
    {f : TranscodingService → TranscodingService} (h : Performs c fun s => (⟨⟩, f s)) :
    Implements (lift c) (modify f : Svc PUnit) :=
  .lift h fun _ => rfl

theorem serves_RemoveRtsp : Serves (Stepwise.RemoveRtsp gst env id) (RemoveRtsp gst env id) := by
  refine serves_locked (.ite (.pure _) <| (Implements.statement _).bind fun _ =>
    implements_get_bind (implements_read _) fun found => ?_) false
  cases found with
  | none =>
      refine ⟨_, .pure _, fun s hs => ?_⟩
      simp only [hs]
  | some uriParts =>
      have hfactories : Implements
          (Profile.all.forM fun p => lift (Stepwise.removeFactory gst (uriParts.mount_points.get p)))
          (modify fun s => Profile.all.foldl
            (fun s p => removeFactory gst s (uriParts.mount_points.get p)) s : Svc PUnit) :=
        (Implements.forM (fun _ => implements_modify (performs_removeFactory _)) _).congr
          fun s => exec_forM_modify _ Profile.all s
      refine ⟨_, (implements_modify serves_RemoveClientWithId.toPerforms).bind fun _ =>
        hfactories.bind fun _ =>
        (implements_modify (.write _)).bind fun _ => (Implements.statement _).bind fun _ =>
        (Implements.statement _).bind fun _ => (Implements.statement _).bind fun _ => .pure _,
        fun s hs => ?_⟩
      simp only [hs]

/-! ## Reports -/

theorem serves_GetMedias : Serves Stepwise.GetMedias fun s => (GetMedias s, s) := by
  refine Performs.guard (((Performs.read _).bind fun count => (Performs.scan []).bind fun list =>
    .done _).congr fun s => ?_)
  rw [scanList_map, List.nil_append, GetMedias]

theorem serves_GetClientSessions :
    Serves Stepwise.GetClientSessions fun s => (GetClientSessions s, s) := by
  refine Performs.guard (((Performs.read _).bind fun count => (Performs.scan []).bind fun list =>
    .done _).congr fun s => ?_)
  rw [scanList_map, List.nil_append, GetClientSessions]

/-! ## The callbacks, and all methods -/

theorem serves_section_only : Serves Stepwise.section_only fun s => (⟨⟩, s) := (Performs.done _).guard

theorem serves_setup_request_callback (client : GstRTSPClient) (session abspath : Option Str) :
    Serves (Stepwise.setup_request_callback client session abspath) fun s =>
      (⟨⟩, setup_request_callback client session abspath s) := by
  cases abspath with
  | none => exact (Performs.done _).guard
  | some path => exact (serves_AddClientInfo _).toPerforms.guard

theorem serves_closed_callback (client : GstRTSPClient) :
    Serves (Stepwise.closed_callback client) fun s => (⟨⟩, closed_callback client s) :=
  (serves_RemoveClientWithClient _).toPerforms.guard

/-- Every method stays inside its section, and does there what its call does in one step. -/
theorem serves_statements (m : Method) : Serves (m.statements gst) (m.exec gst) := by
  cases m with
  | AddRtsp env id uri => exact serves_AddRtsp.map Answer.uriParts
  | RemoveRtsp env id => exact serves_RemoveRtsp.map Answer.bool
  | GetMedias => exact serves_GetMedias.map Answer.medias
  | GetClientSessions => exact serves_GetClientSessions.map Answer.sessions
  | client_connected_callback client => exact serves_section_only.map fun _ => Answer.void
  | describe_request_callback client => exact serves_section_only.map fun _ => Answer.void
  | setup_request_callback client session abspath =>
      exact (serves_setup_request_callback client session abspath).map fun _ => Answer.void
  | teardown_request_callback client session => exact serves_section_only.map fun _ => Answer.void
  | closed_callback client => exact (serves_closed_callback client).map fun _ => Answer.void

theorem run_statements (m : Method) (s : TranscodingService) :
    (m.statements gst).run s = m.exec gst s := (serves_statements m).run s

theorem guarded_statements (m : Method) : Guarded 0 (m.statements gst) := by
  have h := (@serves_statements gst m).guarded _ fun a => a
  rwa [Code.bind_done] at h

end TranscodingServer
