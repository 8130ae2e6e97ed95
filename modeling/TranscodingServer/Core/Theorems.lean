import TranscodingServer.Core.Catalogue
import TranscodingServer.Core.Lemmas.Clients
import TranscodingServer.Core.Lemmas.Faults
import TranscodingServer.Core.Lemmas.Inverse
import TranscodingServer.Core.Lemmas.Launch
import TranscodingServer.Core.Lemmas.Mounts
import TranscodingServer.Core.Lemmas.References

/-!
# What holds of the service

The lemmas are in `Lemmas/`; the catalogue that the tables stand for is in `Catalogue.lean`.
-/

namespace TranscodingServer

open Lts Balance

/-! ## The tables -/

/-- The results and tables of every sequence of calls are those of a partial injective map from ids
to urls. -/
theorem catalogue_refinement (gst : Gst) (cs : List Call) :
    ∃ M, Matched (serviceLts gst) (catalogueLts (isValidUri gst)) Agrees {} ⊥
      (Call.execAll gst cs {}).1 (stateAfter gst cs) M :=
  (catalogue_simulation gst).matched .empty (execAll_run cs {})

/-- The factories agree with the streams all along a sequence of calls exactly when no url with a NUL
byte is accepted. -/
theorem mediaFactories_agree_iff (gst : Gst) (cs : List Call) :
    (∀ pre, pre <+: cs → FactoriesAgree gst pre) ↔
      ∀ pre c, pre ++ [c] <+: cs → ∀ now id uri, c = .AddRtsp now id uri →
        Accepts gst (stateAfter gst pre) id uri → 0 ∉ uri := by
  refine forall_prefix_iff (I := fun cs => WholeUrls (stateAfter gst cs)) (fun _ h => h.agree)
    ?_ ?_ ?_ cs
  · intro id e he
    simp [stateAfter, Call.execAll] at he
  · intro pre c h hsafe
    rw [stateAfter_snoc]
    exact h.exec hsafe
  · intro pre c _ hspoil hagree
    refine hspoil fun now id uri hc ha => ?_
    obtain ⟨parts, hp, hadd⟩ := @AddRtsp_accepted gst _ now id uri ha
    have hwhole := hagree.wholeUrls id (parts.readyAt now)
    rw [stateAfter_snoc, hc, Call.exec, hadd, added_uriPartsMap, if_pos rfl,
      readyAt_full_path hp] at hwhole
    exact hwhole rfl

/-- A url with a NUL byte: the launch descriptions of its four factories end there. -/
theorem mediaFactories_cut :
    ¬FactoriesAgree Gst.sequence
      [.AddRtsp (str "") (str "cam") (str "rtsp://10.0.0.1/live" ++ [0])] := by
  intro h
  have hcam : str "cam" ∈ (stateAfter Gst.sequence
      [.AddRtsp (str "") (str "cam") (str "rtsp://10.0.0.1/live" ++ [0])]).uriPartsMap := by
    decide +kernel
  obtain ⟨e, he⟩ := (OrdMap.mem_iff _ _).mp hcam
  have hurl : ∀ e ∈ (stateAfter Gst.sequence
      [.AddRtsp (str "") (str "cam") (str "rtsp://10.0.0.1/live" ++ [0])]).uriPartsMap[str "cam"]?,
      0 ∈ e.full_path := by
    decide +kernel
  exact h.wholeUrls _ e he (hurl e he)

/-! ## The launch descriptions -/

/-- The launch descriptions of an accepted url hold the tokens of their profiles exactly when the
url has no NUL byte, no whitespace and no open quotation. -/
theorem launch_injection_free_iff (gst : Gst) (now : Str) (s : TranscodingService) (id uri : Str) :
    InjectionFree gst now s id uri ↔ (Accepts gst s id uri → PlainUri uri) := by
  unfold InjectionFree
  rw [AddRtsp_isSome_iff]
  refine imp_congr_right fun ha => ?_
  obtain ⟨parts, _, hadd⟩ := @AddRtsp_accepted gst s now id uri ha
  simp only [hadd, added_factory, Option.some.injEq, exists_eq_left']
  constructor
  · exact fun h => plainUri_iff.mp (h .first)
  · exact fun h p => plainUri_iff.mpr h

/-- The url may go on behind the value of `location`. -/
theorem launch_injection :
    ¬InjectionFree Gst.sequence (str "") {} (str "cam")
      (str "rtsp://10.0.0.1/live ! filesink location=/tmp/recording") := by
  intro h
  obtain ⟨f, hf, hwords, _⟩ := h (by decide +kernel) .first
  cases hf
  revert hwords
  decide +kernel

/-! ## The mount table -/

/-- The mount table agrees all along a sequence of calls exactly when no id with a NUL byte is
accepted. -/
theorem mounts_agree_iff (gst : Gst) (cs : List Call) :
    (∀ pre, pre <+: cs → MountsAgree (stateAfter gst pre)) ↔
      ∀ pre c, pre ++ [c] <+: cs → ∀ now id uri, c = .AddRtsp now id uri →
        Accepts gst (stateAfter gst pre) id uri → 0 ∉ id := by
  refine forall_prefix_iff (I := fun cs => Mounted (stateAfter gst cs))
    (fun cs h => h.agree) .empty ?_ ?_ cs
  · intro pre c h hsafe
    rw [stateAfter_snoc]
    have ho := exec_outcome gst (stateAfter gst pre) c
    generalize c.exec gst (stateAfter gst pre) = r at ho ⊢
    cases ho with
    | accepted now id uri parts ha hp => exact h.added ha hp (hsafe now id uri rfl ha)
    | refused now id uri _ => exact h
    | known now id e he => exact h.removed he
    | unknown now id t _ hs => exact h.same hs
    | connect client id uri t hs => exact h.same hs
    | disconnect client t hs => exact h.same hs
  · intro pre c _ hspoil hagree
    refine hspoil fun now id uri hc ha => ?_
    refine hagree.ids id ?_
    rw [stateAfter_snoc, hc]
    exact mem_uriPartsMap_AddRtsp.mpr (.inl ⟨ha, rfl⟩)

/-- An id with a NUL byte: its four factories share one path. -/
theorem mounts_disagree :
    ¬MountsAgree (stateAfter Gst.sequence
      [.AddRtsp (str "") (str "a" ++ [0] ++ str "b") (str "rtsp://10.0.0.1/live")]) := by
  intro h
  exact absurd h.once (by decide +kernel)

/-! ## Additions and removals undo each other -/

/-- From every reachable state without NUL bytes in its ids: the removal of an added stream restores
the tables, the addition of a removed one restores them but for its time and its factories. -/
theorem add_remove_inverse (gst : Gst) (cs : List Call)
    (hids : ∀ id ∈ (stateAfter gst cs).uriPartsMap, 0 ∉ id) (now now' id : Str) :
    (∀ uri, 0 ∉ id →
      (AddRtsp gst (Env.calm now) id uri (stateAfter gst cs)).1.isSome = true →
      (RemoveRtsp gst (Env.calm now') id
        (AddRtsp gst (Env.calm now) id uri (stateAfter gst cs)).2).1 = true ∧
      Restored (stateAfter gst cs) (RemoveRtsp gst (Env.calm now') id
        (AddRtsp gst (Env.calm now) id uri (stateAfter gst cs)).2).2) ∧
    ∀ e, (stateAfter gst cs).uriPartsMap[id]? = some e →
      (RemoveRtsp gst (Env.calm now) id (stateAfter gst cs)).1 = true ∧
      (AddRtsp gst (Env.calm now') id e.full_path
        (RemoveRtsp gst (Env.calm now) id (stateAfter gst cs)).2).1.isSome = true ∧
      Readded (stateAfter gst cs) id e now' (AddRtsp gst (Env.calm now') id e.full_path
        (RemoveRtsp gst (Env.calm now) id (stateAfter gst cs)).2).2 := by
  have h := separate gst cs hids
  constructor
  · intro uri hnul hadd
    have ha := AddRtsp_isSome_iff.mp hadd
    obtain ⟨parts, hp, heq⟩ := @AddRtsp_accepted gst _ now id uri ha
    have he : ((stateAfter gst cs).added gst id uri (parts.readyAt now)).uriPartsMap[id]? =
        some (parts.readyAt now) := by
      rw [added_uriPartsMap, if_pos rfl]
    rw [heq, RemoveRtsp_known he]
    exact ⟨rfl, h.restored ha hp hnul⟩
  · intro e he
    have ha := accepts_removed cs he
    obtain ⟨parts, hp, heq⟩ := @AddRtsp_accepted gst _ now' id e.full_path ha
    rw [RemoveRtsp_known he, heq]
    exact ⟨rfl, rfl, h.readded he ha hp⟩

def twoCams : List Call :=
  [.AddRtsp (str "") (str "cam1") (str "rtsp://10.0.0.1/live"),
    .AddRtsp (str "") (str "cam2") (str "rtsp://10.0.0.2/live")]

/-- Beside two cameras, a third one is added and removed, and the first one removed and added. -/
theorem add_remove_inverse_cams :
    Restored (stateAfter Gst.sequence twoCams)
      (RemoveRtsp Gst.sequence (Env.calm (str "")) (str "cam3")
        (AddRtsp Gst.sequence (Env.calm (str "")) (str "cam3") (str "rtsp://10.0.0.3/live")
          (stateAfter Gst.sequence twoCams)).2).2 ∧
    ∃ e, Readded (stateAfter Gst.sequence twoCams) (str "cam1") e (str "")
      (AddRtsp Gst.sequence (Env.calm (str "")) (str "cam1") e.full_path
        (RemoveRtsp Gst.sequence (Env.calm (str "")) (str "cam1")
          (stateAfter Gst.sequence twoCams)).2).2 := by
  have hids : ∀ id ∈ (stateAfter Gst.sequence twoCams).uriPartsMap, 0 ∉ id := by
    have hkeys : ∀ id ∈ (stateAfter Gst.sequence twoCams).uriPartsMap.keys, 0 ∉ id := by
      decide +kernel
    exact fun id hid => hkeys id (Std.ExtTreeMap.mem_keys.mpr hid)
  have hcam1 : str "cam1" ∈ (stateAfter Gst.sequence twoCams).uriPartsMap := by decide +kernel
  obtain ⟨e, he⟩ := (OrdMap.mem_iff _ _).mp hcam1
  have hadd := (add_remove_inverse Gst.sequence twoCams hids (str "") (str "") (str "cam3")).1
    (str "rtsp://10.0.0.3/live") (by decide) (by decide +kernel)
  have hremove := (add_remove_inverse Gst.sequence twoCams hids (str "") (str "") (str "cam1")).2 e he
  exact ⟨hadd.2, e, hremove.2.2⟩

/-! ## Clients -/

/-- A removal spares the clients of the other streams exactly when none of them has `"/" + id` in
its path. -/
theorem RemoveRtsp_spares_others_iff (gst : Gst) (now : Str) (s : TranscodingService) (id : Str) :
    SparesOthers gst now s id ↔ (id ∈ s.uriPartsMap → ∀ b ∈ s.uriPartsMap, b ≠ id →
      ∀ info ∈ s.clientInfos, ClientOfOther id b info → ¬str "/" ++ id <:+: info.uri) := by
  unfold SparesOthers
  rw [RemoveRtsp_true_iff]
  refine imp_congr_right fun hid => forall_congr' fun b => ?_
  refine imp_congr_right fun hb => imp_congr_right fun hne => ?_
  obtain ⟨e, he⟩ := (OrdMap.mem_iff _ _).mp hid
  rw [RemoveRtsp_known he, removed_clientInfos, filter_filter_eq_iff]
  have hmatch : ∀ info : ClientInfo, (!matchesId id info) = true ↔ ¬str "/" ++ id <:+: info.uri := by
    intro info
    rw [Bool.not_eq_true', Bool.eq_false_iff, ne_eq, matchesId_iff]
  simp only [decide_eq_true_eq, hmatch, removed_calls, List.append_assoc]
  constructor
  · exact fun h => h.1
  · intro h
    refine ⟨h, _, rfl, fun info conn hmem hother => ?_⟩
    simp only [List.cons_append, List.nil_append, List.mem_cons, reduceCtorEq, List.mem_append,
      List.not_mem_nil, or_false, false_or] at hmem
    obtain ⟨hinfo, hid'⟩ := of_connection_close hmem
    exact h info hinfo hother (matchesId_iff.mp hid')

/-- Removing `cam1` disconnects the client of `cam12`. -/
theorem RemoveRtsp_disconnects_other :
    ¬SparesOthers Gst.sequence (str "") (stateAfter Gst.sequence
      [.AddRtsp (str "") (str "cam1") (str "rtsp://10.0.0.1/live"),
        .AddRtsp (str "") (str "cam12") (str "rtsp://10.0.0.2/live"),
        .AddClientInfo (some 7) (str "5F21") (str "/cam12/first/stream=0")]) (str "cam1") := by
  intro h
  have hkept := (h (by decide +kernel) (str "cam12") (by decide +kernel) (by decide)).1
  revert hkept
  decide +kernel

/-- Removals leave the records that match none of them, in any order of the calls; each removed record
releases its reference once, and the service holds one reference for each record all the time. -/
theorem client_removal_exact (gst : Gst) :
    (∀ (s : TranscodingService) (rs : List Removal),
      (rs.foldl (Removal.exec gst) s).clientInfos =
          s.clientInfos.filter (fun info => !rs.any (·.selects info)) ∧
        ∀ c, (rs.foldl (Removal.exec gst) s).calls.count (.client_unref c) =
            s.calls.count (.client_unref c) +
              (s.clientInfos.filter fun info => rs.any (·.selects info)).countP (isClient c) ∧
          (rs.foldl (Removal.exec gst) s).calls.count (.client_ref c) =
            s.calls.count (.client_ref c)) ∧
    (∀ (s : TranscodingService) (rs rs' : List Removal), rs.Perm rs' →
      (rs.foldl (Removal.exec gst) s).clientInfos = (rs'.foldl (Removal.exec gst) s).clientInfos) ∧
    (∀ cs, Held (stateAfter gst cs).clientInfos (stateAfter gst cs).calls) ∧
    (∀ (s : TranscodingService) (r : Removal), Held s.clientInfos s.calls →
      r.moment gst s.clientInfos.length s = ⟨(r.exec gst s).clientInfos, [], (r.exec gst s).calls⟩ ∧
      ∀ n, Held ((r.moment gst n s).before ++ (r.moment gst n s).rest) (r.moment gst n s).calls) ∧
    ∀ cs c, net (clientWeight c) (closed_callback c (stateAfter gst cs)).calls = 0 := by
  refine ⟨fun s rs => ⟨removals_clientInfos rs s, removals_count rs s⟩, ?_, held gst, ?_, ?_⟩
  · intro s rs rs' hperm
    rw [removals_clientInfos, removals_clientInfos]
    refine List.filter_congr fun info _ => ?_
    rw [hperm.any_eq]
  · exact fun s r h => ⟨r.last_moment s, h.moment r⟩
  · exact fun cs c => (held gst cs).closed c

/-! ## The mount points of the server -/

/-- The references on the mount points are balanced all along a sequence of calls exactly when every
removal that gets them finds its stream. -/
theorem mounts_balanced_iff (gst : Gst) (cs : List StreamCall) :
    (∀ pre, pre <+: cs → net mountsWeight (streamAfter gst pre).calls = 0) ↔
      ∀ pre c, pre ++ [c] <+: cs → FindsStream (streamAfter gst pre) c := by
  have hsnoc : ∀ pre c, streamAfter gst (pre ++ [c]) = c.exec gst (streamAfter gst pre) := by
    intro pre c
    simp [streamAfter]
  refine forall_prefix_iff (I := fun cs => net mountsWeight (streamAfter gst cs).calls = 0)
    (fun _ h => h) rfl ?_ ?_ cs
  · intro pre c h hfinds
    rw [hsnoc, net_mounts_found hfinds, h]
  · intro pre c h hfinds
    rw [hsnoc, net_mounts_not_found hfinds, h]
    decide

/-- The removal of an id that is not registered. -/
theorem mounts_leaked :
    ¬∀ pre, pre <+: [.RemoveRtsp true (str "") (str "cam")] →
      net mountsWeight (streamAfter Gst.sequence pre).calls = 0 := by
  intro h
  have hzero := h _ (List.prefix_refl _)
  revert hzero
  decide +kernel

/-! ## Failures -/

/-- A call that fails leaves the tables as they are exactly when it does not throw behind its first
update. -/
theorem failures_leave_no_trace_iff (gst : Gst) (env : Env) (s : TranscodingService)
    (id uri : Str) :
    (((AddRtsp gst env id uri s).1 = none → (AddRtsp gst env id uri s).2.toTables = s.toTables) ↔
      ¬(Commits gst env s id uri ∧ ∃ pt ∈ Point.late, env.raises pt = true)) ∧
    (((RemoveRtsp gst env id s).1 = false → (RemoveRtsp gst env id s).2.toTables = s.toTables) ↔
      ¬(Removes env s id ∧
        (env.raises .getCurrentTime = true ∨ env.raises .printRemoved = true))) :=
  ⟨AddRtsp_unchanged_iff, RemoveRtsp_unchanged_iff⟩

/-- The allocation of the node of `uriPartsMap` fails: four factories stay mounted. -/
theorem failure_leaves_trace :
    ¬((AddRtsp Gst.sequence { Env.calm (str "") with raises := (· == .uriPartsNode) } (str "cam")
        (str "rtsp://10.0.0.1/live") {}).1 = none →
      (AddRtsp Gst.sequence { Env.calm (str "") with raises := (· == .uriPartsNode) } (str "cam")
        (str "rtsp://10.0.0.1/live") {}).2.toTables = ({} : TranscodingService).toTables) := by
  decide +kernel

end TranscodingServer
