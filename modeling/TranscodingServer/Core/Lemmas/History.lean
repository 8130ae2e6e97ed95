import TranscodingServer.Core.Lemmas.Invariants
import TranscodingServer.Core.Lemmas.Launch

/-!
# Where the entries come from

A call changes the entries of its own stream only, so every entry is still what its addition made
of it.
-/

namespace TranscodingServer

variable {gst : Gst} {s t : TranscodingService} {now id uri : Str} {parts e : UriParts}

def Call.stream : Call → Option Str
  | .AddRtsp _ id _ => some id
  | .RemoveRtsp _ id => some id
  | _ => none

/-- A call leaves the entries of every other stream as they are. -/
theorem exec_frame (h : Consistent s) {c : Call} (hc : c.stream ≠ some id) :
    (c.exec gst s).2.uriPartsMap[id]? = s.uriPartsMap[id]? ∧
      ∀ p, (c.exec gst s).2.mediaFactories[mountPoint id p]? =
        s.mediaFactories[mountPoint id p]? := by
  have ho := exec_outcome gst s c
  generalize c.exec gst s = r at ho ⊢
  cases ho with
  | accepted now id' uri parts ha hp =>
      have hne : id' ≠ id := fun he => hc (by rw [← he]; rfl)
      refine ⟨?_, fun p => ?_⟩
      · rw [added_uriPartsMap, if_neg hne]
      · exact added_factory_other fun q hq => hne (mountPoint_injective hq).1
  | known now id' e he =>
      have hne : id' ≠ id := fun he => hc (by rw [← he]; rfl)
      refine ⟨?_, fun p => ?_⟩
      · rw [removed_uriPartsMap, if_neg hne]
      · exact removed_factory_other (h.parsed id' e he).mount
          fun q hq => hne (mountPoint_injective hq).1
  | refused => exact ⟨rfl, fun _ => rfl⟩
  | unknown now id' t _ hs | connect client id' uri t hs | disconnect client t hs =>
      rw [hs.uriPartsMap, hs.mediaFactories]
      exact ⟨rfl, fun _ => rfl⟩

theorem exec_frame_registered (h : Consistent s) (hid : id ∈ s.uriPartsMap) {c : Call}
    (hc : ∀ now, c ≠ .RemoveRtsp now id) :
    (c.exec gst s).2.uriPartsMap[id]? = s.uriPartsMap[id]? ∧
      ∀ p, (c.exec gst s).2.mediaFactories[mountPoint id p]? =
        s.mediaFactories[mountPoint id p]? := by
  by_cases hstream : c.stream = some id
  · cases c with
    | AddRtsp now id' uri =>
        cases hstream
        have hno : ¬Accepts gst s id uri := fun ha => ha.freshId hid
        simp only [Call.exec, AddRtsp_refused hno]
        exact ⟨trivial, fun _ => trivial⟩
    | RemoveRtsp now id' =>
        cases hstream
        exact absurd rfl (hc now)
    | AddClientInfo client id' uri => cases hstream
    | RemoveClientWithClient client => cases hstream
  · exact exec_frame h hstream

structure LastAddition (gst : Gst) (cs : List Call) (id : Str) (e : UriParts)
    (pre post : List Call) (now : Str) : Prop where
  calls : cs = pre ++ .AddRtsp now id e.full_path :: post
  returned : (AddRtsp gst (Env.calm now) id e.full_path (stateAfter gst pre)).1 = some e
  kept : ∀ now', .RemoveRtsp now' id ∉ post
  factories : ∀ p, (stateAfter gst cs).mediaFactories[mountPoint id p]? =
    some (createdFactory (stateAfter gst pre) e.full_path p)

theorem LastAddition.snoc {cs pre post : List Call} (h : LastAddition gst cs id e pre post now)
    (hid : id ∈ (stateAfter gst cs).uriPartsMap) {c : Call} (hc : ∀ now, c ≠ .RemoveRtsp now id) :
    LastAddition gst (cs ++ [c]) id e pre (post ++ [c]) now where
  calls := by rw [h.calls]; simp
  returned := h.returned
  kept now' hmem := by
    rcases List.mem_append.mp hmem with hpost | hlast
    · exact h.kept now' hpost
    · exact hc now' (List.mem_singleton.mp hlast).symm
  factories p := by
    rw [stateAfter_snoc, (exec_frame_registered (consistent gst cs) hid hc).2 p]
    exact h.factories p

/-- Every entry has its addition, and its four factories are those that this addition created. -/
theorem exists_lastAddition (cs : List Call)
    (h : (stateAfter gst cs).uriPartsMap[id]? = some e) :
    ∃ pre post now, LastAddition gst cs id e pre post now := by
  -- on the last call: it keeps the entry, or it is the addition
  induction cs using List.reverseRecOn with
  | nil => simp [stateAfter, Call.execAll] at h
  | append_singleton cs c ih =>
      rw [stateAfter_snoc] at h
      by_cases hid : id ∈ (stateAfter gst cs).uriPartsMap
      · have hc : ∀ now, c ≠ .RemoveRtsp now id := by
          rintro now rfl
          obtain ⟨d, hd⟩ := (OrdMap.mem_iff _ _).mp hid
          simp [Call.exec, RemoveRtsp_known hd, removed_uriPartsMap] at h
        rw [(exec_frame_registered (consistent gst cs) hid hc).1] at h
        obtain ⟨pre, post, now, hlast⟩ := ih h
        exact ⟨pre, post ++ [c], now, hlast.snoc hid hc⟩
      · have hnone : (stateAfter gst cs).uriPartsMap[id]? = none := (OrdMap.not_mem_iff _ _).mp hid
        by_cases hstream : c.stream = some id
        · cases c with
          | AddRtsp now id' uri =>
              cases hstream
              have ha : Accepts gst (stateAfter gst cs) id uri := by
                by_contra hno
                rw [Call.exec, AddRtsp_refused hno] at h
                exact hid ((OrdMap.mem_iff _ _).mpr ⟨e, h⟩)
              obtain ⟨parts, hp, hadd⟩ := @AddRtsp_accepted gst _ now id uri ha
              simp only [Call.exec, hadd, added_uriPartsMap, ↓reduceIte, Option.some.injEq] at h
              have hfull : e.full_path = uri := h ▸ readyAt_full_path hp
              refine ⟨cs, [], now, ⟨by rw [hfull], ?_, by simp, fun p => ?_⟩⟩
              · rw [hfull, hadd, h]
              · simp only [stateAfter_snoc, Call.exec, hadd, hfull]
                exact added_factory p
          | RemoveRtsp now id' =>
              cases hstream
              rw [Call.exec, RemoveRtsp_unknown hid] at h
              exact absurd ((OrdMap.mem_iff _ _).mpr ⟨e, h⟩) hid
          | AddClientInfo client id' uri => cases hstream
          | RemoveClientWithClient client => cases hstream
        · rw [(exec_frame (consistent gst cs) hstream).1, hnone] at h
          cases h

/-! ## The factories -/

/-- `mediaFactories` holds the four factories of each registered stream, each as its addition
created it for its own url and profile, and no others. -/
structure FactoriesAgree (gst : Gst) (cs : List Call) : Prop where
  keys : ∀ k : Str, k ∈ (stateAfter gst cs).mediaFactories ↔
    ∃ id p, id ∈ (stateAfter gst cs).uriPartsMap ∧ mountPoint id p = k
  distinct : ∀ id id' p p', mountPoint id p = mountPoint id' p' → id = id' ∧ p = p'
  size : (stateAfter gst cs).mediaFactories.size = 4 * (stateAfter gst cs).uriPartsMap.size
  created : ∀ (id : Str) (e : UriParts), (stateAfter gst cs).uriPartsMap[id]? = some e →
    ∃ pre post now, LastAddition gst cs id e pre post now
  transcodes : ∀ (id : Str) (e : UriParts), (stateAfter gst cs).uriPartsMap[id]? = some e →
    ∀ p, ∃ f, (stateAfter gst cs).mediaFactories[mountPoint id p]? = some f ∧
      Transcodes p e.full_path f.launch
  frame : ∀ (c : Call) (id : Str), c.stream ≠ some id → ∀ p,
    (c.exec gst (stateAfter gst cs)).2.mediaFactories[mountPoint id p]? =
      (stateAfter gst cs).mediaFactories[mountPoint id p]?

def WholeUrls (s : TranscodingService) : Prop :=
  ∀ (id : Str) (e : UriParts), s.uriPartsMap[id]? = some e → 0 ∉ e.full_path

theorem WholeUrls.agree {cs : List Call} (h : WholeUrls (stateAfter gst cs)) :
    FactoriesAgree gst cs where
  keys := (consistent gst cs).factories
  distinct _ _ _ _ := mountPoint_injective
  size := (consistent gst cs).size
  created _ _ he := exists_lastAddition cs he
  transcodes id e he p := by
    obtain ⟨pre, post, now, hlast⟩ := exists_lastAddition cs he
    exact ⟨_, hlast.factories p, transcodes_iff.mpr (h id e he)⟩
  frame _ _ hc := (exec_frame (consistent gst cs) hc).2

theorem FactoriesAgree.wholeUrls {cs : List Call} (h : FactoriesAgree gst cs) :
    WholeUrls (stateAfter gst cs) := by
  intro id e he
  obtain ⟨pre, post, now, hlast⟩ := h.created id e he
  obtain ⟨f, hf, htranscodes⟩ := h.transcodes id e he .first
  rw [hlast.factories, Option.some.injEq] at hf
  subst hf
  exact transcodes_iff.mp htranscodes

theorem WholeUrls.exec {c : Call} (h : WholeUrls s)
    (hsafe : ∀ now id uri, c = .AddRtsp now id uri → Accepts gst s id uri → 0 ∉ uri) :
    WholeUrls (c.exec gst s).2 := by
  have ho := exec_outcome gst s c
  generalize c.exec gst s = r at ho ⊢
  intro k e he
  cases ho with
  | accepted now id uri parts ha hp =>
      rw [added_uriPartsMap] at he
      split at he
      · cases he
        rw [readyAt_full_path hp]
        exact hsafe now id uri rfl ha
      · exact h k e he
  | refused now id uri _ => exact h k e he
  | known now id d _ =>
      rw [removed_uriPartsMap] at he
      split at he
      · cases he
      · exact h k e he
  | unknown now id t _ hs | connect client id uri t hs | disconnect client t hs =>
      rw [hs.uriPartsMap] at he
      exact h k e he

end TranscodingServer
