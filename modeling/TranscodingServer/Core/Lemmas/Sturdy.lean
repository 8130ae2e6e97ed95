import TranscodingServer.Library.Triple
import TranscodingServer.Core.Lemmas.Faults
import TranscodingServer.Core.Lemmas.Invariants
import TranscodingServer.Core.Lemmas.References

/-!
# What no exception can break

An `AddRtsp` that throws may leave factories without an entry, or an entry to which only some members
have been copied.
-/

namespace TranscodingServer

open Throwing Balance

variable {gst : Gst} {env : Env} {s t : TranscodingService} {id uri : Str} {parts e : UriParts}

/-! ## Entries on their way -/

/-- Some members are those of `parts`, the others are still empty. -/
structure Copied (parts e : UriParts) : Prop where
  full_path : e.full_path = [] ∨ e.full_path = parts.full_path
  mount : ∀ p, e.mount_points.get p = [] ∨ e.mount_points.get p = parts.mount_points.get p

theorem Copied.empty (parts : UriParts) : Copied parts {} where
  full_path := .inl rfl
  mount p := by cases p <;> exact .inl rfl

theorem Copied.copy (h : Copied parts e) (m : Member) : Copied parts (parts.copy e m) := by
  cases m with
  | full_path => exact ⟨.inr rfl, h.mount⟩
  | mount_points q =>
      refine ⟨h.full_path, fun p => ?_⟩
      have hp := h.mount p
      cases q <;> cases p <;> first | exact .inr rfl | exact hp
  | username | password | ip | port | path | id | ready_time => exact ⟨h.full_path, h.mount⟩

/-- The entry of `id`, complete or not: its mount points are its own, and its factories are there,
for its url. -/
structure Entry (factories : StrMap GstRTSPMediaFactory) (id : Str) (e : UriParts) : Prop where
  mount : ∀ p, e.mount_points.get p = [] ∨ e.mount_points.get p = mountPoint id p
  factories : ∀ p, ∃ f, factories[mountPoint id p]? = some f ∧
    (e.full_path = [] ∨ f.launch = c_str (launchDescription p e.full_path))

structure Sturdy (s : TranscodingService) : Prop where
  entries : ∀ (id : Str) (e : UriParts), s.uriPartsMap[id]? = some e → Entry s.mediaFactories id e
  urls : ∀ (id id' : Str) (e e' : UriParts), s.uriPartsMap[id]? = some e →
    s.uriPartsMap[id']? = some e' → e.full_path = e'.full_path → e.full_path = [] ∨ id = id'
  named : ∀ k ∈ s.mediaFactories, ∃ id p, mountPoint id p = k

theorem Entry.congr {m m' : StrMap GstRTSPMediaFactory} (h : Entry m id e)
    (heq : ∀ p, m'[mountPoint id p]? = m[mountPoint id p]?) : Entry m' id e where
  mount := h.mount
  factories p := by rw [heq p]; exact h.factories p

theorem Sturdy.of_toTables (h : Sturdy s) (heq : t.uriPartsMap = s.uriPartsMap)
    (heq' : t.mediaFactories = s.mediaFactories) : Sturdy t where
  entries id e he := by rw [heq']; exact h.entries id e (heq ▸ he)
  urls id id' e e' he he' := h.urls id id' e e' (heq ▸ he) (heq ▸ he')
  named k hk := h.named k (heq' ▸ hk)

theorem Sturdy.empty : Sturdy {} where
  entries id e he := by simp at he
  urls id id' e e' he := by simp at he
  named k hk := by simp at hk

/-! ## `AddRtsp` -/

/-- What an addition has done so far. -/
structure Adding (s : TranscodingService) (id : Str) (parts : UriParts)
    (factory : Profile → GstRTSPMediaFactory) (t : TranscodingService) : Prop where
  others : ∀ k, k ≠ id → t.uriPartsMap[k]? = s.uriPartsMap[k]?
  factories : ∀ k, (∀ p, mountPoint id p ≠ k) → t.mediaFactories[k]? = s.mediaFactories[k]?
  entry : ∀ e, t.uriPartsMap[id]? = some e → Copied parts e ∧
    ∀ p, t.mediaFactories[mountPoint id p]? = some (factory p)

/-- The same, before the entry: the factories of `done` are there. -/
structure Mounting (s : TranscodingService) (id : Str) (parts : UriParts)
    (factory : Profile → GstRTSPMediaFactory) (done : List Profile) (t : TranscodingService) : Prop
    extends Adding s id parts factory t where
  fresh : id ∉ t.uriPartsMap
  mounted : ∀ p ∈ done, t.mediaFactories[mountPoint id p]? = some (factory p)

variable {factory : Profile → GstRTSPMediaFactory}

theorem triple_point {P : TranscodingService → Prop} {X : TranscodingService → Prop} (pt : Point)
    (h : ∀ s, P s → X s) : Triple P (env.point pt) (fun _ => P) X :=
  .ite (.throw _ h) (.pure fun _ hs => hs)

theorem Mounting.start (hid : id ∉ s.uriPartsMap) (hmap : t.uriPartsMap = s.uriPartsMap)
    (hfactories : t.mediaFactories = s.mediaFactories) : Mounting s id parts factory [] t where
  others k _ := by rw [hmap]
  factories k _ := by rw [hfactories]
  entry e he := by
    rw [hmap] at he
    exact absurd ((OrdMap.mem_iff _ _).mpr ⟨e, he⟩) hid
  fresh := by rwa [hmap]
  mounted p hp := by cases hp

theorem Mounting.insert {done : List Profile} (h : Mounting s id parts factory done t) (p : Profile) :
    Mounting s id parts factory (done ++ [p])
      { t with mediaFactories := t.mediaFactories.insert (mountPoint id p) (factory p) } where
  others := h.others
  factories k hk := by
    rw [OrdMap.getElem?_insert, if_neg (hk p)]
    exact h.factories k hk
  entry e he := absurd ((OrdMap.mem_iff _ _).mpr ⟨e, he⟩) h.fresh
  fresh := h.fresh
  mounted q hq := by
    rw [OrdMap.getElem?_insert]
    by_cases hpq : p = q
    · subst hpq
      rw [if_pos rfl]
    · rw [if_neg fun heq => hpq (mountPoint_injective heq).2]
      rcases List.mem_append.mp hq with hq | hq
      · exact h.mounted q hq
      · exact absurd (List.mem_singleton.mp hq).symm hpq

theorem triple_mountFactory (done : List Profile) (p : Profile) :
    Triple (Mounting s id parts factory done)
      (mountFactory gst env (mountPoint id p) p (factory p))
      (fun _ => Mounting s id parts factory (done ++ [p])) (Adding s id parts factory) := by
  refine Triple.bind (Q := fun _ => Mounting s id parts factory done) ?_ fun _ => ?_
  · exact .modify fun t ht => ⟨⟨ht.others, ht.factories, ht.entry⟩, ht.fresh, ht.mounted⟩
  · exact (triple_point _ fun t ht => ht.toAdding).bind fun _ => .modify fun t ht => ht.insert p

theorem Mounting.node (h : Mounting s id parts factory Profile.all t) :
    Adding s id parts factory { t with uriPartsMap := t.uriPartsMap.insertIfNew id {} } where
  others k hk := by
    rw [← h.others k hk]
    simp [Std.ExtTreeMap.getElem?_insertIfNew, Ne.symm hk]
  factories := h.factories
  entry e he := by
    have hnew : e = {} := by
      rw [Std.ExtTreeMap.getElem?_insertIfNew, if_pos ⟨by simp, h.fresh⟩] at he
      exact (Option.some.inj he).symm
    exact ⟨hnew ▸ Copied.empty parts, fun p => h.mounted p p.mem_all⟩

theorem Adding.copy (h : Adding s id parts factory t) (m : Member) :
    Adding s id parts factory
      { t with uriPartsMap := t.uriPartsMap.modify id (parts.copy · m) } where
  others k hk := by
    rw [← h.others k hk, OrdMap.getElem?_modify, if_neg (Ne.symm hk)]
  factories := h.factories
  entry e he := by
    rw [OrdMap.getElem?_modify, if_pos rfl, Option.map_eq_some_iff] at he
    obtain ⟨d, hd, rfl⟩ := he
    exact ⟨(h.entry d hd).1.copy m, (h.entry d hd).2⟩

/-- The entry with the members of `done` copied. -/
structure Copying (s : TranscodingService) (id : Str) (parts : UriParts)
    (factory : Profile → GstRTSPMediaFactory) (done : List Member) (t : TranscodingService) : Prop
    extends Adding s id parts factory t where
  copied : t.uriPartsMap[id]? = some (done.foldl parts.copy {})

theorem Copying.copy {done : List Member} (h : Copying s id parts factory done t) (m : Member) :
    Copying s id parts factory (done ++ [m])
      { t with uriPartsMap := t.uriPartsMap.modify id (parts.copy · m) } :=
  { h.toAdding.copy m with
    copied := by
      rw [OrdMap.getElem?_modify, if_pos rfl, h.copied, List.foldl_append]
      rfl }

theorem triple_storeUriParts :
    Triple (Mounting s id parts factory Profile.all) (storeUriParts env id parts)
      (fun _ => Copying s id parts factory Member.all) (Adding s id parts factory) := by
  refine (triple_point _ fun t ht => ht.toAdding).bind fun _ => ?_
  refine Triple.bind (Q := fun _ => Copying s id parts factory []) (.modify fun t ht => ?_) fun _ => ?_
  · refine { ht.node with copied := ?_ }
    rw [Std.ExtTreeMap.getElem?_insertIfNew, if_pos ⟨by simp, ht.fresh⟩]
    rfl
  · refine Triple.loop (Copying s id parts factory) (fun done m => ?_) [] Member.all
    exact (triple_point _ fun t ht => ht.toAdding).bind fun _ => .modify fun t ht => ht.copy m

/-- The entry is complete when the addition returns it. -/
theorem triple_commit (hmount : ∀ p, parts.mount_points.get p = mountPoint id p) :
    Triple (Mounting s id (parts.readyAt env.now) factory [])
      (AddRtsp.commit gst env id parts factory)
      (fun e t => e = parts.readyAt env.now ∧
        Copying s id (parts.readyAt env.now) factory Member.all t)
      (Adding s id (parts.readyAt env.now) factory) := by
  have hcall : ∀ c, Triple (Mounting s id (parts.readyAt env.now) factory Profile.all) (call c)
      (fun _ => Mounting s id (parts.readyAt env.now) factory Profile.all)
      (Adding s id (parts.readyAt env.now) factory) := fun c =>
    .modify fun t ht => ⟨⟨ht.others, ht.factories, ht.entry⟩, ht.fresh, ht.mounted⟩
  unfold AddRtsp.commit
  simp only [hmount]
  refine (Triple.loop (Mounting s id (parts.readyAt env.now) factory)
    (fun done p => triple_mountFactory done p) [] Profile.all).bind fun _ => ?_
  refine (hcall _).bind fun _ => (triple_point _ fun t ht => ht.toAdding).bind fun _ => ?_
  refine triple_storeUriParts.bind fun _ => ?_
  exact (triple_point _ fun t ht => ht.toAdding).bind fun _ => .pure fun t ht => ⟨rfl, ht⟩

/-- What any `AddRtsp` does, whatever it throws: nothing to the tables, or some of an addition, all of
it where it returns the new entry. -/
inductive FaultyAddition (gst : Gst) (now : Str) (s : TranscodingService) (id uri : Str) :
    Option UriParts × TranscodingService → Prop
  | unchanged {t : TranscodingService} : t.toTables = s.toTables → FaultyAddition gst now s id uri (none, t)
  | adding {r : Option UriParts} {t : TranscodingService} (parts : UriParts) : Accepts gst s id uri →
      ({} : UriParts).parseUri id uri = .ok parts →
      Adding s id (parts.readyAt now) (createdFactory s uri) t →
      (∀ e ∈ r, e = parts.readyAt now ∧ t.uriPartsMap[id]? = some e) →
      FaultyAddition gst now s id uri (r, t)

theorem AddRtsp_faulty (gst : Gst) (env : Env) (s : TranscodingService) (id uri : Str) :
    FaultyAddition gst env.now s id uri (AddRtsp gst env id uri s) := by
  by_cases hc : Commits gst env s id uri
  · obtain ⟨parts, hp, _, _, _, hmount⟩ := @parseUri_ok {} id uri hc.accepts.slashes
    have hends := @triple_commit gst env s id parts (createdFactory s uri) hmount
      { s with objects := s.objects + 4, calls := s.calls ++ [.get_mount_points] }
      (.start hc.accepts.freshId rfl rfl)
    rw [AddRtsp, catchAll, AddRtsp.body, exec_bind_ok (exec_prepare_commits hc hp), exec_bind]
    rcases he : exec (AddRtsp.commit gst env id parts (createdFactory s uri))
      { s with objects := s.objects + 4, calls := s.calls ++ [.get_mount_points] } with ⟨_ | e, t⟩
    · rw [he] at hends
      exact .adding parts hc.accepts hp hends fun e he => by cases he
    · rw [he] at hends
      obtain ⟨rfl, hcopying⟩ := hends
      refine .adding parts hc.accepts hp hcopying.toAdding fun e he => ?_
      cases he
      exact ⟨rfl, by rw [hcopying.copied, copy_all]⟩
  · have hkeeps : (exec (AddRtsp.prepare gst env id uri) s).2.toTables = s.toTables :=
      keeps_prepare s.toTables s rfl
    rw [AddRtsp, catchAll, AddRtsp.body, exec_bind]
    rcases he : exec (AddRtsp.prepare gst env id uri) s with ⟨e | _ | r, t⟩
    · rw [he] at hkeeps
      exact .unchanged hkeeps
    · rw [he] at hkeeps
      exact .unchanged hkeeps
    · exact absurd (exec_prepare_eq_some he) hc

theorem Sturdy.adding (h : Sturdy s) (ha : Accepts gst s id uri)
    (hp : ({} : UriParts).parseUri id uri = .ok parts) {now : Str}
    (hadding : Adding s id (parts.readyAt now) (createdFactory s uri) t) : Sturdy t := by
  have hfull : (parts.readyAt now).full_path = uri := readyAt_full_path hp
  have hmount : ∀ p, (parts.readyAt now).mount_points.get p = mountPoint id p :=
    (parsed_readyAt hp).mount
  have hother : ∀ {k : Str} {d : UriParts}, t.uriPartsMap[k]? = some d → k ≠ id →
      s.uriPartsMap[k]? = some d := fun hd hk => (hadding.others _ hk) ▸ hd
  -- the new entry has the new url, or none yet
  have hurl : ∀ {k : Str} {d d' : UriParts}, t.uriPartsMap[id]? = some d →
      t.uriPartsMap[k]? = some d' → d.full_path = d'.full_path → d.full_path = [] ∨ id = k := by
    intro k d d' hd hd' heq
    by_cases hk : k = id
    · exact .inr hk.symm
    · rcases (hadding.entry d hd).1.full_path with h | h
      · exact .inl h
      · exact absurd (heq.symm.trans (h.trans hfull)) (ha.freshUri k d' (hother hd' hk))
  refine ⟨fun k d hd => ?_, fun k k' d d' hd hd' heq => ?_, fun k hk => ?_⟩
  · by_cases hk : k = id
    · subst hk
      obtain ⟨hcopied, hfactory⟩ := hadding.entry d hd
      refine ⟨fun p => hmount p ▸ hcopied.mount p, fun p => ⟨_, hfactory p, ?_⟩⟩
      rcases hcopied.full_path with h | h
      · exact .inl h
      · exact .inr (by rw [h, hfull]; rfl)
    · refine (h.entries k d (hother hd hk)).congr fun p => hadding.factories _ fun q hq => ?_
      exact hk (mountPoint_injective hq).1.symm
  · by_cases hk : k = id
    · subst hk
      exact hurl hd hd' heq
    · by_cases hk' : k' = id
      · subst hk'
        rcases hurl hd' hd heq.symm with h | h
        · exact .inl (heq.trans h)
        · exact .inr h.symm
      · exact h.urls k k' d d' (hother hd hk) (hother hd' hk') heq
  · by_cases hown : ∃ p, mountPoint id p = k
    · obtain ⟨p, hp⟩ := hown
      exact ⟨id, p, hp⟩
    · refine h.named k ((OrdMap.mem_iff _ _).mpr ?_)
      rw [← hadding.factories k fun p hp => hown ⟨p, hp⟩]
      exact (OrdMap.mem_iff _ _).mp hk

theorem Sturdy.AddRtsp (h : Sturdy s) (env : Env) (id uri : Str) :
    Sturdy (AddRtsp gst env id uri s).2 := by
  have ho := AddRtsp_faulty gst env s id uri
  generalize TranscodingServer.AddRtsp gst env id uri s = r at ho ⊢
  cases ho with
  | unchanged hsame =>
      exact h.of_toTables (congrArg Tables.uriPartsMap hsame) (congrArg Tables.mediaFactories hsame)
  | adding parts ha hp hadding _ => exact h.adding ha hp hadding

/-! ## `RemoveRtsp` -/

theorem RemoveClientWithId_cases (gst : Gst) (env : Env) (s : TranscodingService) (id : Str) :
    RemoveClientWithId gst env id s = s ∨ RemoveClientWithId gst env id s = s.purged gst id := by
  by_cases hlock : env.raises .clientsLock = true
  · left
    rw [RemoveClientWithId, catchAll, RemoveClientWithId.body, exec_bind, exec_point, if_pos hlock]
  · by_cases hpath : env.raises .mountPath = true
    · left
      rw [RemoveClientWithId, catchAll, RemoveClientWithId.body, exec_bind, exec_point, if_neg hlock]
      simp only [exec_bind, exec_point, if_pos hpath]
    · right
      have hbody : RemoveClientWithId.body gst env id =
          RemoveClientWithId.body gst (Env.calm (str "")) id := by
        simp [RemoveClientWithId.body, Env.point, hlock, hpath, Env.calm]
      rw [RemoveClientWithId, hbody]
      exact RemoveClientWithId_calm

theorem RemoveClientWithId_same (gst : Gst) (env : Env) (s : TranscodingService) (id : Str) :
    SameStreams s (RemoveClientWithId gst env id s) := by
  rcases RemoveClientWithId_cases gst env s id with h | h
  · rw [h]
    exact .refl
  · rw [h]
    exact ⟨rfl, rfl, rfl, rfl⟩

/-- `RemoveRtsp` between its lookup and its first statement that may throw. -/
def TranscodingService.dropped (gst : Gst) (env : Env) (s : TranscodingService) (id : Str)
    (e : UriParts) : TranscodingService :=
  let t := Profile.all.foldl (fun s p => removeFactory gst s (e.mount_points.get p))
    (RemoveClientWithId gst env id { s with calls := s.calls ++ [.get_mount_points] })
  { t with uriPartsMap := t.uriPartsMap.erase id }

/-- What any `RemoveRtsp` does, whatever it throws: nothing but its lookup, or all of its removals. -/
theorem RemoveRtsp_faulty (gst : Gst) (env : Env) (s : TranscodingService) (id : Str) :
    (RemoveRtsp gst env id s).2.toTables = s.toTables ∨
      ∃ e, s.uriPartsMap[id]? = some e ∧
        (RemoveRtsp gst env id s).2.toTables = (s.dropped gst env id e).toTables := by
  by_cases hr : Removes env s id
  · obtain ⟨e, he⟩ := (OrdMap.mem_iff _ _).mp hr.known
    refine .inr ⟨e, he, ?_⟩
    have hbody : exec (RemoveRtsp.body gst env id) s = exec (do
        env.point .getCurrentTime
        env.point .printRemoved
        call .unref_mount_points
        return true) (s.dropped gst env id e) := by
      simp only [RemoveRtsp.body, point_of_not_raises hr.lock, hr.mounts, pure_bind, exec_bind,
        exec_call, exec_get, exec_modify, Bool.not_true, Bool.false_eq_true, ↓reduceIte, he]
      rfl
    have hrest : Triple (Unchanged (s.dropped gst env id e).toTables) (do
        env.point .getCurrentTime
        env.point .printRemoved
        call .unref_mount_points
        return true : Svc Bool) (fun _ => Unchanged (s.dropped gst env id e).toTables)
        (Unchanged (s.dropped gst env id e).toTables) := by
      refine (triple_point _ fun t ht => ht).bind fun _ => ?_
      refine (triple_point _ fun t ht => ht).bind fun _ => ?_
      refine Triple.bind (Q := fun _ => Unchanged (s.dropped gst env id e).toTables)
        (.modify fun t ht => ht) fun _ => .pure fun t ht => ht
    have hcaught := hrest.catchAll false (s.dropped gst env id e) rfl
    rw [catchAll, ← hbody] at hcaught
    exact hcaught
  · exact .inl (RemoveRtsp_refused hr)

theorem dropped_uriPartsMap : (s.dropped gst env id e).uriPartsMap = s.uriPartsMap.erase id := by
  have hsame := RemoveClientWithId_same gst env { s with calls := s.calls ++ [.get_mount_points] } id
  simp only [TranscodingService.dropped]
  rw [removeFactories_eq]
  exact congrArg (·.erase id) hsame.uriPartsMap

theorem dropped_mediaFactories : (s.dropped gst env id e).mediaFactories =
    Profile.all.foldl (fun m p => m.erase (e.mount_points.get p)) s.mediaFactories := by
  have hsame := RemoveClientWithId_same gst env { s with calls := s.calls ++ [.get_mount_points] } id
  simp only [TranscodingService.dropped]
  rw [removeFactories_eq]
  exact congrArg (Profile.all.foldl fun m p => m.erase (e.mount_points.get p)) hsame.mediaFactories

theorem Sturdy.dropped (h : Sturdy s) (env : Env) (he : s.uriPartsMap[id]? = some e) :
    Sturdy (s.dropped gst env id e) := by
  have hmap : ∀ (k : Str) (d : UriParts), (s.dropped gst env id e).uriPartsMap[k]? = some d →
      k ≠ id ∧ s.uriPartsMap[k]? = some d := by
    intro k d hd
    rw [dropped_uriPartsMap, OrdMap.getElem?_erase] at hd
    by_cases hk : id = k
    · simp [hk] at hd
    · rw [if_neg hk] at hd
      exact ⟨Ne.symm hk, hd⟩
  have hmount := (h.entries id e he).mount
  refine ⟨fun k d hd => ?_, fun k k' d d' hd hd' => ?_, fun k hk => ?_⟩
  · obtain ⟨hk, hd⟩ := hmap k d hd
    refine (h.entries k d hd).congr fun p => ?_
    rw [dropped_mediaFactories, OrdMap.getElem?_foldl_erase, if_neg]
    rintro ⟨q, _, hq⟩
    rcases hmount q with hnone | hown
    · rw [hnone, mountPoint_eq] at hq
      simp at hq
    · exact hk (mountPoint_injective (hown.symm.trans hq)).1.symm
  · exact h.urls k k' d d' (hmap k d hd).2 (hmap k' d' hd').2
  · rw [OrdMap.mem_iff, dropped_mediaFactories, OrdMap.getElem?_foldl_erase] at hk
    split at hk
    · obtain ⟨f, hf⟩ := hk
      cases hf
    · exact h.named k ((OrdMap.mem_iff _ _).mpr hk)

theorem Sturdy.RemoveRtsp (h : Sturdy s) (env : Env) (id : Str) :
    Sturdy (RemoveRtsp gst env id s).2 := by
  rcases RemoveRtsp_faulty gst env s id with hsame | ⟨e, he, hdropped⟩
  · exact h.of_toTables (congrArg Tables.uriPartsMap hsame) (congrArg Tables.mediaFactories hsame)
  · exact (@Sturdy.dropped gst _ id e h env he).of_toTables
      (congrArg Tables.uriPartsMap hdropped) (congrArg Tables.mediaFactories hdropped)

/-! ## References on clients -/

def HeldIn (s : TranscodingService) : Prop := Held s.clientInfos s.calls

theorem HeldIn.call (h : HeldIn s) {c : GstCall} (hc : ∀ d, clientWeight d c = 0) :
    HeldIn { s with calls := s.calls ++ [c] } :=
  Held.calls_append h fun d => by simp [hc d]

theorem keeps_held_call {c : GstCall} (hc : ∀ d, clientWeight d c = 0) :
    Keeps HeldIn (TranscodingServer.call c) := .modify fun _ h => h.call hc

theorem HeldIn.prepare (h : HeldIn s) : HeldIn (exec (AddRtsp.prepare gst env id uri) s).2 := by
  have hpoint : ∀ pt, Keeps HeldIn (env.point pt) := fun pt => keeps_point pt
  have hcheck : Keeps HeldIn (checkUri gst env uri) :=
    (hpoint _).bind fun _ => .ite ((hpoint _).bind fun _ => .pure _) (.pure _)
  have hparse : Keeps HeldIn (liftM (({} : UriParts).parseUri id uri) : Svc UriParts) := by
    intro s h
    cases ({} : UriParts).parseUri id uri <;> exact h
  have hfactory : ∀ p, Keeps HeldIn (newFactory env uri p) := fun p =>
    Keeps.get_bind fun s hs => exec_bind_keeps HeldIn hs fun _ => (hpoint _).bind fun _ => .pure _
  have hkeeps : Keeps HeldIn (AddRtsp.prepare gst env id uri) := by
    refine (hpoint _).bind fun _ => hcheck.bind fun _ => .ite (.pure _) ?_
    refine (hpoint _).bind fun _ => (hpoint _).bind fun _ => hparse.bind fun uriParts => ?_
    refine Keeps.get.bind fun s => .ite (.pure _) (.ite (.pure _) (.ite (.pure _) ?_))
    refine (keeps_held_call fun _ => rfl).bind fun _ => (hfactory _).bind fun _ => ?_
    refine (hfactory _).bind fun _ => (hfactory _).bind fun _ => (hfactory _).bind fun _ => ?_
    exact (hpoint _).bind fun _ => (Keeps.forM _ fun p _ => hpoint _).bind fun _ => .pure _
  exact hkeeps s h

/-- An update of the tables for the streams. -/
theorem keeps_held_modify (f : TranscodingService → TranscodingService)
    (h : ∀ s, (f s).clientInfos = s.clientInfos ∧ (f s).calls = s.calls) :
    Keeps HeldIn (modify f : Svc PUnit) := by
  refine .modify fun s hs => ?_
  rw [HeldIn, (h s).1, (h s).2]
  exact hs

theorem keeps_held_commit (factory : Profile → GstRTSPMediaFactory) :
    Keeps HeldIn (AddRtsp.commit gst env id parts factory) := by
  have hpoint : ∀ pt, Keeps HeldIn (env.point pt) := fun pt => keeps_point pt
  have hmounts : ∀ f : GstRTSPMountPoints → GstRTSPMountPoints, Keeps HeldIn
      (modify fun s => { s with mounts := f s.mounts } : Svc PUnit) :=
    fun f => keeps_held_modify _ fun _ => ⟨rfl, rfl⟩
  have hfactories : ∀ f : StrMap GstRTSPMediaFactory → StrMap GstRTSPMediaFactory, Keeps HeldIn
      (modify fun s => { s with mediaFactories := f s.mediaFactories } : Svc PUnit) :=
    fun f => keeps_held_modify _ fun _ => ⟨rfl, rfl⟩
  have hmap : ∀ f : StrMap UriParts → StrMap UriParts, Keeps HeldIn
      (modify fun s => { s with uriPartsMap := f s.uriPartsMap } : Svc PUnit) :=
    fun f => keeps_held_modify _ fun _ => ⟨rfl, rfl⟩
  have hmount : ∀ mount p f, Keeps HeldIn (mountFactory gst env mount p f) := fun mount p f =>
    (hmounts (gst.add_factory · (c_str mount) f)).bind fun _ => (hpoint _).bind fun _ =>
      hfactories (·.insert mount f)
  have hstore : Keeps HeldIn (storeUriParts env id (parts.readyAt env.now)) :=
    (hpoint _).bind fun _ => (hmap (·.insertIfNew id {})).bind fun _ => .forM _ fun m _ =>
      (hpoint _).bind fun _ => hmap (·.modify id ((parts.readyAt env.now).copy · m))
  refine (Keeps.forM _ fun p _ => hmount _ _ _).bind fun _ => ?_
  refine (keeps_held_call fun _ => rfl).bind fun _ => (hpoint _).bind fun _ => ?_
  exact hstore.bind fun _ => (hpoint _).bind fun _ => .pure _

theorem HeldIn.AddRtsp (h : HeldIn s) (env : Env) (id uri : Str) :
    HeldIn (AddRtsp gst env id uri s).2 := by
  have hbody : Keeps HeldIn (AddRtsp.body gst env id uri) := by
    refine Keeps.bind (fun s hs => HeldIn.prepare hs) fun r => ?_
    cases r with
    | none => exact .pure _
    | some r => exact (keeps_held_commit r.2).bind fun _ => .pure _
  exact (Triple.of_keeps hbody).catchAll none s h

theorem HeldIn.RemoveClientWithId (h : HeldIn s) (env : Env) (id : Str) :
    HeldIn (RemoveClientWithId gst env id s) := by
  rcases RemoveClientWithId_cases gst env s id with hsame | hpurged
  · rw [hsame]
    exact h
  · rw [hpurged, ← @RemoveClientWithId_calm gst s (str "") id]
    exact Held.exec h (.id (str "") id)

theorem HeldIn.RemoveRtsp (h : HeldIn s) (env : Env) (id : Str) :
    HeldIn (RemoveRtsp gst env id s).2 := by
  have hpoint : ∀ pt, Keeps HeldIn (env.point pt) := fun pt => keeps_point pt
  have hfactories : ∀ mount : Profile → Str, Keeps HeldIn (modify fun s =>
      Profile.all.foldl (fun s p => removeFactory gst s (mount p)) s : Svc PUnit) := by
    refine fun mount => keeps_held_modify _ fun s => ?_
    rw [removeFactories_eq]
    exact ⟨rfl, rfl⟩
  have hbody : Keeps HeldIn (RemoveRtsp.body gst env id) := by
    refine (hpoint _).bind fun _ => .ite (.pure _) ?_
    refine (keeps_held_call fun _ => rfl).bind fun _ => Keeps.get_bind fun s hs => ?_
    cases s.uriPartsMap[id]? with
    | none => exact hs
    | some uriParts =>
        refine exec_bind_keeps HeldIn (HeldIn.RemoveClientWithId hs env id) fun _ => ?_
        refine (hfactories _).bind fun _ => Keeps.bind ?_ fun _ => ?_
        · exact keeps_held_modify (fun s => { s with uriPartsMap := s.uriPartsMap.erase id })
            fun _ => ⟨rfl, rfl⟩
        refine (hpoint _).bind fun _ => (hpoint _).bind fun _ => ?_
        exact (keeps_held_call fun _ => rfl).bind fun _ => .pure _
  exact (Triple.of_keeps hbody).catchAll false s h

end TranscodingServer
