import TranscodingServer.Library.PartialInj
import TranscodingServer.Core.Lemmas.Invariants

/-!
# The catalogue of streams

What the service is for: a partial injective map from ids to urls, with the results that its users
see.  The tables of the service are one representation of it.
-/

namespace TranscodingServer

open Lts

abbrev Catalogue := Str ≃. Str

structure Catalogue.Addable (valid : Str → Bool) (M : Catalogue) (id uri : Str) : Prop where
  valid : valid uri = true
  slashes : hasSlashes uri
  freshId : M id = none
  freshUri : M.symm uri = none

inductive Catalogue.Step (valid : Str → Bool) (M : Catalogue) : Call × Ret → Catalogue → Prop
  | add (now id uri : Str) (e : UriParts) (h : M.Addable valid id uri) :
      Step valid M (.AddRtsp now id uri, .uriParts (some e))
        (PartialInj.insertNew M id uri h.freshId h.freshUri)
  | refuse (now id uri : Str) :
      ¬M.Addable valid id uri → Step valid M (.AddRtsp now id uri, .uriParts none) M
  | remove (now id uri : Str) :
      M id = some uri → Step valid M (.RemoveRtsp now id, .bool true) (PartialInj.erase M id)
  | unknown (now id : Str) :
      M id = none → Step valid M (.RemoveRtsp now id, .bool false) M
  | connect (client : Option GstRTSPClient) (id uri : Str) :
      Step valid M (.AddClientInfo client id uri, .void) M
  | disconnect (client : Option GstRTSPClient) :
      Step valid M (.RemoveClientWithClient client, .void) M

def catalogueLts (valid : Str → Bool) : Lts Catalogue (Call × Ret) where
  step := Catalogue.Step valid

/-- The tables represent the catalogue. -/
structure Agrees (s : TranscodingService) (M : Catalogue) : Prop where
  keys : ∀ id : Str, id ∈ s.uriPartsMap ↔ (M id).isSome
  entry : ∀ (id : Str) (e : UriParts), s.uriPartsMap[id]? = some e →
    e.id = id ∧ M id = some e.full_path ∧ Parsed id e

variable {gst : Gst} {s t : TranscodingService} {M : Catalogue} {now id uri : Str}
  {parts e : UriParts}

theorem Agrees.empty : Agrees {} ⊥ where
  keys id := by simp
  entry id e h := by simp at h

theorem Agrees.same (hst : SameStreams s t) (h : Agrees s M) : Agrees t M where
  keys := by rw [hst.uriPartsMap]; exact h.keys
  entry := by rw [hst.uriPartsMap]; exact h.entry

theorem Agrees.none_iff (h : Agrees s M) : M id = none ↔ id ∉ s.uriPartsMap := by
  rw [h.keys, Option.not_isSome_iff_eq_none]

/-- What `AddRtsp` checks in the tables is what the catalogue asks for. -/
theorem Agrees.accepts_iff (h : Agrees s M) :
    Accepts gst s id uri ↔ M.Addable (isValidUri gst) id uri := by
  have huri : (∀ (id' : Str) (e : UriParts), s.uriPartsMap[id']? = some e → e.full_path ≠ uri) ↔
      M.symm uri = none := by
    rw [PartialInj.symm_eq_none_iff]
    constructor
    · intro hs id' hM
      have hmem : id' ∈ s.uriPartsMap := (h.keys id').mpr (by rw [hM]; rfl)
      obtain ⟨e, he⟩ := (OrdMap.mem_iff _ _).mp hmem
      have hfull := (h.entry id' e he).2.1
      rw [hM, Option.some.injEq] at hfull
      exact hs id' e he hfull.symm
    · intro hM id' e he hu
      exact hM id' (hu ▸ (h.entry id' e he).2.1)
  constructor
  · intro ha
    exact ⟨ha.valid, ha.slashes, h.none_iff.mpr ha.freshId, huri.mp ha.freshUri⟩
  · intro ha
    exact ⟨ha.valid, ha.slashes, huri.mpr ha.freshUri, h.none_iff.mp ha.freshId⟩

theorem Agrees.added (h : Agrees s M) (ha : M.Addable (isValidUri gst) id uri)
    (hp : ({} : UriParts).parseUri id uri = .ok parts) :
    Agrees (s.added gst id uri (parts.readyAt now))
      (PartialInj.insertNew M id uri ha.freshId ha.freshUri) where
  keys := by
    intro k
    rw [mem_added_uriPartsMap, PartialInj.insertNew_apply, h.keys]
    by_cases hk : k = id
    · simp [hk]
    · simp [hk, Ne.symm hk]
  entry := by
    intro k e he
    rw [added_uriPartsMap] at he
    rw [PartialInj.insertNew_apply]
    split at he
    · rename_i hk
      cases he
      rw [← hk, readyAt_full_path hp]
      exact ⟨(parsed_readyAt hp).id_eq, if_pos rfl, parsed_readyAt hp⟩
    · rename_i hk
      rw [if_neg (Ne.symm hk)]
      exact h.entry k e he

theorem Agrees.removed (h : Agrees s M) : Agrees (s.removed gst id e) (PartialInj.erase M id) where
  keys := by
    intro k
    rw [mem_removed_uriPartsMap, PartialInj.erase_apply, h.keys]
    by_cases hk : k = id
    · simp [hk]
    · simp [hk, Ne.symm hk]
  entry := by
    intro k e he
    rw [removed_uriPartsMap] at he
    rw [PartialInj.erase_apply]
    split at he
    · cases he
    · rename_i hk
      rw [if_neg (Ne.symm hk)]
      exact h.entry k e he

/-- Every call of the service is a step of the catalogue with the same result. -/
theorem Agrees.step (h : Agrees s M) (c : Call) :
    ∃ N, Catalogue.Step (isValidUri gst) M (c, (c.exec gst s).1) N ∧ Agrees (c.exec gst s).2 N := by
  have ho := exec_outcome gst s c
  generalize c.exec gst s = r at ho ⊢
  cases ho with
  | accepted now id uri parts ha hp =>
      have hadd := h.accepts_iff.mp ha
      exact ⟨_, .add now id uri _ hadd, h.added hadd hp⟩
  | refused now id uri ha => exact ⟨M, .refuse now id uri (h.accepts_iff.not.mp ha), h⟩
  | known now id e he => exact ⟨_, .remove now id _ (h.entry id e he).2.1, h.removed⟩
  | unknown now id t hid hs => exact ⟨M, .unknown now id (h.none_iff.mpr hid), h.same hs⟩
  | connect client id uri t hs => exact ⟨M, .connect client id uri, h.same hs⟩
  | disconnect client t hs => exact ⟨M, .disconnect client, h.same hs⟩

theorem catalogue_simulation (gst : Gst) :
    Simulation (serviceLts gst) (catalogueLts (isValidUri gst)) Agrees := by
  rintro s ⟨c, r⟩ t M h hstep
  have hexec : c.exec gst s = (r, t) := hstep
  obtain ⟨N, hN, hA⟩ := @Agrees.step gst s M h c
  rw [hexec] at hN hA
  exact ⟨N, hN, hA⟩

end TranscodingServer
