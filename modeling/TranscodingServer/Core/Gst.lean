import Mathlib.Data.List.Nodup
import Mathlib.Data.List.TakeWhile
import TranscodingServer.Core.UriParts

/-!
# What the service uses of GStreamer

Objects are their identities, a pointer is an `Option`.  GStreamer is given by the structure `Gst`:
the functions that the service calls, with what their documentation promises.  The mount table is a
collection of (path, factory) entries, so only its entries up to order are promised.
-/

namespace TranscodingServer

/-- The bytes that a C function sees of a `std::string` passed through `c_str()`. -/
def c_str (s : Str) : Str := s.takeWhile (· ≠ 0)

theorem c_str_no_nul (s : Str) : 0 ∉ c_str s := by
  intro h
  simpa using List.mem_takeWhile_imp h

theorem c_str_of_no_nul {s : Str} (h : 0 ∉ s) : c_str s = s := by
  rw [c_str, List.takeWhile_eq_self_iff]
  intro c hc
  simpa using fun h0 : c = 0 => h (h0 ▸ hc)

abbrev GstRTSPClient := Nat
abbrev GstRTSPConnection := Nat

structure GstRTSPMediaFactory where
  object : Nat
  launch : Str
  shared : Bool
  deriving DecidableEq

abbrev GstRTSPMountPoints := List (Str × GstRTSPMediaFactory)

structure Gst where
  uri_is_valid : Str → Bool
  add_factory : GstRTSPMountPoints → Str → GstRTSPMediaFactory → GstRTSPMountPoints
  remove_factory : GstRTSPMountPoints → Str → GstRTSPMountPoints
  /-- The connection of a client, always the same one. -/
  get_connection : GstRTSPClient → Option GstRTSPConnection
  add_factory_perm : ∀ t path f, (add_factory t path f).Perm ((path, f) :: t)
  remove_factory_absent : ∀ t path, (∀ f, (path, f) ∉ t) → (remove_factory t path).Perm t
  remove_factory_present : ∀ t path, (∃ f, (path, f) ∈ t) →
    ∃ f, (path, f) ∈ t ∧ (remove_factory t path).Perm (t.erase (path, f))

namespace Gst

variable (gst : Gst) {t : GstRTSPMountPoints} {path : Str} {f : GstRTSPMediaFactory}

theorem length_add_factory : (gst.add_factory t path f).length = t.length + 1 := by
  rw [(gst.add_factory_perm t path f).length_eq, List.length_cons]

theorem mem_of_mem_remove_factory {e : Str × GstRTSPMediaFactory}
    (h : e ∈ gst.remove_factory t path) : e ∈ t := by
  by_cases hp : ∃ f, (path, f) ∈ t
  · obtain ⟨f, _, hperm⟩ := gst.remove_factory_present t path hp
    exact List.mem_of_mem_erase (hperm.mem_iff.mp h)
  · have hno : ∀ f, (path, f) ∉ t := fun f hf => hp ⟨f, hf⟩
    exact (gst.remove_factory_absent t path hno).mem_iff.mp h

/-- Whatever entries share a path, `remove_factory` takes one of them away. -/
theorem remove_factory_paths (h : path ∈ t.map Prod.fst) :
    (path :: (gst.remove_factory t path).map Prod.fst).Perm (t.map Prod.fst) := by
  obtain ⟨⟨_, f⟩, hf, rfl⟩ := List.mem_map.mp h
  obtain ⟨g, hg, hperm⟩ := gst.remove_factory_present t _ ⟨f, hf⟩
  exact ((hperm.map Prod.fst).cons _).trans ((List.perm_cons_erase hg).map Prod.fst).symm

theorem remove_factories_paths {ι : Type} (l : List ι) (mount : ι → Str) (rest : List Str)
    (h : (t.map Prod.fst).Perm (l.map mount ++ rest)) :
    ((l.foldl (fun t i => gst.remove_factory t (mount i)) t).map Prod.fst).Perm rest := by
  induction l generalizing t with
  | nil => exact h
  | cons i l ih =>
      have hmem : mount i ∈ t.map Prod.fst := h.mem_iff.mpr (by simp)
      exact ih ((gst.remove_factory_paths hmem).trans h).cons_inv

/-- Where no path has two entries, `remove_factory` removes the entry of its path and no other. -/
theorem remove_factory_perm (h : (t.map Prod.fst).Nodup) :
    (gst.remove_factory t path).Perm (t.filter (·.1 ≠ path)) := by
  by_cases hp : ∃ f, (path, f) ∈ t
  · obtain ⟨f, hf, hperm⟩ := gst.remove_factory_present t path hp
    refine hperm.trans (.of_eq ?_)
    rw [(List.Nodup.of_map _ h).erase_eq_filter]
    refine List.filter_congr ?_
    rintro ⟨p, g⟩ hg
    by_cases hpath : p = path
    · subst hpath
      have hgf : (p, g) = (p, f) := List.inj_on_of_nodup_map h hg hf rfl
      simp [hgf]
    · have hne : (p, g) ≠ (path, f) := fun he => hpath (by rw [Prod.mk.injEq] at he; exact he.1)
      simp [hpath, hne]
  · have hno : ∀ f, (path, f) ∉ t := fun f hf => hp ⟨f, hf⟩
    refine (gst.remove_factory_absent t path hno).trans (.of_eq ?_)
    rw [eq_comm, List.filter_eq_self]
    rintro ⟨p, g⟩ hg
    by_cases hpath : p = path
    · exact absurd (hpath ▸ hg) (hno g)
    · simpa using hpath

theorem remove_factories_perm {ι : Type} (l : List ι) (mount : ι → Str) (t : GstRTSPMountPoints)
    (h : (t.map Prod.fst).Nodup) :
    (l.foldl (fun t i => gst.remove_factory t (mount i)) t).Perm
      (t.filter (·.1 ∉ l.map mount)) := by
  induction l generalizing t with
  | nil => simp
  | cons i l ih =>
      have hperm := @remove_factory_perm gst t (mount i) h
      have hnodup : ((gst.remove_factory t (mount i)).map Prod.fst).Nodup :=
        (hperm.map Prod.fst).nodup_iff.mpr (h.sublist (List.filter_sublist.map _))
      refine (ih _ hnodup).trans ((hperm.filter _).trans (.of_eq ?_))
      rw [List.filter_filter]
      refine List.filter_congr fun e _ => ?_
      simp [Bool.and_comm]

end Gst

/-- `gst_uri_is_valid`: a letter, one or more characters of a scheme, a colon, anything. -/
def gst_uri_is_valid : Str → Bool
  | c :: d :: rest =>
    isLetter c && isScheme d && (rest.dropWhile isScheme).head? == some ':'.toUInt8
  | _ => false
where
  isLetter (c : UInt8) : Bool := ('A'.toUInt8 ≤ c && c ≤ 'Z'.toUInt8) || ('a'.toUInt8 ≤ c && c ≤ 'z'.toUInt8)
  isScheme (c : UInt8) : Bool :=
    isLetter c || ('0'.toUInt8 ≤ c && c ≤ '9'.toUInt8) || (str "+-.").contains c

/-- A mount table that is a list in the order of its insertions, the newest entry first; a client's
connection carries its client's number. -/
def Gst.sequence : Gst where
  uri_is_valid := gst_uri_is_valid
  add_factory t path f := (path, f) :: t
  remove_factory t path := t.eraseP (·.1 == path)
  get_connection c := some c
  add_factory_perm _ _ _ := .refl _
  remove_factory_absent t path h := by
    rw [List.eraseP_of_forall_not]
    rintro ⟨p, f⟩ hmem hp
    exact h f (by simpa [← beq_iff_eq.mp hp] using hmem)
  remove_factory_present t path := by
    rintro ⟨f, hf⟩
    obtain ⟨⟨p, g⟩, pre, post, hpre, hp, rfl, he⟩ :=
      List.exists_of_eraseP (p := (·.1 == path)) hf (by simp)
    have hpath : p = path := by simpa using hp
    subst hpath
    refine ⟨g, by simp, ?_⟩
    rw [he, List.erase_append_right _ (fun hmem => hpre _ hmem (by simp))]
    simp

instance : Inhabited Gst := ⟨Gst.sequence⟩

end TranscodingServer
