import TranscodingServer.Uri.Split

/-!
# `parseUri` on every string, and the names of the mount points

The parser throws only where there is no `//`; none of its cuts starts behind the end.
-/

namespace TranscodingServer

open Text

/-! ## The outcome of `parseUri` -/

def Profile.name : Profile → Str
  | .first => str "first"
  | .second => str "second"
  | .third => str "third"
  | .fourth => str "fourth"

/-- `"/" + id + "/" + p` -/
def mountPoint (id : Str) (p : Profile) : Str := str "/" ++ id ++ str "/" ++ p.name

theorem splitUri_isSome_iff {uri : Str} : (splitUri uri).isSome ↔ hasSlashes uri := by
  rw [splitUri, Option.isSome_map, find_isSome_iff]
  rfl

theorem parseUri_throws {self : UriParts} {id uri : Str} (h : ¬hasSlashes uri) :
    self.parseUri id uri =
      .error (.runtime_error (str "URI does not contain '//' for username")) := by
  rw [← splitUri_isSome_iff, Option.not_isSome_iff_eq_none] at h
  rw [parseUri_eq, h]

/-- With a `//` the parser ends, and sets these members whatever the uri looks like. -/
theorem parseUri_ok {self : UriParts} {id uri : Str} (h : hasSlashes uri) :
    ∃ parts, self.parseUri id uri = .ok parts ∧
      parts.full_path = uri ∧ parts.id = id ∧ parts.ready_time = self.ready_time ∧
      ∀ p, parts.mount_points.get p = mountPoint id p := by
  obtain ⟨x, hx⟩ := Option.isSome_iff_exists.mp (splitUri_isSome_iff.mpr h)
  refine ⟨x.fill self id, by rw [parseUri_eq, hx], splitUri_uri hx, rfl, rfl, ?_⟩
  intro p
  cases p <;> simp [UriSplit.fill, MountPoints.get, Profile.pick, mountPoint, Profile.name] <;> rfl

theorem parseUri_ok_iff {self : UriParts} {id uri : Str} :
    (∃ parts, self.parseUri id uri = .ok parts) ↔ hasSlashes uri := by
  constructor
  · rintro ⟨parts, h⟩
    by_contra hs
    rw [parseUri_throws hs] at h
    cases h
  · intro h
    obtain ⟨parts, hp, _⟩ := @parseUri_ok self id uri h
    exact ⟨parts, hp⟩

theorem parseUri_fields {self parts : UriParts} {id uri : Str}
    (h : self.parseUri id uri = .ok parts) :
    parts.full_path = uri ∧ parts.id = id ∧ parts.ready_time = self.ready_time ∧
      ∀ p, parts.mount_points.get p = mountPoint id p := by
  obtain ⟨parts', h', hf⟩ := @parseUri_ok self id uri (parseUri_ok_iff.mp ⟨parts, h⟩)
  rw [h] at h'
  cases h'
  exact hf

example : (({} : UriParts).parseUri (str "cam") (str "rtsp://admin:pw@10.0.0.1:8554/live")).map
    (fun e => (e.username, e.password, e.ip, e.port, e.path)) =
      .ok (str "admin", str "pw", str "10.0.0.1", str "8554", str "live") := by decide +kernel

/-! ## Mount points -/

theorem Profile.name_no_slash (p : Profile) : '/'.toUInt8 ∉ p.name := by
  cases p <;> decide

theorem Profile.name_injective {p q : Profile} (h : p.name = q.name) : p = q := by
  cases p <;> cases q <;> first | rfl | exact absurd h (by decide)

theorem mountPoint_eq (id : Str) (p : Profile) :
    mountPoint id p = (str "/" ++ id) ++ '/'.toUInt8 :: p.name := by
  rw [mountPoint, List.append_assoc]
  rfl

/-- The name of a mount point says which stream and which profile it is for. -/
theorem mountPoint_injective {id id' : Str} {p p' : Profile}
    (h : mountPoint id p = mountPoint id' p') : id = id' ∧ p = p' := by
  rw [mountPoint_eq, mountPoint_eq] at h
  obtain ⟨hid, hp⟩ := append_sep_inj p.name_no_slash p'.name_no_slash h
  exact ⟨List.append_cancel_left hid, Profile.name_injective hp⟩

theorem mountPoint_inj {id id' : Str} {p p' : Profile} :
    mountPoint id p = mountPoint id' p' ↔ id = id' ∧ p = p' :=
  ⟨mountPoint_injective, fun ⟨h, h'⟩ => by rw [h, h']⟩

end TranscodingServer
