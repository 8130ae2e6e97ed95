import TranscodingServer.Core.Lemmas.ParseUri

/-!
# What the parser makes of a url

Of an arbitrary string it records the parts of its split and loses nothing.  Of a url that was put
together from its components it recovers the components, unless it takes a `@` of the path for the
end of the credentials.
-/

namespace TranscodingServer

open Text

variable {self : UriParts} {id : Str}

/-! ## Every string -/

/-- The object holds the parts of the split. -/
structure UriSplit.Recorded (x : UriSplit) (e : UriParts) : Prop where
  username : e.username = x.username
  password : e.password = x.password
  ip : e.ip = x.ip
  port : e.port = x.port.getD (str "554")
  path : e.path = x.path.getD []

/-- Which separators split the url. -/
structure Separators where
  user : Bool
  password : Bool
  port : Bool
  path : Bool
  deriving DecidableEq

def UriSplit.separators (x : UriSplit) : Separators where
  user := x.user.isSome
  password := (x.user.bind (·.2)).isSome
  port := x.port.isSome
  path := x.path.isSome

/-- The members that hold a part of the url, and not all of it. -/
structure SameParts (e e' : UriParts) : Prop where
  username : e.username = e'.username
  password : e.password = e'.password
  ip : e.ip = e'.ip
  port : e.port = e'.port
  path : e.path = e'.path

theorem recorded_fill (x : UriSplit) (self : UriParts) (id : Str) : x.Recorded (x.fill self id) :=
  ⟨rfl, rfl, rfl, rfl, rfl⟩

theorem parseUri_split {uri : Str} {e : UriParts} (h : self.parseUri id uri = .ok e) :
    ∃ x, splitUri uri = some x ∧ e = x.fill self id := by
  rw [parseUri_eq] at h
  cases hx : splitUri uri with
  | none => simp [hx] at h
  | some x =>
      rw [hx, Except.ok.injEq] at h
      exact ⟨x, rfl, h.symm⟩

theorem UriSplit.Canonical.user_none_iff {x : UriSplit} (h : x.Canonical) :
    x.user = none ↔ '@'.toUInt8 ∉ x.rest := by
  refine ⟨h.no_user, fun hno => ?_⟩
  by_contra huser
  refine hno (List.mem_append_left _ ?_)
  rcases x with ⟨_, _ | ⟨name, _ | pass⟩, _, _, _⟩
  · exact absurd rfl huser
  · exact List.mem_append_right _ (by decide)
  · exact List.mem_append_right _ (by decide)

/-- A part that is present only with its separator is determined by what is recorded of it. -/
theorem getD_inj {part part' : Option Str} {default : Str} (h : part.isSome = part'.isSome)
    (hpart : part.getD default = part'.getD default) : part = part' := by
  cases part <;> cases part' <;> simp_all

theorem UriSplit.eq_of_recorded {x x' : UriSplit} {e e' : UriParts} (hx : x.Recorded e)
    (hx' : x'.Recorded e') (hpre : x.pre = x'.pre) (hsep : x.separators = x'.separators)
    (he : SameParts e e') : x = x' := by
  have hname : x.username = x'.username := hx.username ▸ hx'.username ▸ he.username
  have hpass : x.password = x'.password := hx.password ▸ hx'.password ▸ he.password
  have hip : x.ip = x'.ip := hx.ip ▸ hx'.ip ▸ he.ip
  have hport : x.port = x'.port :=
    getD_inj (congrArg Separators.port hsep) (hx.port ▸ hx'.port ▸ he.port)
  have hpath : x.path = x'.path :=
    getD_inj (congrArg Separators.path hsep) (hx.path ▸ hx'.path ▸ he.path)
  have huser : x.user = x'.user := by
    have hsome : x.user.isSome = x'.user.isSome := congrArg Separators.user hsep
    have hcolon : (x.user.bind (·.2)).isSome = (x'.user.bind (·.2)).isSome :=
      congrArg Separators.password hsep
    unfold UriSplit.username at hname
    unfold UriSplit.password at hpass
    cases hu : x.user with
    | none =>
        rw [hu] at hsome
        exact (Option.not_isSome_iff_eq_none.mp (by simp [← hsome])).symm
    | some u =>
        rw [hu] at hsome hcolon hname hpass
        obtain ⟨u', hu'⟩ := Option.isSome_iff_exists.mp hsome.symm
        rw [hu'] at hcolon hname hpass ⊢
        exact congrArg some (Prod.ext hname (getD_inj hcolon hpass))
  cases x
  cases x'
  simp_all

/-- The parser throws exactly where there is no `//`, and never behind the end of the string.
Otherwise the members and the separators make up the string in one way. -/
theorem parseUri_lossless (self : UriParts) (id uri : Str) :
    ((∃ exn, self.parseUri id uri = .error exn) ↔ ¬hasSlashes uri) ∧
    self.parseUri id uri ≠ .error .out_of_range ∧
    (∀ e, self.parseUri id uri = .ok e → e.full_path = uri ∧
      ∃! x : UriSplit, x.uri = uri ∧ x.Canonical ∧ x.Recorded e ∧
        (x.user = none ↔ '@'.toUInt8 ∉ x.rest)) ∧
    ∀ (uri' : Str) (e e' : UriParts) (x x' : UriSplit), x.uri = uri → x.Recorded e →
      x'.uri = uri' → x'.Recorded e' → x.pre = x'.pre → x.separators = x'.separators →
      SameParts e e' → uri = uri' := by
  refine ⟨?_, ?_, ?_, ?_⟩
  · rw [← @parseUri_ok_iff self id uri]
    cases self.parseUri id uri with
    | error exn => simp
    | ok e => simp
  · rw [parseUri_eq]
    cases splitUri uri with
    | none => simp
    | some x => simp
  · intro e he
    obtain ⟨x, hx, rfl⟩ := parseUri_split he
    have hcanonical := splitUri_canonical hx
    refine ⟨splitUri_uri hx, x, ⟨splitUri_uri hx, hcanonical, recorded_fill x self id,
      hcanonical.user_none_iff⟩, ?_⟩
    rintro y ⟨rfl, hy, _⟩
    rw [hy.splitUri, Option.some.injEq] at hx
    exact hx
  · rintro uri' e e' x x' rfl hx rfl hx' hpre hsep he
    rw [UriSplit.eq_of_recorded hx hx' hpre hsep he]

/-! ## Urls put together from their components -/

def isDigit (c : UInt8) : Bool := '0'.toUInt8 ≤ c && c ≤ '9'.toUInt8

/-- The components of a url, without the separators that may not occur in them. -/
structure RtspUri where
  scheme : Str
  user : Option (Str × Option Str)
  host : Str
  port : Option Str
  path : Option Str
  scheme_free : '/'.toUInt8 ∉ scheme
  user_free : ∀ u ∈ user, ':'.toUInt8 ∉ u.1 ∧ '@'.toUInt8 ∉ u.1 ∧ '/'.toUInt8 ∉ u.1
  pass_free : ∀ u ∈ user, ∀ pass ∈ u.2, '@'.toUInt8 ∉ pass ∧ '/'.toUInt8 ∉ pass
  host_free : ':'.toUInt8 ∉ host ∧ '@'.toUInt8 ∉ host ∧ '/'.toUInt8 ∉ host
  port_digits : ∀ p ∈ port, ∀ c ∈ p, isDigit c = true

namespace RtspUri

variable (x : RtspUri)

/-- `scheme + "://" + [user [":" + pass] + "@"] + host + [":" + port] + ["/" + path]` -/
def uri : Str :=
  x.scheme ++ str "://" ++
    (match x.user with
      | none => []
      | some (user, none) => user ++ str "@"
      | some (user, some pass) => user ++ str ":" ++ pass ++ str "@") ++
    x.host ++ x.port.elim [] (str ":" ++ ·) ++ x.path.elim [] (str "/" ++ ·)

/-- The parser sets the members to the components; what is absent is empty, the port `"554"`. -/
def Recovered (self : UriParts) (id : Str) : Prop :=
  ∃ e, self.parseUri id x.uri = .ok e ∧
    e.username = x.user.elim [] (·.1) ∧ e.password = x.user.elim [] (·.2.getD []) ∧
    e.ip = x.host ∧ e.port = x.port.getD (str "554") ∧ e.path = x.path.getD []

def split : UriSplit where
  pre := x.scheme ++ str "://"
  user := x.user
  ip := x.host
  port := x.port
  path := x.path

theorem split_uri : x.split.uri = x.uri := by
  simp only [UriSplit.uri, UriSplit.rest, uri, ← List.append_assoc]
  rfl

theorem scheme_no_slash : '/'.toUInt8 ∉ x.scheme ++ [':'.toUInt8] := by
  rw [List.mem_append, not_or]
  exact ⟨x.scheme_free, by decide⟩

/-- The first `//` is the one behind the scheme. -/
theorem split_first {q : Str} (hq : q <+: x.split.uri) (hends : str "//" <:+ q) :
    x.split.pre <+: q := by
  have hpre : x.split.pre = x.scheme ++ [':'.toUInt8] ++ ['/'.toUInt8] ++ ['/'.toUInt8] := by
    simp only [split, List.append_assoc]
    rfl
  rcases List.prefix_or_prefix_of_prefix hq (List.prefix_append x.split.pre _) with hshort | hlong
  · rw [hpre] at hshort ⊢
    rcases List.prefix_concat_iff.mp hshort with rfl | hshort
    · exact List.prefix_rfl
    · obtain ⟨a, rfl⟩ := hends
      have hsplit : a ++ str "//" = a ++ ['/'.toUInt8] ++ ['/'.toUInt8] := by
        rw [List.append_assoc]
        rfl
      rw [hsplit] at hshort
      rcases List.prefix_concat_iff.mp hshort with heq | hin
      · have hslash := (List.append_inj' heq rfl).1
        exact absurd (hslash ▸ List.mem_append_right a (List.mem_singleton_self _)) x.scheme_no_slash
      · exact absurd (hin.subset (List.mem_append_right _ (List.mem_singleton_self _))) x.scheme_no_slash
  · exact hlong

theorem port_free {sep : UInt8} (hdigit : isDigit sep = false) : ∀ p ∈ x.port, sep ∉ p := by
  intro p hp hmem
  rw [x.port_digits p hp sep hmem] at hdigit
  cases hdigit

/-- Everything in front of the path is free of `@`, if there is no user. -/
theorem no_at : '@'.toUInt8 ∉ x.split.ip ++ x.split.portText := by
  rw [List.mem_append, not_or]
  refine ⟨x.host_free.2.1, ?_⟩
  have hport := x.port_free (show isDigit '@'.toUInt8 = false by decide)
  unfold UriSplit.portText
  cases hp : x.split.port with
  | none => simp
  | some p =>
      rw [Option.elim_some, List.mem_append, not_or]
      exact ⟨by decide, hport p hp⟩

theorem split_canonical (h : x.user.isSome ∨ ∀ path ∈ x.path, '@'.toUInt8 ∉ path) :
    x.split.Canonical where
  slashes := List.suffix_append_of_suffix ⟨[':'.toUInt8], rfl⟩
  first q := x.split_first
  no_user huser := by
    have hpath : ∀ path ∈ x.path, '@'.toUInt8 ∉ path := by
      rcases h with hsome | hpath
      · rw [show x.user = none from huser] at hsome
        cases hsome
      · exact hpath
    rw [UriSplit.rest, UriSplit.userText, huser, List.nil_append, List.mem_append, not_or]
    refine ⟨x.no_at, ?_⟩
    unfold UriSplit.pathText
    cases hp : x.split.path with
    | none => simp
    | some path =>
        rw [Option.elim_some, List.mem_append, not_or]
        exact ⟨by decide, hpath path hp⟩
  username := by
    unfold UriSplit.username
    cases huser : x.split.user with
    | none => simp
    | some u => exact ⟨(x.user_free u huser).1, (x.user_free u huser).2.1⟩
  password := by
    unfold UriSplit.password
    cases huser : x.split.user with
    | none => simp
    | some u =>
        rcases u with ⟨name, _ | pass⟩
        · simp
        · exact (x.pass_free _ huser pass rfl).1
  ip := ⟨x.host_free.1, x.host_free.2.2⟩
  port := x.port_free (by decide)

/-- Another split of the same url cuts behind the first `//` too. -/
theorem split_pre {y : UriSplit} (hy : y.Canonical) (huri : y.uri = x.split.uri) :
    x.split.pre = y.pre := by
  have hshort : x.split.pre <+: y.pre :=
    x.split_first (huri ▸ List.prefix_append y.pre _) hy.slashes
  have hlong : y.pre <+: x.split.pre :=
    hy.first _ (huri ▸ List.prefix_append x.split.pre _)
      (List.suffix_append_of_suffix ⟨[':'.toUInt8], rfl⟩)
  exact hshort.eq_of_length_le hlong.length_le

theorem split_rest {path : Str} (huser : x.user = none) (hpath : x.path = some path) :
    x.split.rest = x.split.ip ++ x.split.portText ++ '/'.toUInt8 :: path := by
  rw [UriSplit.rest, UriSplit.userText, show x.split.user = none from huser, UriSplit.pathText,
    show x.split.path = some path from hpath]
  rfl

end RtspUri

/-- Credentials that are present and empty leave their separators. -/
theorem UriSplit.userText_of_empty {x : UriSplit} (huser : x.user ≠ none) (hname : x.username = [])
    (hpass : x.password = []) : '@'.toUInt8 ∈ x.userText ∧ '/'.toUInt8 ∉ x.userText := by
  rcases x with ⟨_, _ | ⟨name, _ | pass⟩, _, _, _⟩
  · exact absurd rfl huser
  · cases hname
    exact (by decide : '@'.toUInt8 ∈ str "@" ∧ '/'.toUInt8 ∉ str "@")
  · cases hname
    cases hpass
    exact (by decide : '@'.toUInt8 ∈ str ":@" ∧ '/'.toUInt8 ∉ str ":@")

/-- The components are recovered exactly when a user is present or the path is free of `@`. -/
theorem parseUri_recovers_iff (self : UriParts) (id : Str) (x : RtspUri) :
    x.Recovered self id ↔ x.user.isSome ∨ ∀ path ∈ x.path, '@'.toUInt8 ∉ path := by
  constructor
  · rintro ⟨e, he, hname, hpass, _⟩
    by_contra hno
    rw [not_or, Option.not_isSome_iff_eq_none] at hno
    obtain ⟨huser, hpath⟩ := hno
    push Not at hpath
    obtain ⟨path, hpath, hat⟩ := hpath
    obtain ⟨y, hy, rfl⟩ := parseUri_split he
    have hcanonical := splitUri_canonical hy
    have huri : y.uri = x.split.uri := (splitUri_uri hy).trans x.split_uri.symm
    have hrest : y.rest = x.split.ip ++ x.split.portText ++ '/'.toUInt8 :: path := by
      have hpre := x.split_pre hcanonical huri
      rw [UriSplit.uri, UriSplit.uri, hpre, List.append_cancel_left_eq] at huri
      rw [huri, x.split_rest huser hpath]
    -- the credentials of the parser reach over the first `/`, and hold more than their separators
    have hsome : y.user ≠ none := by
      intro hnone
      refine hcanonical.no_user hnone ?_
      rw [hrest]
      exact List.mem_append_right _ (List.mem_cons_of_mem _ hat)
    rw [huser] at hname hpass
    obtain ⟨hin, hno⟩ := UriSplit.userText_of_empty hsome hname hpass
    have hcut : x.split.ip ++ x.split.portText ++ ['/'.toUInt8] <+: y.rest :=
      ⟨path, by rw [hrest]; simp⟩
    rcases List.prefix_or_prefix_of_prefix hcut (List.prefix_append y.userText _) with hover | hinside
    · exact hno (hover.subset (by simp))
    · rcases List.mem_append.mp (hinside.subset hin) with hfront | hslash
      · exact x.no_at hfront
      · revert hslash
        decide
  · intro h
    have hsplit := (x.split_canonical h).splitUri
    rw [x.split_uri] at hsplit
    exact ⟨x.split.fill self id, by rw [parseUri_eq, hsplit], rfl, rfl, rfl, rfl, rfl⟩

/-- A `@` in the path of a url without credentials. -/
def liveAt : RtspUri where
  scheme := str "rtsp"
  user := none
  host := str "10.0.0.1"
  port := some (str "8554")
  path := some (str "live@1")
  scheme_free := by decide
  user_free := by simp
  pass_free := by simp
  host_free := by decide
  port_digits := by
    rintro p ⟨⟩
    exact List.all_eq_true.mp (by decide)

/-- The parser takes the host for the user and the last character of the path for the host. -/
theorem path_taken_for_credentials : ¬liveAt.Recovered {} (str "cam") := by
  rintro ⟨e, he, hname, _⟩
  have hparsed : (({} : UriParts).parseUri (str "cam") liveAt.uri).map (·.username) =
      .ok (str "10.0.0.1") := by decide +kernel
  rw [he] at hparsed
  cases hname.symm.trans (Except.ok.inj hparsed)

end TranscodingServer
