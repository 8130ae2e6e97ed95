import TranscodingServer.Core.UriParts

/-!
# The parts of a url

A url is cut behind its first `//`, then at the first `@`, and what is left at its first `/` and in
front of that at its first `:`.  `UriSplit` keeps the parts and the separators that were there;
`parseUri` records the parts and forgets the separators.
-/

namespace TranscodingServer

open Text

structure UriSplit where
  /-- The url up to its first `//`, the `//` included. -/
  pre : Str
  user : Option (Str × Option Str)
  ip : Str
  port : Option Str
  path : Option Str
  deriving DecidableEq

namespace UriSplit

variable (x : UriSplit)

def userText : Str :=
  match x.user with
  | none => []
  | some (name, none) => name ++ str "@"
  | some (name, some pass) => name ++ str ":" ++ pass ++ str "@"

def portText : Str := x.port.elim [] (str ":" ++ ·)

def pathText : Str := x.path.elim [] (str "/" ++ ·)

/-- The url behind its first `//`. -/
def rest : Str := x.userText ++ (x.ip ++ x.portText ++ x.pathText)

def uri : Str := x.pre ++ x.rest

/-! What `parseUri` makes of the parts. -/

def username : Str := x.user.elim [] (·.1)

def password : Str := x.user.elim [] (·.2.getD [])

def fill (self : UriParts) (id : Str) : UriParts :=
  { self with
    full_path := x.uri
    username := x.username
    password := x.password
    path := x.path.getD []
    ip := x.ip
    port := x.port.getD (str "554")
    id := id
    mount_points :=
      { uri_first := str "/" ++ id ++ str "/first"
        uri_second := str "/" ++ id ++ str "/second"
        uri_third := str "/" ++ id ++ str "/third"
        uri_fourth := str "/" ++ id ++ str "/fourth" } }

end UriSplit

/-! ## Splitting -/

/-- The user, and what stands behind the `@`. -/
def splitUser (rest : Str) : Option (Str × Option Str) × Str :=
  match cutAt '@'.toUInt8 rest with
  | none => (none, rest)
  | some (user, tail) =>
    match cutAt ':'.toUInt8 user with
    | none => (some (user, none), tail)
    | some (name, pass) => (some (name, some pass), tail)

def splitOff (sep : UInt8) (s : Str) : Str × Option Str :=
  match cutAt sep s with
  | none => (s, none)
  | some (a, b) => (a, some b)

def splitRest (pre rest : Str) : UriSplit :=
  let user := splitUser rest
  let address := splitOff '/'.toUInt8 user.2
  let ip := splitOff ':'.toUInt8 address.1
  { pre := pre, user := user.1, ip := ip.1, port := ip.2, path := address.2 }

def splitUri (uri : Str) : Option UriSplit :=
  (find uri (str "//") 0).map fun pos => splitRest (uri.take (pos + 2)) (uri.drop (pos + 2))

/-! ## The parser splits -/

theorem cut_ok {s : Str} {pos : Nat} (len : Nat) (h : pos ≤ s.length) :
    cut s pos len = .ok ((s.drop pos).take len) := by
  rw [cut, substr_of_le len h]; rfl

theorem cutFrom_ok {s : Str} {pos : Nat} (h : pos ≤ s.length) :
    cutFrom s pos = .ok (s.drop pos) := by
  rw [cutFrom, substrFrom_of_le h]; rfl

theorem sizeSub_add_left (a b : Nat) : sizeSub (a + b) a = b := by
  simp [sizeSub]

/-- A user without a colon; a colon of the whole url, if there is one, stands behind the `@`. -/
theorem parseUser_name (p : Str) {user : Str} (tail : Str) (hat : '@'.toUInt8 ∉ user)
    (hcolon : ':'.toUInt8 ∉ user) :
    parseUser (p ++ (user ++ '@'.toUInt8 :: tail)) p.length =
      .ok (user, [], p.length + user.length + 1) := by
  have hfind := find_singleton p (user ++ '@'.toUInt8 :: tail)
  have hcut : cut (p ++ (user ++ '@'.toUInt8 :: tail)) p.length
      (sizeSub (p.length + user.length) p.length) = .ok user := by
    rw [cut_ok _ (by simp), sizeSub_add_left]
    simp
  unfold parseUser
  rw [show str "@" = ['@'.toUInt8] from rfl, show str ":" = [':'.toUInt8] from rfl, hfind, hfind,
    cutAt_append tail hat, cutAt_append_of_not_mem _ hcolon]
  cases cutAt ':'.toUInt8 ('@'.toUInt8 :: tail) with
  | none =>
      simp only [Option.map_some, Option.map_none, hcut]
      rfl
  | some y =>
      have hbehind : ¬p.length + (user ++ y.1).length < p.length + user.length := by simp
      simp only [Option.map_some, hbehind, ↓reduceIte, hcut]
      rfl

theorem parseUser_password (p : Str) {name pass : Str} (tail : Str)
    (hat : '@'.toUInt8 ∉ name ++ ':'.toUInt8 :: pass) (hcolon : ':'.toUInt8 ∉ name) :
    parseUser (p ++ (name ++ ':'.toUInt8 :: pass ++ '@'.toUInt8 :: tail)) p.length =
      .ok (name, pass, p.length + (name ++ ':'.toUInt8 :: pass).length + 1) := by
  have hfind := find_singleton p (name ++ ':'.toUInt8 :: pass ++ '@'.toUInt8 :: tail)
  have hname : cut (p ++ (name ++ ':'.toUInt8 :: pass ++ '@'.toUInt8 :: tail)) p.length
      (sizeSub (p.length + name.length) p.length) = .ok name := by
    rw [cut_ok _ (by simp), sizeSub_add_left]
    simp
  have hpass : cut (p ++ (name ++ ':'.toUInt8 :: pass ++ '@'.toUInt8 :: tail))
      (p.length + name.length + 1)
      (sizeSub (sizeSub (p.length + (name ++ ':'.toUInt8 :: pass).length) (p.length + name.length)) 1) =
        .ok pass := by
    have hlen : sizeSub (sizeSub (p.length + (name ++ ':'.toUInt8 :: pass).length)
        (p.length + name.length)) 1 = pass.length := by
      rw [List.length_append, List.length_cons, ← Nat.add_assoc, sizeSub_add_left, Nat.add_comm,
        sizeSub_add_left]
    have hdrop : (p ++ (name ++ ':'.toUInt8 :: pass ++ '@'.toUInt8 :: tail)).drop
        (p.length + name.length + 1) = pass ++ '@'.toUInt8 :: tail := by
      rw [List.append_assoc, List.cons_append, drop_append_sep]
    have hle : p.length + name.length + 1 ≤
        (p ++ (name ++ ':'.toUInt8 :: pass ++ '@'.toUInt8 :: tail)).length := by
      simp only [List.length_append, List.length_cons]
      omega
    rw [hlen, cut_ok _ hle, hdrop, List.take_left]
  have hbefore : p.length + name.length < p.length + (name ++ ':'.toUInt8 :: pass).length := by
    simp
  unfold parseUser
  rw [show str "@" = ['@'.toUInt8] from rfl, show str ":" = [':'.toUInt8] from rfl, hfind, hfind,
    cutAt_append tail hat, List.append_assoc, List.cons_append, cutAt_append _ hcolon]
  rw [List.append_assoc, List.cons_append] at hname hpass
  simp only [Option.map_some, hbefore, ↓reduceIte, hname, hpass]
  rfl

theorem parseUser_eq (p rest : Str) :
    ∃ pos, pos ≤ (p ++ rest).length ∧ (p ++ rest).drop pos = (splitUser rest).2 ∧
      parseUser (p ++ rest) p.length =
        .ok ((splitUser rest).1.elim [] (·.1), (splitUser rest).1.elim [] (·.2.getD []), pos) := by
  unfold splitUser
  cases hat : cutAt '@'.toUInt8 rest with
  | none =>
      have hfind := find_singleton p rest '@'.toUInt8
      rw [hat] at hfind
      refine ⟨p.length, by simp, by simp, ?_⟩
      unfold parseUser
      rw [show str "@" = ['@'.toUInt8] from rfl, hfind]
      rfl
  | some x =>
      obtain ⟨user, tail⟩ := x
      obtain ⟨rfl, hno⟩ := cutAt_eq_some hat
      have hle : p.length + user.length + 1 ≤ (p ++ (user ++ '@'.toUInt8 :: tail)).length := by
        simp only [List.length_append, List.length_cons]
        omega
      refine ⟨p.length + user.length + 1, hle, ?_⟩
      cases hcolon : cutAt ':'.toUInt8 user with
      | none =>
          simp only [hcolon]
          exact ⟨drop_append_sep p user _ tail, parseUser_name p tail hno (cutAt_eq_none hcolon)⟩
      | some y =>
          obtain ⟨name, pass⟩ := y
          obtain ⟨rfl, hname⟩ := cutAt_eq_some hcolon
          simp only [hcolon]
          exact ⟨drop_append_sep p _ _ tail, parseUser_password p tail hno hname⟩

theorem cut_of_cutAt {sep : UInt8} {s a b : Str} (h : cutAt sep s = some (a, b)) :
    cut s 0 a.length = .ok a ∧ cutFrom s (a.length + 1) = .ok b := by
  obtain ⟨rfl, _⟩ := cutAt_eq_some h
  have hdrop := drop_append_sep [] a sep b
  rw [List.nil_append, List.length_nil, Nat.zero_add] at hdrop
  constructor
  · rw [cut_ok _ (Nat.zero_le _), List.drop_zero, List.take_left]
  · rw [cutFrom_ok (by simp), hdrop]

theorem parseRest_eq (rest : Str) :
    parseRest rest = .ok ((splitOff '/'.toUInt8 rest).1, (splitOff '/'.toUInt8 rest).2.getD []) := by
  unfold parseRest splitOff
  rw [find_zero, show str "/" = ['/'.toUInt8] from rfl, search_singleton]
  cases hcut : cutAt '/'.toUInt8 rest with
  | none => rfl
  | some x =>
      obtain ⟨a, b⟩ := x
      simp only [Option.map_some, (cut_of_cutAt hcut).1, (cut_of_cutAt hcut).2]
      rfl

theorem parseAddress_eq (address : Str) :
    parseAddress address = .ok ((splitOff ':'.toUInt8 address).1,
      (splitOff ':'.toUInt8 address).2.getD (str "554")) := by
  unfold parseAddress splitOff
  rw [find_zero, show str ":" = [':'.toUInt8] from rfl, search_singleton]
  cases hcut : cutAt ':'.toUInt8 address with
  | none => rfl
  | some x =>
      obtain ⟨a, b⟩ := x
      simp only [Option.map_some, (cut_of_cutAt hcut).1, (cut_of_cutAt hcut).2]
      rfl

/-! ## The parts make up the url -/

theorem splitOff_eq (sep : UInt8) (s : Str) :
    (splitOff sep s).1 ++ (splitOff sep s).2.elim [] ([sep] ++ ·) = s := by
  unfold splitOff
  cases hcut : cutAt sep s with
  | none => simp
  | some x =>
      obtain ⟨a, b⟩ := x
      exact (cutAt_eq_some hcut).1.symm

theorem splitUser_eq (rest : Str) (x : UriSplit) (h : x.user = (splitUser rest).1) :
    x.userText ++ (splitUser rest).2 = rest := by
  unfold UriSplit.userText
  rw [h]
  unfold splitUser
  cases hat : cutAt '@'.toUInt8 rest with
  | none => rfl
  | some y =>
      obtain ⟨user, tail⟩ := y
      obtain ⟨rfl, _⟩ := cutAt_eq_some hat
      cases hcolon : cutAt ':'.toUInt8 user with
      | none =>
          simp only [hcolon, List.append_assoc]
          rfl
      | some z =>
          obtain ⟨name, pass⟩ := z
          obtain ⟨rfl, _⟩ := cutAt_eq_some hcolon
          simp only [hcolon, List.append_assoc]
          rfl

theorem splitRest_rest (pre rest : Str) : (splitRest pre rest).rest = rest := by
  have hpath := splitOff_eq '/'.toUInt8 (splitUser rest).2
  have hport := splitOff_eq ':'.toUInt8 (splitOff '/'.toUInt8 (splitUser rest).2).1
  have htail : (splitRest pre rest).ip ++ (splitRest pre rest).portText ++
      (splitRest pre rest).pathText = (splitUser rest).2 :=
    (congrArg (· ++ _) hport).trans hpath
  rw [UriSplit.rest, htail]
  exact splitUser_eq rest (splitRest pre rest) rfl

theorem splitUri_uri {uri : Str} {x : UriSplit} (h : splitUri uri = some x) : x.uri = uri := by
  obtain ⟨pos, _, rfl⟩ := Option.map_eq_some_iff.mp h
  rw [UriSplit.uri, splitRest_rest]
  exact List.take_append_drop (pos + 2) uri

theorem parseUri_eq (self : UriParts) (id uri : Str) :
    self.parseUri id uri = match splitUri uri with
      | some x => .ok (x.fill self id)
      | none => .error (.runtime_error (str "URI does not contain '//' for username")) := by
  unfold UriParts.parseUri
  cases hslashes : find uri (str "//") 0 with
  | none => simp [splitUri, hslashes]; rfl
  | some pos =>
      have hlen : pos + 2 ≤ uri.length := (find_bounds hslashes).2
      obtain ⟨pos', hpos', htail, huser⟩ := parseUser_eq (uri.take (pos + 2)) (uri.drop (pos + 2))
      rw [List.take_append_drop, List.length_take_of_le hlen] at huser
      rw [List.take_append_drop] at hpos' htail
      cases hx : splitUri uri with
      | none => simp [splitUri, hslashes] at hx
      | some x =>
          have huri := splitUri_uri hx
          rw [splitUri, hslashes, Option.map_some, Option.some.injEq] at hx
          simp only [huser, cutFrom_ok hpos', htail, parseRest_eq, parseAddress_eq, bind, Except.bind,
            UriSplit.fill, huri]
          subst hx
          rfl

/-! ## Canonical splits -/

/-- The separators that split the url occur in the parts only where they do not split. -/
structure UriSplit.Canonical (x : UriSplit) : Prop where
  slashes : str "//" <:+ x.pre
  first : ∀ q, q <+: x.uri → str "//" <:+ q → x.pre <+: q
  no_user : x.user = none → '@'.toUInt8 ∉ x.rest
  username : ':'.toUInt8 ∉ x.username ∧ '@'.toUInt8 ∉ x.username
  password : '@'.toUInt8 ∉ x.password
  ip : ':'.toUInt8 ∉ x.ip ∧ '/'.toUInt8 ∉ x.ip
  port : ∀ p ∈ x.port, '/'.toUInt8 ∉ p

theorem splitOff_free (sep : UInt8) (s : Str) : sep ∉ (splitOff sep s).1 := by
  unfold splitOff
  cases hcut : cutAt sep s with
  | none => exact cutAt_eq_none hcut
  | some x => exact (cutAt_eq_some hcut).2

theorem splitOff_append {sep : UInt8} {a : Str} (part : Option Str) (h : sep ∉ a) :
    splitOff sep (a ++ part.elim [] ([sep] ++ ·)) = (a, part) := by
  unfold splitOff
  cases part with
  | none =>
      rw [Option.elim_none, List.append_nil, cutAt_of_not_mem h]
  | some b =>
      have hcut := cutAt_append b h
      simp only [Option.elim_some, List.cons_append, List.nil_append, hcut]

theorem splitUser_free (rest : Str) (x : UriSplit) (h : x.user = (splitUser rest).1) :
    (x.user = none → '@'.toUInt8 ∉ rest) ∧
      (':'.toUInt8 ∉ x.username ∧ '@'.toUInt8 ∉ x.username) ∧ '@'.toUInt8 ∉ x.password := by
  unfold UriSplit.username UriSplit.password
  rw [h]
  unfold splitUser
  cases hat : cutAt '@'.toUInt8 rest with
  | none => simp [cutAt_eq_none hat]
  | some y =>
      obtain ⟨user, tail⟩ := y
      obtain ⟨rfl, hno⟩ := cutAt_eq_some hat
      cases hcolon : cutAt ':'.toUInt8 user with
      | none => simp [hcolon, cutAt_eq_none hcolon, hno]
      | some z =>
          obtain ⟨name, pass⟩ := z
          obtain ⟨rfl, hname⟩ := cutAt_eq_some hcolon
          simp only [List.mem_append, List.mem_cons, not_or] at hno
          simp [hcolon, hname, hno.1, hno.2.2]

theorem splitUser_append (x : UriSplit) (tail : Str)
    (hno : x.user = none → '@'.toUInt8 ∉ tail)
    (hname : ':'.toUInt8 ∉ x.username ∧ '@'.toUInt8 ∉ x.username)
    (hpass : '@'.toUInt8 ∉ x.password) : splitUser (x.userText ++ tail) = (x.user, tail) := by
  rcases x with ⟨_, _ | ⟨name, _ | pass⟩, _, _, _⟩
  · simp [UriSplit.userText, splitUser, cutAt_of_not_mem (hno rfl)]
  · change ':'.toUInt8 ∉ name ∧ '@'.toUInt8 ∉ name at hname
    have htext : name ++ str "@" ++ tail = name ++ '@'.toUInt8 :: tail := by
      rw [List.append_assoc]; rfl
    rw [splitUser, UriSplit.userText, htext, cutAt_append tail hname.2]
    simp only [cutAt_of_not_mem hname.1]
  · change ':'.toUInt8 ∉ name ∧ '@'.toUInt8 ∉ name at hname
    have htext : name ++ str ":" ++ pass ++ str "@" ++ tail =
        name ++ ':'.toUInt8 :: pass ++ '@'.toUInt8 :: tail := by
      simp only [List.append_assoc]; rfl
    have hat : '@'.toUInt8 ∉ name ++ ':'.toUInt8 :: pass := by
      rw [List.mem_append, List.mem_cons, not_or, not_or]
      exact ⟨hname.2, by decide, hpass⟩
    rw [splitUser, UriSplit.userText, htext, cutAt_append tail hat]
    simp only [cutAt_append pass hname.1]

/-- The parts of a url are canonical. -/
theorem splitUri_canonical {uri : Str} {x : UriSplit} (h : splitUri uri = some x) : x.Canonical := by
  have huri := splitUri_uri h
  obtain ⟨pos, hpos, rfl⟩ := Option.map_eq_some_iff.mp h
  rw [find_zero, search_eq_some_iff] at hpos
  obtain ⟨_, hslashes, hfirst⟩ := hpos
  obtain ⟨hno, hname, hpass⟩ := splitUser_free (uri.drop (pos + 2))
    (splitRest (uri.take (pos + 2)) (uri.drop (pos + 2))) rfl
  have haddress := splitOff_free '/'.toUInt8 (splitUser (uri.drop (pos + 2))).2
  have hparts := splitOff_eq ':'.toUInt8 (splitOff '/'.toUInt8 (splitUser (uri.drop (pos + 2))).2).1
  rw [← hparts, List.mem_append, not_or] at haddress
  exact {
    slashes := hslashes
    first := by rw [huri]; exact hfirst
    no_user := by rw [splitRest_rest]; exact hno
    username := hname
    password := hpass
    ip := ⟨splitOff_free _ _, haddress.1⟩
    port := by
      intro p hp hmem
      change (splitOff ':'.toUInt8 _).2 = some p at hp
      rw [hp] at haddress
      exact haddress.2 (List.mem_cons_of_mem _ hmem) }

theorem UriSplit.Canonical.splitUri {x : UriSplit} (h : x.Canonical) :
    splitUri x.uri = some x := by
  have hlen : x.pre.length - 2 + 2 = x.pre.length := Nat.sub_add_cancel h.slashes.length_le
  have htake : x.uri.take (x.pre.length - 2 + 2) = x.pre := by
    rw [hlen]
    exact List.take_left
  have hdrop : x.uri.drop (x.pre.length - 2 + 2) = x.rest := by
    rw [hlen]
    exact List.drop_left
  have hfind : find x.uri (str "//") 0 = some (x.pre.length - 2) := by
    rw [find_zero, search_eq_some_iff, show (str "//").length = 2 from rfl, htake, hlen]
    exact ⟨by simp [UriSplit.uri], h.slashes, h.first⟩
  have huser := splitUser_append x (x.ip ++ x.portText ++ x.pathText)
    (fun hnone hmem => h.no_user hnone (List.mem_append_right _ hmem)) h.username h.password
  have haddress : '/'.toUInt8 ∉ x.ip ++ x.portText := by
    rw [List.mem_append, not_or]
    refine ⟨h.ip.2, fun hmem => ?_⟩
    rw [UriSplit.portText] at hmem
    cases hport : x.port with
    | none => simp [hport] at hmem
    | some p =>
        rw [hport] at hmem
        rcases List.mem_append.mp hmem with hcolon | hp
        · revert hcolon; decide
        · exact h.port p hport hp
  rw [TranscodingServer.splitUri, hfind, Option.map_some, htake, hdrop, splitRest, UriSplit.rest, huser]
  have hpath : splitOff '/'.toUInt8 (x.ip ++ x.portText ++ x.pathText) = (x.ip ++ x.portText, x.path) :=
    splitOff_append x.path haddress
  have hport : splitOff ':'.toUInt8 (x.ip ++ x.portText) = (x.ip, x.port) :=
    splitOff_append x.port h.ip.1
  simp only [hpath, hport]

end TranscodingServer
