import Mathlib.Algebra.Group.Nat.Defs
import TranscodingServer.Library.Text

/-!
# `UriParts` and its parser (`UriParts.h`, `UriParts.cpp`)

A `std::string` is its list of bytes, NUL bytes included.  Sizes and positions are `Nat`; the
differences that the parser takes as lengths are those of `size_t`.
-/

namespace TranscodingServer

open Text

abbrev Str := List UInt8

def str (s : String) : Str := s.toByteArray.data.toList

/-- The exceptions of the modelled code, all derived from `std::exception`. -/
inductive Exn
  | runtime_error (what : Str)
  | out_of_range
  | bad_alloc
  deriving DecidableEq

inductive Profile
  | first
  | second
  | third
  | fourth
  deriving DecidableEq

def Profile.all : List Profile := [.first, .second, .third, .fourth]

def Profile.pick {α : Type} (first second third fourth : α) : Profile → α
  | .first => first
  | .second => second
  | .third => third
  | .fourth => fourth

structure MountPoints where
  uri_first : Str := []
  uri_second : Str := []
  uri_third : Str := []
  uri_fourth : Str := []
  deriving DecidableEq

structure UriParts where
  username : Str := []
  password : Str := []
  ip : Str := []
  port : Str := []
  path : Str := []
  id : Str := []
  full_path : Str := []
  ready_time : Str := []
  mount_points : MountPoints := {}
  deriving DecidableEq

def MountPoints.get (m : MountPoints) : Profile → Str :=
  Profile.pick m.uri_first m.uri_second m.uri_third m.uri_fourth

/-- Subtraction of `size_t`, which wraps around below zero. -/
def sizeSub (a b : Nat) : Nat := if b ≤ a then a - b else 2 ^ 64 - (b - a)

def cut (s : Str) (pos len : Nat) : Except Exn Str :=
  (substr s pos len).elim (.error .out_of_range) .ok

def cutFrom (s : Str) (pos : Nat) : Except Exn Str :=
  (substrFrom s pos).elim (.error .out_of_range) .ok

/-- The user name, the password and the position behind them: `parseUri`, from `atPos` on. -/
def parseUser (uri : Str) (pos : Nat) : Except Exn (Str × Str × Nat) :=
  match find uri (str "@") pos with
  | some atPos =>
    match find uri (str ":") pos with
    | some colonPos =>
      if colonPos < atPos then do
        let username ← cut uri pos (sizeSub colonPos pos)
        let password ← cut uri (colonPos + 1) (sizeSub (sizeSub atPos colonPos) 1)
        return (username, password, atPos + 1)
      else do
        let username ← cut uri pos (sizeSub atPos pos)
        return (username, str "", atPos + 1)
    | none => do
      let username ← cut uri pos (sizeSub atPos pos)
      return (username, str "", atPos + 1)
  | none => return (str "", str "", pos)

def parseRest (rest : Str) : Except Exn (Str × Str) :=
  match find rest (str "/") 0 with
  | some slashPos => do
    let address ← cut rest 0 slashPos
    let path ← cutFrom rest (slashPos + 1)
    return (address, path)
  | none => return (rest, str "")

def parseAddress (address : Str) : Except Exn (Str × Str) :=
  match find address (str ":") 0 with
  | some colonPos => do
    let ip ← cut address 0 colonPos
    let port ← cutFrom address (colonPos + 1)
    return (ip, port)
  | none => return (address, str "554")

/-- `UriParts::parseUri`, on the object `self`. -/
def UriParts.parseUri (self : UriParts) (iid uri : Str) : Except Exn UriParts :=
  match find uri (str "//") 0 with
  | none => throw (.runtime_error (str "URI does not contain '//' for username"))
  | some pos => do
    let (username, password, pos) ← parseUser uri (pos + 2)
    let rest ← cutFrom uri pos
    let (address, path) ← parseRest rest
    let (ip, port) ← parseAddress address
    return { self with
      full_path := uri
      username := username
      password := password
      path := path
      ip := ip
      port := port
      id := iid
      mount_points :=
        { uri_first := str "/" ++ iid ++ str "/first"
          uri_second := str "/" ++ iid ++ str "/second"
          uri_third := str "/" ++ iid ++ str "/third"
          uri_fourth := str "/" ++ iid ++ str "/fourth" } }

/-- The `//` without which `parseUri` throws. -/
def hasSlashes (uri : Str) : Prop := str "//" <:+: uri

instance (uri : Str) : Decidable (hasSlashes uri) :=
  decidable_of_iff (find uri (str "//") 0).isSome find_isSome_iff

end TranscodingServer
