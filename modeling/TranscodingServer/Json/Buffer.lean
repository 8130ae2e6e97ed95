import TranscodingServer.Json.Lemmas.Strings

/-!
# Strings in the buffer (`rvalue::unescape`, `rvalue::s`)

`load` leaves the strings where it found them: a string value points into the buffer, the flag of
`decode_string` stands where its opening quote was, and the first `s` decodes it in place.  An access
outside the buffer is `none`.
-/

namespace TranscodingServer

abbrev Buffer := List UInt8

/-- `start_` and `end_` of a string value. -/
structure StringRef where
  start_ : Nat
  end_ : Nat
  deriving DecidableEq

def Buffer.write (buf : Buffer) (i : Nat) (c : UInt8) : Option Buffer :=
  if i < buf.length then some (buf.set i c) else none

/-- `*tail++ = c` for one character after the other. -/
def Buffer.writes (buf : Buffer) (tail : Nat) : Str → Option Buffer
  | [] => some buf
  | c :: cs => do
    let buf ← buf.write tail c
    Buffer.writes buf (tail + 1) cs

/-- The loop of `unescape`: the buffer and `tail` behind it. -/
def unescapeLoop (end_ : Nat) : Nat → Nat → Nat → Buffer → Option (Buffer × Nat)
  | 0, _, _, _ => none
  | fuel + 1, head, tail, buf =>
    if head = end_ then some (buf, tail)
    else do
      let c ← buf[head]?
      if c = backslash then
        let e ← buf[head + 1]?
        if e = 'u'.toUInt8 then
          let h₁ ← buf[head + 2]?
          let h₂ ← buf[head + 3]?
          let h₃ ← buf[head + 4]?
          let h₄ ← buf[head + 5]?
          let cs := codeBytes (hexCode h₁ h₂ h₃ h₄)
          unescapeLoop end_ fuel (head + 6) (tail + cs.length) (← buf.writes tail cs)
        else
          let cs := (unescaped e).toList
          unescapeLoop end_ fuel (head + 2) (tail + cs.length) (← buf.writes tail cs)
      else unescapeLoop end_ fuel (head + 1) (tail + 1) (← buf.writes tail [c])

def StringRef.unescape (v : StringRef) (buf : Buffer) : Option (StringRef × Buffer) := do
  let flag ← if v.start_ = 0 then none else buf[v.start_ - 1]?
  if flag ≠ 0 then
    let (buf, tail) ← unescapeLoop v.end_ (v.end_ - v.start_ + 1) v.start_ v.start_ buf
    let buf ← buf.write tail 0
    let buf ← buf.write (v.start_ - 1) 0
    return ({ v with end_ := tail }, buf)
  return (v, buf)

/-- `s`: the string, the value with its new end, the buffer. -/
def StringRef.s (v : StringRef) (buf : Buffer) : Option (Str × StringRef × Buffer) := do
  let (v, buf) ← v.unescape buf
  return ((buf.drop v.start_).take (v.end_ - v.start_), v, buf)

/-- Calls of `s` on several values of one buffer, each named by its position. -/
def callAll : List Nat → List StringRef → Buffer → Option (List Str × List StringRef × Buffer)
  | [], refs, buf => some ([], refs, buf)
  | i :: is, refs, buf => do
    let v ← refs[i]?
    let (s, v, buf) ← v.s buf
    let (ss, refs, buf) ← callAll is (refs.set i v) buf
    return (s :: ss, refs, buf)

end TranscodingServer
