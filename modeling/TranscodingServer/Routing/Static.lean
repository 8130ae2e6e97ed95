import TranscodingServer.Routing.Router
import TranscodingServer.Core.Gst

/-!
# Static files (`crow/utility.h`, `crow/app.h`: `add_static_dir`, `crow/http_response.h`)

The position of the loop of `sanitize_filename` is the part of the name from there on.  What is erased
behind a position is passed over when the loop gets there.
-/

namespace TranscodingServer

def replacement : UInt8 := '_'.toUInt8

def isSeparator (c : UInt8) : Bool := c = '/'.toUInt8 || c = '\\'.toUInt8

/-- A special name ends in front of `source`. -/
def specialEnds (source : Str) : Bool :=
  match source with
  | [] => true
  | c :: _ => c = '.'.toUInt8 || c = ':'.toUInt8 || isSeparator c

/-- The lambda `sanitizeSpecialFile`: the number of characters that the replacement takes the place
of, if `source` starts with the special name. -/
def sanitizeSpecialFile (includeNumber : Bool) : Str → Str → Option Nat
  | _ :: _, [] => none
  | p :: pattern, c :: source =>
    if toUpper c ≠ p then none else (sanitizeSpecialFile includeNumber pattern source).map (· + 1)
  | [], source =>
    if includeNumber then
      match source with
      | [] => none
      | c :: source =>
        if c < '1'.toUInt8 ∨ '9'.toUInt8 < c then none
        else if specialEnds source then some 1 else none
    else if specialEnds source then some 0 else none

/-- The calls of `sanitizeSpecialFile` in the switch over `toUpper c`. -/
def specialNames (c : UInt8) : List (Str × Bool) :=
  if c = 'A'.toUInt8 then [(str "AUX", false)]
  else if c = 'C'.toUInt8 then [(str "CON", false), (str "COM", true)]
  else if c = 'L'.toUInt8 then [(str "LPT", true)]
  else if c = 'N'.toUInt8 then [(str "NUL", false)]
  else if c = 'P'.toUInt8 then [(str "PRN", false)]
  else if c = '.'.toUInt8 then [(str "..", false)]
  else []

def special (data : Str) : Option Nat :=
  match data with
  | [] => none
  | c :: _ => (specialNames (toUpper c)).findSome? fun x => sanitizeSpecialFile x.2 x.1 data

/-- The characters that are replaced wherever they stand. -/
def isUnsafe (c : UInt8) : Bool :=
  c < ' '.toUInt8 || (0x80 ≤ c && c ≤ 0x9F) || (str "?<>:*|\"").contains c

/-- The loop of `sanitize_filename`, with `skip` characters erased in front of it; `start` at the
position 0. -/
def sanitizeLoop : Nat → Bool → Bool → Str → Str
  | _, _, _, [] => []
  | skip + 1, start, checkForSpecialEntries, _ :: data =>
    sanitizeLoop skip start checkForSpecialEntries data
  | 0, start, checkForSpecialEntries, c :: data =>
    match if checkForSpecialEntries then special (c :: data) else none with
    | some n => replacement :: sanitizeLoop (n - 1) false false data
    | none =>
      if isUnsafe c then replacement :: sanitizeLoop 0 false false data
      else if isSeparator c then
        if start then replacement :: sanitizeLoop 0 false false data
        else c :: sanitizeLoop 0 false true data
      else c :: sanitizeLoop 0 false false data

/-- `sanitize_filename`, with its default replacement. -/
def sanitize_filename (data : Str) : Str := sanitizeLoop 0 true true (data.take 255)

/-! ## Files -/

section Files

variable (stat : Str → Option Nat) (get_mime_type : Str → Str)

end Files

end TranscodingServer
