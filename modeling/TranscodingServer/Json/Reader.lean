import TranscodingServer.Core.Reports
import TranscodingServer.Library.Reading
import TranscodingServer.Http.Handlers

/-!
# The JSON reader (`crow/json.h`: `load`, `load_nocopy_internal`, `rvalue`)

A `char*` into the buffer is the part of the buffer from there on, with the terminating 0.  The
reader writes only behind its cursor: a string value is kept as its characters with the flag that
`decode_string` leaves in front of them, and `s` decodes it.  Every value is decoded when it is
read, where the source decodes the values that are not keys at the first `s`.
-/

namespace TranscodingServer

open Reading

def quote : UInt8 := 0x22

def backslash : UInt8 := 0x5C

def isDecimal (c : UInt8) : Bool := '0'.toUInt8 ≤ c && c ≤ '9'.toUInt8

/-- The characters that `ws_skip` skips. -/
def isSpace (c : UInt8) : Bool :=
  c = ' '.toUInt8 || c = '\t'.toUInt8 || c = '\r'.toUInt8 || c = '\n'.toUInt8

/-! ## Strings -/

/-- The lambda `from_hex`, on a digit that `check` accepts. -/
def from_hex (c : UInt8) : Nat :=
  if 'a'.toUInt8 ≤ c then c.toNat - 'a'.toUInt8.toNat + 10
  else if 'A'.toUInt8 ≤ c then c.toNat - 'A'.toUInt8.toNat + 10
  else c.toNat - '0'.toUInt8.toNat

def hexCode (a b c d : UInt8) : Nat :=
  (from_hex a <<< 12) + (from_hex b <<< 8) + (from_hex c <<< 4) + from_hex d

/-- The bytes that `unescape` writes for a code; the halves of a surrogate pair are two codes. -/
def codeBytes (code : Nat) : Str :=
  if code ≥ 0x800 then
    [UInt8.ofNat (0xE0 ||| (code >>> 12)), UInt8.ofNat (0x80 ||| ((code >>> 6) &&& 0x3F)),
      UInt8.ofNat (0x80 ||| (code &&& 0x3F))]
  else if code ≥ 0x80 then
    [UInt8.ofNat (0xC0 ||| (code >>> 6)), UInt8.ofNat (0x80 ||| (code &&& 0x3F))]
  else [UInt8.ofNat code]

/-- The character that a letter stands for behind a backslash, `u` apart. -/
def unescaped (e : UInt8) : Option UInt8 :=
  if e = quote then some quote
  else if e = backslash then some backslash
  else if e = '/'.toUInt8 then some '/'.toUInt8
  else if e = 'b'.toUInt8 then some 0x08
  else if e = 'f'.toUInt8 then some 0x0C
  else if e = 'n'.toUInt8 then some '\n'.toUInt8
  else if e = 'r'.toUInt8 then some '\r'.toUInt8
  else if e = 't'.toUInt8 then some '\t'.toUInt8
  else none

/-- `unescape`, on the characters between the quotes.  `decode_string` lets no text through that ends
within an escape. -/
def unescape : Str → Str
  | [] => []
  | c :: raw =>
    if c = backslash then
      match raw with
      | [] => []
      | e :: raw =>
        if e = 'u'.toUInt8 then
          match raw with
          | h₁ :: h₂ :: h₃ :: h₄ :: raw => codeBytes (hexCode h₁ h₂ h₃ h₄) ++ unescape raw
          | _ => []
        else (unescaped e).toList ++ unescape raw
    else c :: unescape raw

/-- An `rvalue` of the type `String`: the characters between the quotes and the flag in front. -/
structure RString where
  raw : Str
  has_escaping : Bool
  deriving DecidableEq

def RString.s (v : RString) : Str := if v.has_escaping then unescape v.raw else v.raw

namespace JsonParser

def ws_skip : Reader UInt8 Unit := skip isSpace

/-- The lambda `check`. -/
def check (c : UInt8) : Bool :=
  isDecimal c || ('a'.toUInt8 ≤ c && c ≤ 'f'.toUInt8) || ('A'.toUInt8 ≤ c && c ≤ 'F'.toUInt8)

/-- The cases of the switch behind a backslash, `u` apart. -/
def isEscape (e : UInt8) : Bool := (quote :: backslash :: str "/bfnrt").contains e

/-- The characters `cs` and what follows them. -/
def passed (cs : Str) (escape : Bool) : Outcome UInt8 RString → Outcome UInt8 RString
  | .ok (v, data) => .ok (⟨cs ++ v.raw, escape || v.has_escaping⟩, data)
  | .error e => .error e

/-- The loop of `decode_string`, up to and with the closing quote. -/
def stringLoop : List UInt8 → Outcome UInt8 RString
  | [] => .error .overrun
  | c :: data =>
    if c ≠ quote ∧ c ≠ backslash ∧ c ≠ 0 then passed [c] false (stringLoop data)
    else if c = quote then .ok (⟨[], false⟩, data)
    else if c = backslash then
      match data with
      | [] => .error .overrun
      | e :: data =>
        if e = 'u'.toUInt8 then
          match data with
          | h₁ :: h₂ :: h₃ :: h₄ :: data' =>
            if check h₁ && check h₂ && check h₃ && check h₄ then
              passed [c, e, h₁, h₂, h₃, h₄] true (stringLoop data')
            else .error (.invalid (e :: data))
          -- the digits are checked in turn, up to the first that is none
          | short => if short.all check then .error .overrun else .error (.invalid (e :: short))
        else if isEscape e then passed [c, e] true (stringLoop data)
        else .error (.invalid (e :: data))
    else .error (.invalid (c :: data))

def decode_string : Reader UInt8 RString := do
  if !(← consume quote) then reject
  stringLoop

/-! ## Numbers -/

inductive NumberParsingState
  | Minus
  | AfterMinus
  | ZeroFirst
  | Digits
  | DigitsAfterPoints
  | E
  | DigitsAfterE
  | Invalid
  deriving DecidableEq

/-- The cases of the switch in `decode_number`. -/
inductive NumberChar
  | zero
  | nonzero
  | point
  | minus
  | plus
  | exponent
  deriving DecidableEq

def NumberChar.of (c : UInt8) : Option NumberChar :=
  if c = '0'.toUInt8 then some .zero
  else if isDecimal c then some .nonzero
  else if c = '.'.toUInt8 then some .point
  else if c = '-'.toUInt8 then some .minus
  else if c = '+'.toUInt8 then some .plus
  else if c = 'e'.toUInt8 ∨ c = 'E'.toUInt8 then some .exponent
  else none

open NumberParsingState in
/-- The tables of `decode_number`, a row for each case and a column for each state. -/
def NumberChar.row : NumberChar → List NumberParsingState
  | .zero => [ZeroFirst, ZeroFirst, Invalid, Digits, DigitsAfterPoints, DigitsAfterE, DigitsAfterE]
  | .nonzero => [Digits, Digits, Invalid, Digits, DigitsAfterPoints, DigitsAfterE, DigitsAfterE]
  | .point => [Invalid, Invalid, DigitsAfterPoints, DigitsAfterPoints, Invalid, Invalid, Invalid]
  | .minus => [AfterMinus, Invalid, Invalid, Invalid, Invalid, DigitsAfterE, Invalid]
  | .plus => [Invalid, Invalid, Invalid, Invalid, Invalid, DigitsAfterE, Invalid]
  | .exponent => [Invalid, Invalid, Invalid, E, E, Invalid, Invalid]

def NumberParsingState.index : NumberParsingState → Nat
  | .Minus => 0
  | .AfterMinus => 1
  | .ZeroFirst => 2
  | .Digits => 3
  | .DigitsAfterPoints => 4
  | .E => 5
  | .DigitsAfterE => 6
  | .Invalid => 7

/-- `"..."[state]`, in a state that is not `Invalid`. -/
def NumberParsingState.next (state : NumberParsingState) (k : NumberChar) : NumberParsingState :=
  k.row.getD state.index .Invalid

def NumberParsingState.accepting : NumberParsingState → Bool
  | .ZeroFirst | .Digits | .DigitsAfterPoints | .DigitsAfterE => true
  | _ => false

/-- The loop of `decode_number`; `inner` in the loop that passes the digits behind a digit that is
not 0. -/
def numberLoop : Bool → NumberParsingState → List UInt8 → Outcome UInt8 Str
  | inner, state, [] =>
    if inner || state ≠ .Invalid then .error .overrun else .error (.invalid [])
  | inner, state, c :: data =>
    if inner && isDecimal c then (numberLoop true state data).map fun (t, data) => (c :: t, data)
    else if state = .Invalid then .error (.invalid (c :: data))
    else
      match NumberChar.of c with
      | some k =>
        (numberLoop (k = .nonzero) (state.next k) data).map fun (t, data) => (c :: t, data)
      | none => if state.accepting then .ok ([], c :: data) else .error (.invalid (c :: data))

def decode_number : Reader UInt8 Str := numberLoop false .Minus

/-! ## The array of a list or an object -/

/-- `lsize_` and `lremain_`: the elements, and the room that is left. -/
structure Elements where
  lsize_ : Nat := 0
  lremain_ : Nat := 0
  deriving DecidableEq

/-- `rvalue::emplace_back`.  The new size is an `int` and the others are `uint32_t`; where the new
array is too short for the elements of the old one and the new one, they are written behind it. -/
def emplace_back (v : Elements) : Option Elements :=
  if v.lremain_ ≠ 0 then some { lsize_ := v.lsize_ + 1, lremain_ := v.lremain_ - 1 }
  else
    let new_size := static_cast_int (v.lsize_ + v.lsize_)
    let new_size :=
      if (new_size - v.lsize_) % 2 ^ 32 > 60000 then static_cast_int (v.lsize_ + 60000) else new_size
    let new_size := if new_size < 4 then 4 else new_size
    if new_size < v.lsize_ + 1 then none
    else some { lsize_ := v.lsize_ + 1, lremain_ := new_size.toNat - v.lsize_ - 1 }

def Elements.store : Store Elements where
  empty := {}
  push := emplace_back

/-! ## Values

The array is a parameter: it is that of `emplace_back` for `load`, and a reader without a limit has
one that is unbounded. -/

def max_depth : Nat := 10000

section Values

variable {α σ : Type} (array : Store σ) (sort : List (Str × Json) → List (Str × Json))

/-- `decode_list` and `decode_object`: the brackets around the items. -/
def decode_items (opening close : UInt8) (item : Reader UInt8 α) (depth : Nat) :
    Reader UInt8 (List α) := do
  if !(← consume opening) then reject
  if depth > max_depth then reject
  ws_skip
  if ← consume close then return []
  items isSpace close ','.toUInt8 array item (← get).length array.empty

def decode_list (decode_value : Nat → Reader UInt8 Json) (depth : Nat) : Reader UInt8 Json := do
  let l ← decode_items array '['.toUInt8 ']'.toUInt8 (decode_value (depth + 1)) depth
  return .list l

/-- One round of the loop of `decode_object`, up to the value. -/
def decode_member (value : Reader UInt8 Json) : Reader UInt8 (Str × Json) := do
  let t ← decode_string
  ws_skip
  if !(← consume ':'.toUInt8) then reject
  ws_skip
  let v ← value
  return (t.s, v)

/-- `sort` is the `std::sort` of the first lookup. -/
def decode_object (decode_value : Nat → Reader UInt8 Json) (depth : Nat) : Reader UInt8 Json := do
  let fields ←
    decode_items array '{'.toUInt8 '}'.toUInt8 (decode_member (decode_value (depth + 1))) depth
  return .object (sort fields)

def decode_value : Nat → Nat → Reader UInt8 Json
  | 0, _ => exhausted
  | fuel + 1, depth => do
    let c ← peek
    if c = '['.toUInt8 then decode_list array (decode_value fuel) (depth + 1)
    else if c = '{'.toUInt8 then decode_object array sort (decode_value fuel) (depth + 1)
    else if c = quote then return .string (← decode_string).s
    else if c = 't'.toUInt8 then do
      word (str "true")
      return .bool true
    else if c = 'f'.toUInt8 then do
      word (str "false")
      return .bool false
    else if c = 'n'.toUInt8 then do
      word (str "null")
      return .null
    else return .number (← decode_number)

/-- `parse` behind its value; white space is skipped behind an error, too. -/
def finish : Outcome UInt8 Json → Outcome UInt8 Json
  | .ok (v, data) =>
    (do ws_skip; if (← peek) ≠ 0 then reject else return v : Reader UInt8 Json).read data
  | .error (.invalid data) => (do ws_skip; reject : Reader UInt8 Json).read data
  | .error e => .error e

def parse (fuel : Nat) : Reader UInt8 Json := fun data =>
  finish ((do ws_skip; decode_value array sort fuel 0 : Reader UInt8 Json).read data)

end Values

end JsonParser

/-- `load` copies the text and terminates it.  The recursion is as deep as `max_depth` at most. -/
def load (sort : List (Str × Json) → List (Str × Json)) (text : Str) : Except (Fault UInt8) Json :=
  ((JsonParser.parse JsonParser.Elements.store sort (JsonParser.max_depth + 1)).read
    (text ++ [0])).map Prod.fst

/-! ## Lookups -/

/-- `operator<` on strings: `char` is signed. -/
def keyLt : Str → Str → Bool
  | _, [] => false
  | [], _ :: _ => true
  | a :: s, b :: t =>
    if a.toInt8 < b.toInt8 then true else if b.toInt8 < a.toInt8 then false else keyLt s t

/-- `std::lower_bound`: the fields from the first one whose key is not smaller on. -/
def lower_bound (fields : List (Str × Json)) (key : Str) : List (Str × Json) :=
  fields.dropWhile fun f => keyLt f.1 key

/-- `has` and `operator[]` on the sorted fields. -/
def lookup (fields : List (Str × Json)) (key : Str) : Option Json :=
  match lower_bound fields key with
  | [] => none
  | (k, v) :: _ => if k = key then some v else none

end TranscodingServer
