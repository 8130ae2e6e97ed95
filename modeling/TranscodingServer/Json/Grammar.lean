import TranscodingServer.Json.Reader

/-!
# What a JSON text is here

The texts that `load` is for, as sets of texts: no cursor, no order in which anything is checked.
They are those of RFC JSON but for three things: control characters may stand in a string as they
are, a point or an exponent sign needs no digit behind it, and `0` takes no exponent.
-/

namespace TranscodingServer

open Reading

/-- The characters between the quotes of a string, and the string that they stand for. -/
inductive Chars : Str → Str → Prop
  | nil : Chars [] []
  | plain {c raw s} : c ≠ quote → c ≠ backslash → c ≠ 0 → Chars raw s → Chars (c :: raw) (c :: s)
  | escape {e c raw s} : unescaped e = some c → Chars raw s → Chars (backslash :: e :: raw) (c :: s)
  | code {h₁ h₂ h₃ h₄ raw s} : JsonParser.check h₁ → JsonParser.check h₂ → JsonParser.check h₃ →
      JsonParser.check h₄ → Chars raw s →
      Chars (backslash :: 'u'.toUInt8 :: h₁ :: h₂ :: h₃ :: h₄ :: raw)
        (codeBytes (hexCode h₁ h₂ h₃ h₄) ++ s)

def Quoted (s t : Str) : Prop := ∃ raw, Chars raw s ∧ t = quote :: (raw ++ [quote])

/-! ## Numbers -/

def Digits (t : Str) : Prop := ∀ c ∈ t, isDecimal c = true

def IntPart (t : Str) : Prop :=
  t = str "0" ∨ ∃ c ds, t = c :: ds ∧ isDecimal c = true ∧ c ≠ '0'.toUInt8 ∧ Digits ds

def Fraction (t : Str) : Prop := ∃ ds, t = '.'.toUInt8 :: ds ∧ Digits ds

def Exponent (t : Str) : Prop :=
  ∃ e c ds, t = e :: c :: ds ∧ (e = 'e'.toUInt8 ∨ e = 'E'.toUInt8) ∧
    (isDecimal c = true ∨ c = '-'.toUInt8 ∨ c = '+'.toUInt8) ∧ Digits ds

def Number (t : Str) : Prop :=
  ∃ sign int frac exp, t = sign ++ (int ++ (frac ++ exp)) ∧ (sign = [] ∨ sign = str "-") ∧
    IntPart int ∧ (frac = [] ∨ Fraction frac) ∧
    (exp = [] ∨ Exponent exp ∧ (int = str "0" → frac ≠ []))

/-- What digits stand for. -/
def readNat (t : Str) : Nat := t.foldl (fun n c => 10 * n + (c.toNat - '0'.toUInt8.toNat)) 0

/-- What a whole number stands for. -/
def readInt : Str → Int
  | [] => 0
  | c :: t => if c = '-'.toUInt8 then -(readNat t : Int) else readNat (c :: t)

/-! ## Values -/

def Spaces (w : Str) : Prop := ∀ c ∈ w, isSpace c = true

inductive Scalar : Json → Str → Prop
  | null : Scalar .null (str "null")
  | isFalse : Scalar (.bool false) (str "false")
  | isTrue : Scalar (.bool true) (str "true")
  | number {t} : Number t → Scalar (.number t) t
  | string {s t} : Quoted s t → Scalar (.string s) t

section Values

/-! `fits` says which numbers of items may stand between brackets. -/

variable (fits : Nat → Prop)

/-- Items between brackets. -/
def Bracketed {α : Type} (opening close : UInt8) (P : α → Str → Prop) (l : List α) (t : Str) : Prop :=
  ∃ w u, Spaces w ∧ t = opening :: (w ++ u) ∧
    (l = [] ∧ u = [close] ∨ Items isSpace close ','.toUInt8 P l u ∧ fits l.length)

def Field (P : Json → Str → Prop) (field : Str × Json) (t : Str) : Prop :=
  ∃ q w w' u, Quoted field.1 q ∧ Spaces w ∧ Spaces w' ∧ P field.2 u ∧
    t = q ++ (w ++ ':'.toUInt8 :: (w' ++ u))

/-- The texts of a value whose lists and objects are nested at most `k` deep. -/
def Value (sort : List (Str × Json) → List (Str × Json)) : Nat → Json → Str → Prop
  | 0, v, t => Scalar v t
  | k + 1, v, t =>
    Scalar v t ∨
    (∃ l, v = .list l ∧ Bracketed fits '['.toUInt8 ']'.toUInt8 (Value sort k) l t) ∨
    (∃ fields, v = .object (sort fields) ∧
      Bracketed fits '{'.toUInt8 '}'.toUInt8 (Field (Value sort k)) fields t)

/-- Each list or object takes two of the `max_depth` levels. -/
def DocumentOf (sort : List (Str × Json) → List (Str × Json)) (v : Json) (text : Str) : Prop :=
  ∃ w t w', Spaces w ∧ Spaces w' ∧ Value fits sort (JsonParser.max_depth / 2) v t ∧
    text = w ++ (t ++ w')

end Values

/-- A JSON text, as any reader sees it. -/
def Document (sort : List (Str × Json) → List (Str × Json)) (v : Json) (text : Str) : Prop :=
  DocumentOf (fun _ => True) sort v text

/-- The most items that `emplace_back` has room for. -/
def max_elements : Nat := 2147465536

/-- A JSON text for `load`. -/
def Loadable (sort : List (Str × Json) → List (Str × Json)) (v : Json) (text : Str) : Prop :=
  DocumentOf (· ≤ max_elements) sort v text

end TranscodingServer
