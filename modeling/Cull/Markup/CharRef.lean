import Cull.Markup.NamedChar

/-!
# Character references

A character reference is an `&` with a number or a name, and stands for one or
two characters. Reading one looks ahead in the text; what was looked at and
turns out not to belong to the reference is given back. `RefReading.back` counts
the characters given back, because a run of text does not reach past them.
-/

namespace Cull.Markup

open Text

/-- What becomes of the text after an `&`. -/
structure RefReading where
  /-- The characters that the reference stands for; `none` if there is no reference and the `&`
  stands for itself. -/
  value : Option Text
  /-- The text after the reference. -/
  rest : Text
  /-- How many characters of `rest` were looked at and given back. -/
  back : Nat
  /-- There is a reference, and the semicolon at its end is missing. -/
  bare : Bool

/-- What stands in the place of a character that is no character. -/
def replacementChar : Char := '\ufffd'

/-- The characters meant by the numbers 128 to 159. -/
def windowsChars : List Nat :=
  [0x20ac, 0x81, 0x201a, 0x192, 0x201e, 0x2026, 0x2020, 0x2021, 0x2c6, 0x2030, 0x160, 0x2039, 0x152, 0x8d,
    0x17d, 0x8f, 0x90, 0x2018, 0x2019, 0x201c, 0x201d, 0x2022, 0x2013, 0x2014, 0x2dc, 0x2122, 0x161, 0x203a,
    0x153, 0x9d, 0x17e, 0x178]

/-- The character with the given number. -/
def numberedChar (n : Nat) : Char :=
  if n = 0 || 0x10ffff < n || (0xd800 ≤ n && n ≤ 0xdfff) then replacementChar
  else if 0x80 ≤ n && n ≤ 0x9f then Char.ofNat (windowsChars.getD (n - 0x80) n)
  else Char.ofNat n

/-- The value of a decimal digit. -/
def decDigit? (c : Char) : Option Nat := if c.isDigit then some (c.toNat - '0'.toNat) else none

/-- The number at the front of a text, and the rest. -/
def readNumber (base : Nat) (digit? : Char → Option Nat) (n : Nat) : Text → Nat × Text
  | [] => (n, [])
  | c :: t =>
    match digit? c with
    | some d => readNumber base digit? (base * n + d) t
    | none => (n, c :: t)

/-- Reads the digits of a numeric reference; `before` characters have been read after the `&`, and
`whole` is the text after the `&`. -/
def readDigits (base : Nat) (digit? : Char → Option Nat) (whole : Text) (before : Nat) (t : Text) : RefReading :=
  match t with
  | c :: _ =>
    if (digit? c).isSome then
      let (n, t) := readNumber base digit? 0 t
      match t with
      | ';' :: t => ⟨some [numberedChar n], t, 0, false⟩
      | t => ⟨some [numberedChar n], t, 0, true⟩
    else ⟨none, whole, before, false⟩
  | [] => ⟨none, whole, before, false⟩

/-- Follows a text through the names that still fit. `read` characters have been read, and `best`
is the longest name that has been completed, with its length. The result counts the characters
read, the first that fits no name included. -/
def followNames (read : Nat) (best : Option (Nat × Text)) : List NamedChar → Text → Nat × Option (Nat × Text)
  | _, [] => (read, best)
  | names, c :: t =>
    let fitting := names.filterMap fun n =>
      match n.name with
      | d :: more => if d = c then some { n with name := more } else none
      | [] => none
    if fitting.isEmpty then (read + 1, best)
    else
      let best := match fitting.find? (·.name.isEmpty) with
        | some n => some (read + 1, n.value)
        | none => best
      followNames (read + 1) best fitting t

/-- Reads a named reference. Inside an attribute a name without semicolon is no reference when a
letter, a digit or `=` follows. -/
def readName (inAttribute : Bool) (t : Text) : RefReading :=
  match followNames 0 none namedChars t with
  | (_, none) =>
    -- all letters and digits have been looked at, and the character after them
    let run := (t.takeWhile Char.isAlphanum).length
    ⟨none, t, min (run + 1) t.length, false⟩
  | (read, some (length, value)) =>
    let bare := t[length - 1]? ≠ some ';'
    let runsOn := match t[length]? with
      | some c => c = '=' || c.isAlphanum
      | none => false
    if inAttribute && bare && runsOn then ⟨none, t, read, false⟩
    else ⟨some value, t.drop length, min read t.length - length, bare⟩

/-- Reads the text after an `&`. -/
def readRef (inAttribute : Bool) (t : Text) : RefReading :=
  match t with
  | '#' :: 'x' :: r => readDigits 16 hexDigit? t 2 r
  | '#' :: 'X' :: r => readDigits 16 hexDigit? t 2 r
  | '#' :: r => readDigits 10 decDigit? t 1 r
  | c :: _ => if c.isAlphanum then readName inAttribute t else ⟨none, t, 0, false⟩
  | [] => ⟨none, [], 0, false⟩

/-- Replaces the references in a text. No reference is longer than the text, so `fuel` may be its
length. -/
def decodeRefsFrom (inAttribute : Bool) : Nat → Text → Text
  | 0, t => t
  | _ + 1, [] => []
  | fuel + 1, c :: t =>
    if c = '&' then
      let r := readRef inAttribute t
      match r.value with
      | some value => value ++ decodeRefsFrom inAttribute fuel r.rest
      | none => c :: decodeRefsFrom inAttribute fuel t
    else c :: decodeRefsFrom inAttribute fuel t

/-- Replaces the references in a text. -/
def decodeRefs (inAttribute : Bool) (t : Text) : Text := decodeRefsFrom inAttribute t.length t

end Cull.Markup
