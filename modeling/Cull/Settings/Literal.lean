import Cull.Text.Basic

/-!
# Literals of a settings file

The strings of a settings file, in the TOML notation: on one line or several,
with escapes between double quotes and without between single quotes. A reader
returns what it has read and the rest of the text, or nothing if the text does
not begin with what it reads.
-/

namespace Cull.Settings

/-- A blank within a line. -/
def isInlineBlank (c : Char) : Bool := c = ' ' || c = '\t'

/-- A character that may stand in a string or a comment: no control character but the tab. -/
def isPlain (c : Char) : Bool := c = '\t' || (0x20 ≤ c.toNat && c.toNat ≠ 0x7f)

/-- The value of a hexadecimal digit. -/
def digitValue? (c : Char) : Option Nat :=
  if '0' ≤ c ∧ c ≤ '9' then some (c.toNat - '0'.toNat)
  else if 'a' ≤ c ∧ c ≤ 'f' then some (c.toNat - 'a'.toNat + 10)
  else if 'A' ≤ c ∧ c ≤ 'F' then some (c.toNat - 'A'.toNat + 10)
  else none

/-- The character whose number is written in hexadecimal digits. -/
def charOfDigits? (digits : List Char) : Option Char := do
  let values ← digits.mapM digitValue?
  let n := values.foldl (fun n d => 16 * n + d) 0
  if h : n.isValidChar then some (Char.ofNatAux n h) else none

/-- The character that an escape of one letter stands for. -/
def escaped? : Char → Option Char
  | 'b' => some '\x08'
  | 't' => some '\t'
  | 'n' => some '\n'
  | 'f' => some '\x0c'
  | 'r' => some '\r'
  | '"' => some '"'
  | '\\' => some '\\'
  | _ => none

/-- Puts a character in front of what has been read. -/
def consRead (c : Char) : Option (Text × Text) → Option (Text × Text)
  | some (t, rest) => some (c :: t, rest)
  | none => none

/-- A string between double quotes on one line, after the opening quote. -/
def readBasic : Text → Option (Text × Text)
  | [] => none
  | '"' :: rest => some ([], rest)
  | '\\' :: 'u' :: d₁ :: d₂ :: d₃ :: d₄ :: rest => do
    let c ← charOfDigits? [d₁, d₂, d₃, d₄]
    consRead c (readBasic rest)
  | '\\' :: 'U' :: d₁ :: d₂ :: d₃ :: d₄ :: d₅ :: d₆ :: d₇ :: d₈ :: rest => do
    let c ← charOfDigits? [d₁, d₂, d₃, d₄, d₅, d₆, d₇, d₈]
    consRead c (readBasic rest)
  | '\\' :: e :: rest => do
    let c ← escaped? e
    consRead c (readBasic rest)
  | c :: rest => if isPlain c && c ≠ '\\' then consRead c (readBasic rest) else none

/-- A string between single quotes on one line, after the opening quote. -/
def readLiteral : Text → Option (Text × Text)
  | [] => none
  | '\'' :: rest => some ([], rest)
  | c :: rest => if isPlain c then consRead c (readLiteral rest) else none

/-- The rest of a string over several lines after three quotes: up to two more belong to it. -/
def closeLines (quote : Char) : Text → Text × Text
  | c₁ :: c₂ :: rest =>
    if c₁ = quote && c₂ = quote then ([quote, quote], rest)
    else if c₁ = quote then ([quote], c₂ :: rest)
    else ([], c₁ :: c₂ :: rest)
  | [c] => if c = quote then ([quote], []) else ([], [c])
  | [] => ([], [])

/-- Only blanks stand before the next line end. -/
def endsLine (t : Text) : Bool :=
  match t.dropWhile isInlineBlank with
  | '\n' :: _ => true
  | '\r' :: '\n' :: _ => true
  | _ => false

/-- A string between three double quotes, after the opening quotes. A backslash at the end of a
line takes the blanks and line ends that follow with it; `skipping` says that we are among them. -/
def readBasicLines (skipping : Bool) : Text → Option (Text × Text)
  | [] => none
  | '"' :: '"' :: '"' :: rest => some (closeLines '"' rest)
  | '\r' :: '\n' :: rest =>
    if skipping then readBasicLines true rest else consRead '\n' (readBasicLines false rest)
  | '\\' :: 'u' :: d₁ :: d₂ :: d₃ :: d₄ :: rest => do
    let c ← charOfDigits? [d₁, d₂, d₃, d₄]
    consRead c (readBasicLines false rest)
  | '\\' :: 'U' :: d₁ :: d₂ :: d₃ :: d₄ :: d₅ :: d₆ :: d₇ :: d₈ :: rest => do
    let c ← charOfDigits? [d₁, d₂, d₃, d₄, d₅, d₆, d₇, d₈]
    consRead c (readBasicLines false rest)
  | '\\' :: e :: rest =>
    if endsLine (e :: rest) then readBasicLines true (e :: rest)
    else do
      let c ← escaped? e
      consRead c (readBasicLines false rest)
  | c :: rest =>
    if skipping && (isInlineBlank c || c = '\n') then readBasicLines true rest
    else if c = '\n' || (isPlain c && c ≠ '\\') then consRead c (readBasicLines false rest)
    else none

/-- A string between three single quotes, after the opening quotes. -/
def readLiteralLines : Text → Option (Text × Text)
  | [] => none
  | '\'' :: '\'' :: '\'' :: rest => some (closeLines '\'' rest)
  | '\r' :: '\n' :: rest => consRead '\n' (readLiteralLines rest)
  | c :: rest => if c = '\n' || isPlain c then consRead c (readLiteralLines rest) else none

/-- The text without a line end in front. -/
def dropLineEnd : Text → Text
  | '\n' :: rest => rest
  | '\r' :: '\n' :: rest => rest
  | t => t

/-- A string on one line. -/
def readLine : Text → Option (Text × Text)
  | '"' :: rest => readBasic rest
  | '\'' :: rest => readLiteral rest
  | _ => none

/-- A string. -/
def readString : Text → Option (Text × Text)
  | '"' :: '"' :: '"' :: rest => readBasicLines false (dropLineEnd rest)
  | '\'' :: '\'' :: '\'' :: rest => readLiteralLines (dropLineEnd rest)
  | t => readLine t

end Cull.Settings
