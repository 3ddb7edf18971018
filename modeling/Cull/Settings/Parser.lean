import Cull.Settings.Basic
import Cull.Settings.Literal

/-!
# Settings files

A settings file is written in TOML. The settings are strings, truth values and
lists of strings under plain keys, so that no other value and no table can
stand in a file that is accepted; neither can an unknown key, or the same key
twice.
-/

namespace Cull.Settings

/-- The value of a setting. -/
inductive Value where
  /-- A string. -/
  | text (t : Text)
  /-- A truth value. -/
  | flag (b : Bool)
  /-- A list of strings. -/
  | list (ts : List Text)

/-- The text after blanks, line ends and comments. `comment` says that we are in a comment, which
reaches to the end of the line. -/
def skipFiller (comment : Bool) : Text → Option Text
  | [] => some []
  | '\r' :: '\n' :: rest => skipFiller false rest
  | c :: rest =>
    if c = '\n' then skipFiller false rest
    else if comment then if isPlain c then skipFiller true rest else none
    else if isInlineBlank c then skipFiller false rest
    else if c = '#' then skipFiller true rest
    else some (c :: rest)

/-- The strings of a list, after the opening bracket or a comma; `fuel` is more than the number of
characters. -/
def readItems : Nat → Text → Option (List Text × Text)
  | 0, _ => none
  | fuel + 1, t => do
    match ← skipFiller false t with
    | ']' :: rest => some ([], rest)
    | t =>
      let (item, rest) ← readString t
      match ← skipFiller false rest with
      | ',' :: rest =>
        let (items, rest) ← readItems fuel rest
        some (item :: items, rest)
      | ']' :: rest => some ([item], rest)
      | _ => none

/-- A value. -/
def readValue (t : Text) : Option (Value × Text) :=
  match t with
  | 't' :: 'r' :: 'u' :: 'e' :: rest => some (.flag true, rest)
  | 'f' :: 'a' :: 'l' :: 's' :: 'e' :: rest => some (.flag false, rest)
  | '[' :: rest => (readItems t.length rest).map fun (items, rest) => (.list items, rest)
  | _ => (readString t).map fun (s, rest) => (.text s, rest)

/-- A character of a key without quotes. -/
def isKeyChar (c : Char) : Bool := c.isAlphanum || c = '_' || c = '-'

/-- A key. -/
def readKey (t : Text) : Option (Text × Text) :=
  match t.span isKeyChar with
  | ([], t) => readLine t
  | (key, rest) => some (key, rest)

/-- A key with its value. The text after it is empty or begins with the end of the line or a
comment. -/
def readEntry (t : Text) : Option ((Text × Value) × Text) := do
  let (key, rest) ← readKey t
  match rest.dropWhile isInlineBlank with
  | '=' :: rest =>
    let (value, rest) ← readValue (rest.dropWhile isInlineBlank)
    match rest.dropWhile isInlineBlank with
    | [] => some ((key, value), [])
    | '\r' :: '\n' :: rest => some ((key, value), rest)
    | c :: rest => if c = '\n' || c = '#' then some ((key, value), c :: rest) else none
  | _ => none

/-- The entries of a file; `fuel` is more than the number of characters. -/
def readEntries : Nat → Text → Option (List (Text × Value))
  | 0, _ => none
  | fuel + 1, t => do
    match ← skipFiller false t with
    | [] => some []
    | t =>
      let (entry, rest) ← readEntry t
      let entries ← readEntries fuel rest
      some (entry :: entries)

/-- The settings with one of them changed. -/
def set? (s : Settings) (key : Text) (value : Value) : Option Settings :=
  match String.ofList key, value with
  | "markup", .list ts => some { s with markup := ts }
  | "scripts", .list ts => some { s with scripts := ts }
  | "stylesheets", .list ts => some { s with stylesheets := ts }
  | "always_keep", .list ts => some { s with alwaysKeep := ts }
  | "verify", .list ts => some { s with verify := ts }
  | "backup", .flag b => some { s with backup := b }
  | "backup_suffix", .text t => some { s with backupSuffix := t }
  | _, _ => none

/-- The settings with the entries of a file. -/
def setAll? (s : Settings) : List (Text × Value) → Option Settings
  | [] => some s
  | (key, value) :: rest =>
    if rest.any (·.1 = key) then none else do setAll? (← set? s key value) rest

/-- The settings that a file stands for; `none` if it is not well formed. -/
def parse? (t : Text) : Option Settings := do
  let t := match t with
    | '\ufeff' :: rest => rest
    | t => t
  setAll? .default (← readEntries (t.length + 1) t)

end Cull.Settings
