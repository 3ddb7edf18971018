import Cull.Markup.Lexer.Tag
import Cull.Text.Name

/-!
# Reading comments, doctypes and character data sections

The constructs that begin with `<!`. A comment that is not closed reaches to
the end of the page; so do a doctype and a section of character data.
-/

namespace Cull.Markup.Lexer

open Text

/-- The text after the `>` that ends a comment which is none by the rules. -/
def skipBogusComment (t : Text) : Text := (t.dropWhile (· ≠ '>')).tail

/-- The text after `-->` or `--!>`. -/
def skipCommentEnd : Text → Text
  | '-' :: '-' :: '>' :: t => t
  | '-' :: '-' :: '!' :: '>' :: t => t
  | _ :: t => skipCommentEnd t
  | [] => []

/-- The text after a comment; it begins after `<!--`. -/
def skipComment : Text → Text
  | '>' :: t => t
  | '-' :: '>' :: t => t
  | t => skipCommentEnd t

/-- The text up to `]]>`, and the text after it. -/
def readSection : Text → Text × Text
  | ']' :: ']' :: '>' :: t => ([], t)
  | c :: t =>
    let (inside, rest) := readSection t
    (c :: inside, rest)
  | [] => ([], [])

/-- The token of a text without NUL, none if it is empty. -/
def textTokens (t : Text) : List Token := if t.isEmpty then [] else [.text t]

/-- Cuts a text into runs and single NUL characters. -/
def splitNul (t : Text) : List Token :=
  match splitOn (· = '\x00') t with
  | [] => []
  | first :: more => textTokens first ++ more.flatMap fun t => .nul :: textTokens t

/-- The tokens of a section of character data, and the rest; the text begins after the opening
bracket. -/
def readCharacterData (t : Text) : List Token × Text :=
  let (inside, rest) := readSection t
  (splitNul (normalizeNewlines inside), rest)

/-- What is left of a doctype that went wrong: nothing up to its `>`. -/
def bogusDoctype (d : Doctype) (t : Text) : Doctype × Text := (d, skipBogusComment t)

/-- Reads a quoted identifier; `none` if the text ends first. The flag says that it was ended by
a `>` and not by its quote. -/
def readIdentifier (quote : Char) (t : Text) : Option (Text × Bool × Text) :=
  let ends := fun c => c = quote || c = '>'
  match t.dropWhile (!ends ·) with
  | [] => none
  | c :: rest => some (replaceNul (normalizeNewlines (t.takeWhile (!ends ·))), c ≠ quote, rest)

/-- Reads the end of a doctype after its last identifier. -/
def readDoctypeEnd (d : Doctype) (t : Text) : Doctype × Text :=
  match t.dropWhile isAsciiBlank with
  | [] => ({ d with malformed := true }, [])
  | '>' :: rest => (d, rest)
  | rest => bogusDoctype d rest

/-- Reads a system identifier. -/
def readSystem (d : Doctype) (quote : Char) (t : Text) : Doctype × Text :=
  match readIdentifier quote t with
  | none => ({ d with systemId := some (replaceNul (normalizeNewlines t)), malformed := true }, [])
  | some (s, true, rest) => ({ d with systemId := some s, malformed := true }, rest)
  | some (s, false, rest) => readDoctypeEnd { d with systemId := some s } rest

/-- Reads what follows the word `SYSTEM`. -/
def readAfterSystem (d : Doctype) (t : Text) : Doctype × Text :=
  match t.dropWhile isAsciiBlank with
  | [] => ({ d with malformed := true }, [])
  | c :: rest =>
    if c = '"' || c = '\'' then readSystem d c rest
    else bogusDoctype { d with malformed := true } (c :: rest)

/-- Reads what follows a public identifier: a system identifier or nothing. -/
def readBetween (d : Doctype) (t : Text) : Doctype × Text :=
  match t.dropWhile isAsciiBlank with
  | [] => ({ d with malformed := true }, [])
  | c :: rest =>
    if c = '>' then (d, rest)
    else if c = '"' || c = '\'' then readSystem d c rest
    else bogusDoctype { d with malformed := true } (c :: rest)

/-- Reads what follows the word `PUBLIC`. -/
def readAfterPublic (d : Doctype) (t : Text) : Doctype × Text :=
  match t.dropWhile isAsciiBlank with
  | [] => ({ d with malformed := true }, [])
  | c :: rest =>
    if c = '"' || c = '\'' then
      match readIdentifier c rest with
      | none => ({ d with publicId := some (replaceNul (normalizeNewlines rest)), malformed := true }, [])
      | some (s, true, rest) => ({ d with publicId := some s, malformed := true }, rest)
      | some (s, false, rest) => readBetween { d with publicId := some s } rest
    else bogusDoctype { d with malformed := true } (c :: rest)

/-- The word in front of a text, in any case. -/
def dropWord? (word : String) (t : Text) : Option Text :=
  if sameIgnoringCase (t.take word.length) word.toList then some (t.drop word.length) else none

/-- Reads a doctype after the word `doctype`. -/
def readDoctype (t : Text) : Doctype × Text :=
  let nameless : Doctype := ⟨none, none, none, true⟩
  match t.dropWhile isAsciiBlank with
  | [] => (nameless, [])
  | '>' :: rest => (nameless, rest)
  | t =>
    let ends := fun c => isAsciiBlank c || c = '>'
    let name := (replaceNul (t.takeWhile (!ends ·))).map Char.toLower
    let d : Doctype := ⟨some name, none, none, false⟩
    match (t.dropWhile (!ends ·)).dropWhile isAsciiBlank with
    | [] => ({ d with malformed := true }, [])
    | '>' :: rest => (d, rest)
    | t =>
      match dropWord? "public" t, dropWord? "system" t with
      | some rest, _ => readAfterPublic d rest
      | none, some rest => readAfterSystem d rest
      | none, none => bogusDoctype { d with malformed := true } t

end Cull.Markup.Lexer
