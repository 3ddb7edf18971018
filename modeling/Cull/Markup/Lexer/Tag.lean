import Cull.Markup.CharRef
import Cull.Markup.Token
import Cull.Text.Blank

/-!
# Reading tags

The part of a tag after its `<` or `</`: the name, the attributes, and the
closing `>`. A tag that the text does not end is no tag.
-/

namespace Cull.Markup.Lexer

open Text

/-- Line ends written as carriage return, alone or with a line feed, become line feeds. -/
def normalizeNewlines : Text → Text
  | [] => []
  | '\r' :: '\n' :: t => '\n' :: normalizeNewlines t
  | c :: t => (if c = '\r' then '\n' else c) :: normalizeNewlines t

/-- NUL characters become replacement characters. -/
def replaceNul (t : Text) : Text := t.map fun c => if c = '\x00' then replacementChar else c

/-- A character that ends the name of a tag. -/
def endsTagName (c : Char) : Bool := isAsciiBlank c || c = '/' || c = '>'

/-- A character that ends the name of an attribute. -/
def endsAttributeName (c : Char) : Bool := endsTagName c || c = '='

/-- A name as it counts: ASCII capitals become small letters. -/
def foldName (t : Text) : String := String.ofList ((replaceNul t).map Char.toLower)

/-- An attribute value as it counts. -/
def decodeValue (t : Text) : Text := decodeRefs true (replaceNul (normalizeNewlines t))

/-- Reads the value of an attribute after its `=`, and the rest. -/
def readValue (t : Text) : Option (Text × Text) :=
  match t.dropWhile isAsciiBlank with
  | [] => none
  | c :: t =>
    if c = '"' || c = '\'' then
      match t.dropWhile (· ≠ c) with
      | [] => none
      | _ :: rest => some (decodeValue (t.takeWhile (· ≠ c)), rest)
    else
      let ends := fun d => isAsciiBlank d || d = '>'
      some (decodeValue ((c :: t).takeWhile (!ends ·)), (c :: t).dropWhile (!ends ·))

/-- Reads one attribute, whose first character is given, and the rest. -/
def readAttribute (first : Char) (t : Text) : Option (Attribute × Text) :=
  let name := foldName (first :: t.takeWhile (!endsAttributeName ·))
  match (t.dropWhile (!endsAttributeName ·)).dropWhile isAsciiBlank with
  | [] => none
  | '=' :: t =>
    match readValue t with
    | none => none
    | some (value, rest) => some (⟨name, value⟩, rest)
  | t => some (⟨name, []⟩, t)

/-- Adds an attribute unless there is one of its name. -/
def addAttribute (attributes : List Attribute) (a : Attribute) : List Attribute :=
  if attributes.any (·.name = a.name) then attributes else attributes ++ [a]

/-- Reads the attributes of a tag up to its `>`, and says whether a `/` stands before that. Every
round reads a character, so `fuel` may be the length of the text. -/
def readAttributes (attributes : List Attribute) : Nat → Text → Option (List Attribute × Bool × Text)
  | 0, _ => none
  | fuel + 1, t =>
    match t.dropWhile isAsciiBlank with
    | [] => none
    | '>' :: rest => some (attributes, false, rest)
    | '/' :: '>' :: rest => some (attributes, true, rest)
    | '/' :: rest => readAttributes attributes fuel rest
    | c :: rest =>
      match readAttribute c rest with
      | none => none
      | some (a, rest) => readAttributes (addAttribute attributes a) fuel rest

/-- Reads a tag after its `<` or `</`; the text begins with a letter. -/
def readTag (t : Text) : Option (Tag × Text) :=
  let name := t.takeWhile (!endsTagName ·)
  match readAttributes [] t.length (t.dropWhile (!endsTagName ·)) with
  | none => none
  | some (attributes, selfClosing, rest) => some (⟨foldName name, attributes, selfClosing⟩, rest)

end Cull.Markup.Lexer
