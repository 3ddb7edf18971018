import Cull.Markup.Lexer.Declaration

/-!
# Text that holds no tags

The content of some elements is text up to their end tag. In a title or a text
area character references count, elsewhere they do not. In a script the end tag
does not count inside a comment-like part in which a further script has been
opened; `Script` is the state of the search for that.

Each search works on the text as it stands in the page and returns the part
before the end tag and the rest that begins with it.
-/

namespace Cull.Markup.Lexer

open Text

/-- What kind of text an element holds. -/
inductive Content where
  /-- Text with character references. -/
  | escapable
  /-- Text as it is. -/
  | verbatim
  /-- A script. -/
  | script
  /-- Text as it is, to the end of the page. -/
  | plain
  deriving DecidableEq

/-- The text begins with the end tag of the given element. -/
def isEndTag (name : String) : Text → Bool
  | '<' :: '/' :: t =>
    match dropWord? name t with
    | some (c :: _) => endsTagName c
    | _ => false
  | _ => false

/-- The text before the end tag of the given element. -/
def beforeEndTag (name : String) : Text → Text × Text
  | [] => ([], [])
  | c :: t =>
    if isEndTag name (c :: t) then ([], c :: t)
    else
      let (inside, rest) := beforeEndTag name t
      (c :: inside, rest)

/-- Where the search in a script stands. `dashes` counts the hyphens just read, up to two. -/
inductive Script where
  /-- Outside any comment-like part. -/
  | outside
  /-- Inside a comment-like part. -/
  | escaped (dashes : Nat)
  /-- Inside a script in a comment-like part. -/
  | nested (dashes : Nat)

/-- The letters at the front of the text are `script`, and the tag name ends with them. -/
def isScriptWord (t : Text) : Bool :=
  sameIgnoringCase (t.takeWhile Char.isAlpha) "script".toList &&
    match t.dropWhile Char.isAlpha with
    | c :: _ => endsTagName c
    | [] => false

/-- The state after the character `c`, when `t` follows. -/
def Script.after (s : Script) (c : Char) (t : Text) : Script :=
  match s with
  | outside =>
    if c = '<' && (dropLead? ['!', '-', '-'] t).isSome then escaped 0 else outside
  | escaped dashes =>
    if c = '-' then escaped (min 2 (dashes + 1))
    else if c = '>' && dashes = 2 then outside
    else if c = '<' && isScriptWord t then nested 0
    else escaped 0
  | nested dashes =>
    if c = '-' then nested (min 2 (dashes + 1))
    else if c = '>' && dashes = 2 then outside
    else if c = '<' && (dropLead? ['/'] t).isSome && isScriptWord (t.drop 1) then escaped 0
    else nested 0

/-- An end tag ends the script in this state. -/
def Script.canEnd : Script → Bool
  | nested _ => false
  | _ => true

/-- The text of a script before its end tag. -/
def beforeScriptEnd (name : String) (s : Script) : Text → Text × Text
  | [] => ([], [])
  | c :: t =>
    if s.canEnd && isEndTag name (c :: t) then ([], c :: t)
    else
      let (inside, rest) := beforeScriptEnd name (s.after c t) t
      (c :: inside, rest)

/-- The text begins with a reference whose semicolon is missing. -/
def startsWithBareRef : Text → Bool
  | '&' :: t => (readRef false t).bare
  | _ => false

/-- The tokens of a text with character references. Only a mistake at the very front counts. -/
def escapableTokens (t : Text) : List Token :=
  let tokens := textTokens (decodeRefs false t)
  if startsWithBareRef t then .fault :: tokens else tokens

/-- The tokens of the text that an element holds, and the rest of the page from its end tag on. -/
def readRawText (content : Content) (name : String) (t : Text) : List Token × Text :=
  let clean (t : Text) : Text := replaceNul (normalizeNewlines t)
  match content with
  | .escapable =>
    let (inside, rest) := beforeEndTag name t
    (escapableTokens (clean inside), rest)
  | .verbatim =>
    let (inside, rest) := beforeEndTag name t
    (textTokens (clean inside), rest)
  | .script =>
    let (inside, rest) := beforeScriptEnd name .outside t
    (textTokens (clean inside), rest)
  | .plain => (textTokens (clean t), [])

end Cull.Markup.Lexer
