import Cull.Markup.Lexer.RawText

/-!
# Reading a page token by token

The text of a page outside the elements that hold no tags. Where a run of text
is cut matters, because runs that are moved out of a table stay apart: a line
feed, a NUL, each character of a reference and each `<` or `&` that begins
nothing is a run of its own; so is the character after a carriage return or
after such a `<`; and a run does not reach past characters that were looked at
in vain for a reference.
-/

namespace Cull.Markup.Lexer

open Text

/-- The part of a page that is still to be read. -/
structure Source where
  /-- The text. -/
  text : Text
  /-- A carriage return has just been read: a line feed at the front goes with it. -/
  afterReturn : Bool
  /-- The next character is a run of its own. -/
  alone : Bool
  /-- The number of characters at the front past which a run does not reach, if not zero. -/
  seam : Nat

/-- A text to be read from its beginning. -/
def Source.ofText (t : Text) : Source := ⟨t, false, false, 0⟩

/-- The text without a byte order mark in front. -/
def dropByteOrderMark : Text → Text
  | c :: t => if c = '\ufeff' then t else c :: t
  | [] => []

/-- A character that does not take part in a run. -/
def breaksRun (c : Char) : Bool := c = '\r' || c = '\n' || c = '\x00' || c = '&' || c = '<'

/-- The next character, and the number of characters it takes up together with a line feed that
goes with the carriage return before it. -/
def Source.next? (s : Source) : Option (Char × Nat × Text) :=
  match s.text with
  | [] => none
  | c :: t =>
    if s.afterReturn && c = '\n' then
      match t with
      | [] => none
      | c :: t => some (c, 2, t)
    else some (c, 1, t)

/-- The tokens of a reference; the text begins after the `&`. -/
def readRefTokens (t : Text) : List Token × Source :=
  let r := readRef false t
  match r.value with
  | some value =>
    let chars : List Token := value.map fun c => .text [c]
    (if r.bare then .fault :: chars else chars, ⟨r.rest, false, false, r.back⟩)
  | none => ([.text ['&']], ⟨r.rest, false, false, r.back⟩)

/-- The token that begins with `<!`, and the rest. Sections of character data count only inside
foreign elements. -/
def readDeclaration (foreign : Bool) (t : Text) : List Token × Text :=
  match dropLead? ['-', '-'] t, dropWord? "doctype" t, dropLead? "[CDATA[".toList t with
  | some rest, _, _ => ([.comment], skipComment rest)
  | none, some rest, _ =>
    let (d, rest) := readDoctype rest
    ([.doctype d], rest)
  | none, none, some rest => if foreign then readCharacterData rest else ([.comment], skipBogusComment t)
  | none, none, none => ([.comment], skipBogusComment t)

/-- The tokens that begin with `<`; the text begins after it. -/
def readMarkup (foreign : Bool) (t : Text) : List Token × Source :=
  match t with
  | [] => ([.text ['<']], .ofText [])
  | '!' :: t =>
    let (tokens, rest) := readDeclaration foreign t
    (tokens, .ofText rest)
  | '?' :: t => ([.comment], .ofText (skipBogusComment t))
  | ['/'] => ([.text ['<'], .text ['/']], .ofText [])
  | '/' :: c :: t =>
    if c.isAlpha then
      match readTag (c :: t) with
      | none => ([], .ofText [])
      | some (tag, rest) => ([.endTag tag.name], .ofText rest)
    else if c = '>' then ([.fault], .ofText t)
    else ([.comment], .ofText (skipBogusComment (c :: t)))
  | c :: t =>
    if c.isAlpha then
      match readTag (c :: t) with
      | none => ([], .ofText [])
      | some (tag, rest) => ([.startTag tag], .ofText rest)
    else ([.text ['<']], ⟨c :: t, false, true, 0⟩)

/-- The next tokens and the rest of the page; `none` at its end. -/
def Source.step (foreign : Bool) (s : Source) : Option (List Token × Source) :=
  match s.next? with
  | none => none
  | some (c, taken, t) =>
    let seam := s.seam - taken
    if c = '\x00' then some ([.nul], ⟨t, false, false, seam⟩)
    else if c = '&' then some (readRefTokens t)
    else if c = '<' then some (readMarkup foreign t)
    else if c = '\r' then some ([.text ['\n']], ⟨t, true, false, seam⟩)
    else if c = '\n' || s.afterReturn || s.alone then some ([.text [c]], ⟨t, false, false, seam⟩)
    else
      let reach := if s.seam = 0 then t else t.take seam
      let run := reach.takeWhile (!breaksRun ·)
      some ([.text (c :: run)], ⟨t.drop run.length, false, false, seam - run.length⟩)

end Cull.Markup.Lexer
