import Cull.Markup.Construction.Rules
import Cull.Markup.Lexer.Step
import Cull.Markup.Tree

/-!
# Pages

Reading a page: its text is cut into tokens and the tokens are put together to
a document. The two go hand in hand, because what has been put together decides
how the text is to be cut: the content of some elements is text that holds no
tags, and character data has sections of its own inside foreign elements.
-/

namespace Cull.Markup

open Lexer

namespace Build

/-- The innermost open element is a foreign one. -/
def inForeign (s : State) : Bool :=
  match s.stack with
  | e :: _ => e.name.ns ≠ .html
  | [] => false

/-- Feeds tokens one after the other; the effect is that of the last. -/
def feedAll : List Token → Build Effect
  | [] => return .none
  | [token] => feed token
  | token :: rest => do
    let _ ← feed token
    feedAll rest

/-- The name of the start tag among the tokens. -/
def startName : List Token → String
  | .startTag tag :: _ => tag.name
  | _ => ""

/-- Reads the rest of a page. Each step takes up at least one character, so that `fuel` more than
the number of characters is enough. -/
def consume (source : Source) : Nat → Build Unit
  | 0 => pure ()
  | fuel + 1 => do
    match source.step (inForeign (← get)) with
    | none =>
      let _ ← feed .eof
    | some (tokens, source) =>
      match ← feedAll tokens with
      | .none => consume source fuel
      | .scriptEnd => consume (.ofText (dropByteOrderMark source.text)) fuel
      | .raw content =>
        let (inside, rest) := readRawText content (startName tokens) source.text
        let _ ← feedAll inside
        consume (.ofText rest) fuel

end Build

/-- The document that the text of a page stands for. -/
def Document.ofPage (t : Text) : Document :=
  let start := dropByteOrderMark t
  ((Build.consume (.ofText start) (start.length + 1)).run .start).2.doc

/-- The tree that the text of a page stands for. -/
def Tree.ofPage (t : Text) : Tree := (Document.ofPage t).tree

end Cull.Markup
