import Cull.Pruning.Plan
import Cull.Stylesheet.Parser
import Cull.Text.Blank
import Cull.Text.Pattern

/-!
# Cutting rules out of a stylesheet

The planned spans are merged and cut out byte by byte; all other text stays as
it is, except that three or more newlines with nothing but blanks between them
become two.
-/

namespace Cull

open Text

/-- The outcome of pruning a stylesheet. -/
inductive Pruned where
  /-- Nothing goes. -/
  | unchanged
  /-- The new text, and the number of rules that went. -/
  | changed (text : Text) (removed : Nat)
  deriving DecidableEq

namespace Pruned

/-- The number of rules that went. -/
def removed : Pruned → Nat
  | unchanged => 0
  | changed _ n => n

/-- The new text, if there is one. -/
def text? : Pruned → Option Text
  | unchanged => none
  | changed t _ => some t

/-- Three or more newlines with blanks between them. -/
def blankLines : Pattern :=
  .all [.char '\n', .many isBlank, .char '\n', .many isBlank, .oneOrMore (· = '\n')]

/-- Reduces runs of blank lines to one. -/
def collapseBlankLines (t : Text) : Text := blankLines.replaceAll ['\n', '\n'] t

/-- Cuts out disjoint spans in ascending order. The text begins at byte `pos` of the whole; `none`
when a span does not fit the text. -/
def cutSpans (pos : Nat) (t : Text) : List Span → Option Text
  | [] => some t
  | s :: spans =>
    if s.start < pos then none
    else do
      let (kept, t) ← splitAtByte? (s.start - pos) t
      let (_, t) ← splitAtByte? (s.stop - s.start) t
      let later ← cutSpans s.stop t spans
      return kept ++ later

end Pruned

/-- Carries out a plan. There is no result when a span ends inside a character or past the end of
the text. -/
def Plan.cut? (p : Plan) (source : Text) : Option Pruned :=
  if p.isEmpty then some .unchanged
  else do
    let text ← Pruned.cutSpans 0 source (Span.merge p.removed)
    return .changed (Pruned.collapseBlankLines text) p.count

/-- Removes from a stylesheet the rules that the usage set shows to be unreferenced. -/
def prune (css : Text) (u : Usage) : Pruned :=
  (((Stylesheet.parse css).plan u).cut? css).getD .unchanged

end Cull
