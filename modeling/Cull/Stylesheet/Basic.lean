import Cull.Span

/-!
# Stylesheets as rules with spans

A stylesheet is read as a list of rules, each with the span of bytes that it
takes up. A rule is a plain rule (selectors and a block of declarations), an
at-rule that is kept whole, or a group: an at-rule whose block holds rules
again. What stands between the rules is not represented; it is the text that
no span covers. Reading stops at the first construct that does not end, and
the rest of the text from there on is recorded as unparsed.
-/

namespace Cull

/-- A plain rule, `selectors { declarations }`. -/
structure PlainRule where
  /-- The selectors, trimmed, in order. -/
  selectors : List Text
  /-- The trimmed text between the braces. -/
  declarations : Text
  /-- Where the rule stands. -/
  span : Span
  /-- The text of the rule. -/
  text : Text
  deriving DecidableEq

/-- A rule of a stylesheet. -/
inductive Rule where
  /-- Selectors and declarations. -/
  | plain (rule : PlainRule)
  /-- An at-rule without nested rules: a statement or a block that is kept as it is. -/
  | atRule (name : Text) (span : Span) (text : Text)
  /-- An at-rule whose block, the bytes `inner`, holds rules; `unparsed` is the part of the block
  that could not be read. -/
  | group (name : Text) (span : Span) (text : Text) (inner : Span) (children : List Rule)
      (unparsed : Option Span)

namespace Rule

/-- Where the rule stands. -/
def span : Rule → Span
  | plain r => r.span
  | atRule _ s _ => s
  | group _ s _ _ _ _ => s

/-- The text of the rule. -/
def text : Rule → Text
  | plain r => r.text
  | atRule _ _ t => t
  | group _ _ t _ _ _ => t

end Rule

/-- A stylesheet that has been read. -/
structure Stylesheet where
  /-- The text that was read. -/
  source : Text
  /-- The rules at top level, in order. -/
  rules : List Rule
  /-- The bytes from the point where reading stopped, if it stopped early. -/
  unparsed : Option Span

namespace Stylesheet

/-- The ends of the gaps around rules: the first begins at `cursor`, the last ends at `stop`. -/
def gapsFrom (cursor stop : Nat) : List Rule → List (Nat × Nat)
  | [] => [(cursor, stop)]
  | r :: rest => (cursor, r.span.start) :: gapsFrom r.span.stop stop rest

/-- The texts before, between and after the top-level rules, as the ends of their spans. -/
def gaps (s : Stylesheet) : List (Nat × Nat) := gapsFrom 0 s.source.byteLength s.rules

end Stylesheet

end Cull
