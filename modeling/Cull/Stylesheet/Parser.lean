import Cull.Stylesheet.Basic
import Cull.Stylesheet.Lexical

/-!
# Reading a stylesheet

`Stylesheet.parse` never fails. It skips blanks and comments, and reads one
construct after another: an at-rule when the text begins with `@`, otherwise a
plain rule, whose header reaches to the next opening brace whatever stands
before it. A plain rule with a blank header or a blank block leaves no trace.
Reading stops at the first construct that does not end.
-/

namespace Cull.Stylesheet

open Text

/-- A character of an at-rule's name. -/
def isAtNameChar (c : Char) : Bool := !(c = '\x7b' || c = ';' || isAsciiBlank c)

/-- The at-rules whose block holds rules. -/
def groupNames : List Text := ["@media".toList]

/-- An at-rule cut out of a text. -/
inductive AtForm where
  /-- `@name prelude;` in full. -/
  | statement (name text : Text)
  /-- `@name prelude` with the opening brace, and the text inside the braces. -/
  | block (name header body : Text)
  deriving DecidableEq

/-- Reads an at-rule; the text begins after the `@`. -/
def readAtRule (t : Text) : Option (AtForm × Text) :=
  let name := t.takeWhile isAtNameChar
  match closeHeader (t.dropWhile isAtNameChar) with
  | none => none
  | some (prelude, .semicolon, rest) => some (.statement ('@' :: name) ('@' :: (name ++ prelude ++ [';'])), rest)
  | some (prelude, .brace, rest) =>
    match closeBlock 0 rest with
    | none => none
    | some (body, rest) => some (.block ('@' :: name) ('@' :: (name ++ prelude ++ ['\x7b'])) body, rest)

/-- Reads a plain rule into its header, the text inside its braces, and the rest. -/
def readPlain (t : Text) : Option (Text × Text × Text) :=
  match t.dropWhile (· ≠ '\x7b') with
  | [] => none
  | _ :: t' =>
    match closeBlock 0 t' with
    | none => none
    | some (body, rest) => some (t.takeWhile (· ≠ '\x7b'), body, rest)

/-- The plain rule with the given header and block at `pos`, unless one of the two is blank. -/
def plainRule? (pos : Nat) (header body : Text) : Option PlainRule :=
  let text := header ++ '\x7b' :: (body ++ ['}'])
  if (trim header).isEmpty || (trim body).isEmpty then none
  else some
    { selectors := (splitOn (· = ',') (trim header)).map trim
      declarations := trim body
      span := .ofText pos text
      text := text }

theorem length_readAtRule_lt {t rest : Text} {f : AtForm} (h : readAtRule t = some (f, rest)) :
    rest.length < t.length ∧ ∀ name header body, f = .block name header body → body.length < t.length := by
  have hdrop := (List.dropWhile_sublist (l := t) isAtNameChar).length_le
  revert h
  fun_cases readAtRule t <;> grind [→ length_closeHeader_lt, → length_closeBlock_lt]

theorem length_readPlain_lt {t header body rest : Text} (h : readPlain t = some (header, body, rest)) :
    rest.length < t.length := by
  have hdrop := (List.dropWhile_sublist (l := t) (· ≠ '\x7b')).length_le
  revert h
  fun_cases readPlain t <;> grind [→ length_closeBlock_lt]

/-- A construct of a stylesheet, as it stands in the text. -/
inductive Construct where
  /-- An ASCII blank. -/
  | blank (c : Char)
  /-- A comment; `inner` is all that follows its opening mark. -/
  | comment (inner : Text)
  /-- An at-rule. -/
  | atRule (form : AtForm)
  /-- The header of a plain rule and the text inside its braces. -/
  | plain (header body : Text)
  deriving DecidableEq

/-- The text of an at-rule. -/
def AtForm.text : AtForm → Text
  | statement _ text => text
  | block _ header body => header ++ (body ++ ['}'])

/-- The text of a construct. -/
def Construct.text : Construct → Text
  | blank c => [c]
  | comment inner => '/' :: '*' :: inner
  | atRule form => form.text
  | plain header body => header ++ '\x7b' :: (body ++ ['}'])

/-- Reads one construct; there is none when the text is empty or the construct does not end. -/
def readConstruct : Text → Option (Construct × Text)
  | [] => none
  | '/' :: '*' :: t => (closeComment t).map fun (inner, rest) => (.comment inner, rest)
  | '@' :: t => (readAtRule t).map fun (form, rest) => (.atRule form, rest)
  | c :: t =>
    if isAsciiBlank c then some (.blank c, t)
    else (readPlain (c :: t)).map fun (header, body, rest) => (.plain header body, rest)

theorem length_readConstruct_lt {t rest : Text} {c : Construct} (h : readConstruct t = some (c, rest)) :
    rest.length < t.length := by
  revert h
  fun_cases readConstruct t <;>
    grind [Option.map_eq_some_iff, → length_closeComment_le, → length_readAtRule_lt, → length_readPlain_lt]

theorem length_block_lt {t rest name header body : Text}
    (h : readConstruct t = some (.atRule (.block name header body), rest)) : body.length < t.length := by
  revert h
  fun_cases readConstruct t <;> grind [Option.map_eq_some_iff, → length_readAtRule_lt]

/-- The span of a text that is left unread, if any is. -/
def leftover (pos : Nat) (t : Text) : Option Span := if t.isEmpty then none else some (.ofText pos t)

/-- Reads the rules of a text that begins at byte `pos` of its stylesheet, and the span that is
left unread if reading stops early. -/
def readRules (pos : Nat) (t : Text) : List Rule × Option Span :=
  match (readConstruct t).attach with
  | none => ([], leftover pos t)
  | some ⟨(.blank c, rest), h⟩ =>
    have := length_readConstruct_lt h
    readRules (pos + c.utf8Size) rest
  | some ⟨(.comment inner, rest), h⟩ =>
    have := length_readConstruct_lt h
    readRules (pos + 2 + byteLength inner) rest
  | some ⟨(.atRule (.statement name text), rest), h⟩ =>
    have := length_readConstruct_lt h
    let (rules, unparsed) := readRules (pos + byteLength text) rest
    (.atRule name (.ofText pos text) text :: rules, unparsed)
  | some ⟨(.atRule (.block name header body), rest), h⟩ =>
    have := length_readConstruct_lt h
    have := length_block_lt h
    let text := header ++ (body ++ ['}'])
    let rule :=
      if groupNames.contains name then
        let innerStart := pos + byteLength header
        let (children, unparsed) := readRules innerStart body
        .group name (.ofText pos text) text (.ofText innerStart body) children unparsed
      else .atRule name (.ofText pos text) text
    let (rules, unparsed) := readRules (pos + byteLength text) rest
    (rule :: rules, unparsed)
  | some ⟨(.plain header body, rest), h⟩ =>
    have := length_readConstruct_lt h
    let (rules, unparsed) := readRules (pos + byteLength header + 1 + byteLength body + 1) rest
    match plainRule? pos header body with
    | none => (rules, unparsed)
    | some rule => (.plain rule :: rules, unparsed)
  termination_by t.length

/-- Reads a stylesheet. -/
def parse (source : Text) : Stylesheet :=
  let (rules, unparsed) := readRules 0 source
  { source, rules, unparsed }

/-- Looks for the brace that closes the one at byte `start` of the text. The outer `none` says that
there is no opening brace at `start`, the inner one that it is never closed. -/
def matchingBrace? (t : Text) (start : Nat) : Option (Option Nat) :=
  match splitAtByte? start t with
  | some (_, '\x7b' :: rest) => some ((closeBlock 0 rest).map fun (body, _) => start + 1 + byteLength body)
  | _ => none

end Cull.Stylesheet
