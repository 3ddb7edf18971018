import Cull.Proofs.Bytes
import Cull.Stylesheet.Parser

/-!
# Reading by byte offsets

The same reader as a program over a buffer of bytes. It keeps offsets, looks at
single bytes, and cuts texts and spans out of the source by their ends; a block
is read in place, with the end of the block as the end of the text. Each of these
steps can go wrong: an offset past the buffer, a cut inside a character, a span
whose ends are in the wrong order, a closing brace where no block is open. A loop
that goes on from where it was, or from further back, would not end; this counts
as going wrong too. A run that goes wrong gives a `Fault`.
-/

namespace Cull.Stylesheet.Offsets

open Text

/-- What can go wrong. -/
inductive Fault where
  /-- An offset past the last byte. -/
  | offset (pos : Nat)
  /-- A cut out of order, past the end of the text or inside a character. -/
  | slice (start stop : Nat)
  /-- A span whose ends are in the wrong order. -/
  | span (e : InvertedSpan)
  /-- A closing brace where no block is open. -/
  | depth
  /-- No opening brace where a block should begin. -/
  | noBrace (pos : Nat)
  /-- A loop that does not get on. -/
  | stalled (pos : Nat)

/-- A run that may go wrong. -/
abbrev Scan := Except Fault

/-- The byte at an offset. -/
def byteAt (bs : List UInt8) (pos : Nat) : Scan UInt8 :=
  match bs[pos]? with
  | some b => pure b
  | none => throw (.offset pos)

/-- The bytes before an offset. -/
def bytesBefore (source : Text) (stop : Nat) : Scan (List UInt8) :=
  if stop ≤ source.byteLength then pure (source.bytes.take stop) else throw (.offset stop)

/-- The text between two offsets. -/
def cut (source : Text) (start stop : Nat) : Scan Text :=
  if start ≤ stop then
    match source.slice? start stop with
    | some t => pure t
    | none => throw (.slice start stop)
  else throw (.slice start stop)

/-- The span between two offsets. -/
def spanOf (start stop : Nat) : Scan Span :=
  match Span.ofEnds start stop with
  | .ok s => pure s
  | .error e => throw (.span e)

/-- The byte of an ASCII blank. -/
def isBlankByte (b : UInt8) : Bool :=
  b = mark ' ' || b = mark '\t' || b = mark '\n' || b = mark '\x0c' || b = mark '\r'

/-- The byte of a quotation mark. -/
def isQuoteByte (b : UInt8) : Bool := b = mark '"' || b = mark '\''

/-- The offset behind the string with closing quote `q`. A backslash takes one byte with it. -/
def skipString (bs : List UInt8) (q : UInt8) (pos : Nat) : Scan (Option Nat) := do
  if pos < bs.length then
    let b ← byteAt bs pos
    if b = mark '\\' then skipString bs q (pos + 2)
    else if b = q then return some (pos + 1)
    else skipString bs q (pos + 1)
  else return none
  termination_by bs.length - pos

/-- The offset behind the comment. -/
def skipComment (bs : List UInt8) (pos : Nat) : Scan (Option Nat) := do
  if pos + 1 < bs.length then
    let b ← byteAt bs pos
    let b' ← byteAt bs (pos + 1)
    if b = mark '*' && b' = mark '/' then return some (pos + 2)
    else skipComment bs (pos + 1)
  else return none
  termination_by bs.length - pos

/-- The offset behind what begins with the byte `b` at `pos`: a string, a comment, or the byte alone. -/
def skipLexeme (bs : List UInt8) (pos : Nat) (b : UInt8) : Scan (Option Nat) :=
  if isQuoteByte b then skipString bs b (pos + 1)
  else if b = mark '/' && bs[pos + 1]? = some (mark '*') then skipComment bs (pos + 2)
  else return some (pos + 1)

/-- The offset of the brace that closes the innermost of `depth` open blocks and all around it. -/
def findBrace (bs : List UInt8) (depth pos : Nat) : Scan (Option Nat) := do
  if pos < bs.length then
    let b ← byteAt bs pos
    if b = mark '\x7b' then findBrace bs (depth + 1) (pos + 1)
    else if b = mark '}' then
      if depth = 0 then throw .depth
      else if depth - 1 = 0 then return some pos
      else findBrace bs (depth - 1) (pos + 1)
    else
      match ← skipLexeme bs pos b with
      | none => return none
      | some next => if pos < next then findBrace bs depth next else throw (.stalled pos)
  else return none
  termination_by bs.length - pos

/-- The offset of the brace that closes the one at `pos`. -/
def matchingBrace (bs : List UInt8) (pos : Nat) : Scan (Option Nat) :=
  if bs[pos]? = some (mark '\x7b') then findBrace bs 0 pos else throw (.noBrace pos)

/-- The offset of the mark that ends the header of an at-rule. -/
def findHeaderEnd (bs : List UInt8) (pos : Nat) : Scan (Option (HeaderEnd × Nat)) := do
  if pos < bs.length then
    let b ← byteAt bs pos
    if b = mark '\x7b' then return some (.brace, pos)
    else if b = mark ';' then return some (.semicolon, pos)
    else
      match ← skipLexeme bs pos b with
      | none => return none
      | some next => if pos < next then findHeaderEnd bs next else throw (.stalled pos)
  else return none
  termination_by bs.length - pos

/-- The offset behind the name of an at-rule. -/
def nameEnd (bs : List UInt8) (pos : Nat) : Scan Nat := do
  if pos < bs.length then
    let b ← byteAt bs pos
    if b = mark '\x7b' || b = mark ';' || isBlankByte b then return pos else nameEnd bs (pos + 1)
  else return pos
  termination_by bs.length - pos

/-- The offset of the next opening brace. -/
def findOpen (bs : List UInt8) (pos : Nat) : Scan (Option Nat) := do
  if pos < bs.length then
    let b ← byteAt bs pos
    if b = mark '\x7b' then return some pos else findOpen bs (pos + 1)
  else return none
  termination_by bs.length - pos

/-- Reads a plain rule that begins at `start`: the rule, if it leaves one, and the offset behind it. -/
def readPlainAt (source : Text) (start stop : Nat) : Scan (Option (List Rule × Nat)) := do
  let bs ← bytesBefore source stop
  let _ ← cut source start stop
  match ← findOpen bs start with
  | none => return none
  | some brace =>
    match ← matchingBrace bs brace with
    | none => return none
    | some close =>
      let header ← cut source start brace
      let body ← cut source (brace + 1) close
      if (trim header).isEmpty || (trim body).isEmpty then return some ([], close + 1)
      else
        let span ← spanOf start (close + 1)
        let text ← cut source start (close + 1)
        let rule : PlainRule :=
          { selectors := (splitOn (· = ',') (trim header)).map trim, declarations := trim body, span, text }
        return some ([.plain rule], close + 1)

mutual

/-- Reads an at-rule that begins at `start`: the rule, and the offset behind it. -/
def readAtRuleAt (source : Text) (start stop : Nat) : Scan (Option (List Rule × Nat)) := do
  let bs ← bytesBefore source stop
  let _ ← cut source 0 stop
  let behindName ← nameEnd bs (start + 1)
  let name ← cut source start behindName
  match ← findHeaderEnd bs behindName with
  | none => return none
  | some (.semicolon, semicolon) =>
    let span ← spanOf start (semicolon + 1)
    let text ← cut source start (semicolon + 1)
    return some ([.atRule name span text], semicolon + 1)
  | some (.brace, brace) =>
    match ← matchingBrace bs brace with
    | none => return none
    | some close =>
      let span ← spanOf start (close + 1)
      let text ← cut source start (close + 1)
      if groupNames.contains name then
        if start ≤ brace ∧ brace < close ∧ close < stop then
          let (children, unparsed) ← readRange source (brace + 1) close
          let inner ← spanOf (brace + 1) close
          return some ([.group name span text inner children unparsed], close + 1)
        else throw (.stalled start)
      else return some ([.atRule name span text], close + 1)
  termination_by (stop - start, 0)

/-- Reads the rules between two offsets. -/
def readRange (source : Text) (pos stop : Nat) : Scan (List Rule × Option Span) := do
  let bs ← bytesBefore source stop
  if pos < stop then
    let b ← byteAt bs pos
    if isBlankByte b then readRange source (pos + 1) stop
    else if b = mark '/' && bs[pos + 1]? = some (mark '*') then
      match ← skipComment bs (pos + 2) with
      | some next => if pos < next then readRange source next stop else throw (.stalled pos)
      | none =>
        let rest ← spanOf pos stop
        return ([], some rest)
    else
      match ← if b = mark '@' then readAtRuleAt source pos stop else readPlainAt source pos stop with
      | some (rule, next) =>
        if pos < next then
          let (rules, unparsed) ← readRange source next stop
          return (rule ++ rules, unparsed)
        else throw (.stalled pos)
      | none =>
        let rest ← spanOf pos stop
        return ([], some rest)
  else return ([], none)
  termination_by (stop - pos, 1)

end

/-- Reads a stylesheet. -/
def parse (source : Text) : Scan Stylesheet := do
  let (rules, unparsed) ← readRange source 0 source.byteLength
  return { source, rules, unparsed }

end Cull.Stylesheet.Offsets
