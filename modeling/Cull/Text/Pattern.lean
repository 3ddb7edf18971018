import Cull.Text.Basic

/-!
# Character patterns

Patterns for searching texts: sets of characters, repetition, sequence and
choice. Matching tries the alternatives in order, a repetition first with one
more round, and the first way that lets the whole pattern succeed is taken; a
search takes the leftmost place where the pattern matches, and goes on after
the match.

The matcher `run` is handed what has to succeed after the pattern. It calls it
with the rest of the text for one way of matching after another, in order of
preference, until it succeeds.
-/

namespace Cull

/-- A pattern of characters. -/
inductive Pattern where
  /-- Matches the empty text. -/
  | empty
  /-- One character of a set. -/
  | one (accepts : Char → Bool)
  /-- As many characters of a set as possible, maybe none. -/
  | many (accepts : Char → Bool)
  /-- One pattern after the other. -/
  | seq (p q : Pattern)
  /-- The first pattern, or else the second. -/
  | alt (p q : Pattern)
  /-- As many rounds of a pattern as possible, maybe none. -/
  | rounds (p : Pattern)

namespace Pattern

variable {α : Type}

/-- Takes characters of a set, then continues with the longest run that lets `k` succeed. -/
def runMany (accepts : Char → Bool) (k : Text → Option α) : Text → Option α
  | [] => k []
  | c :: t => if accepts c then runMany accepts k t <|> k (c :: t) else k (c :: t)

/-- Takes at most `n` rounds of `step`, then continues with the most rounds that let `k` succeed. -/
def runRounds (step : Text → (Text → Option α) → Option α) (k : Text → Option α) : Nat → Text → Option α
  | 0, t => k t
  | n + 1, t => (step t fun rest => runRounds step k n rest) <|> k t

/-- Matches at the front of a text and continues with `k` on the rest. -/
def run : Pattern → Text → (Text → Option α) → Option α
  | empty, t, k => k t
  | one accepts, t, k =>
    match t with
    | [] => none
    | c :: t => if accepts c then k t else none
  | many accepts, t, k => runMany accepts k t
  | seq p q, t, k => run p t fun rest => run q rest k
  | alt p q, t, k => run p t k <|> run q t k
  | rounds p, t, k => runRounds (run p) k t.length t

/-- Exactly the given character. -/
def char (c : Char) : Pattern := one (· = c)

/-- Exactly the given text. -/
def literal : Text → Pattern
  | [] => empty
  | c :: t => seq (char c) (literal t)

/-- Exactly the given word. -/
def word (w : String) : Pattern := literal w.toList

/-- One or more characters of a set. -/
def oneOrMore (accepts : Char → Bool) : Pattern := seq (one accepts) (many accepts)

/-- The pattern, if it matches. -/
def optional (p : Pattern) : Pattern := alt p empty

/-- The patterns one after the other. -/
def all : List Pattern → Pattern
  | [] => empty
  | [p] => p
  | p :: ps => seq p (all ps)

/-- The first of the patterns that leads to success. -/
def oneOf : List Pattern → Pattern
  | [] => one fun _ => false
  | [p] => p
  | p :: ps => alt p (oneOf ps)

/-- The rest of the text after a match at its front. -/
def rest? (p : Pattern) (t : Text) : Option Text := run p t some

/-- Replaces the matches of a pattern, from left to right; `covered` characters at the front still
belong to the last match. -/
def replaceFrom (p : Pattern) (new : Text) : Nat → Text → Text
  | _, [] => []
  | covered + 1, _ :: t => replaceFrom p new covered t
  | 0, c :: t =>
    match p.rest? (c :: t) with
    | none => c :: replaceFrom p new 0 t
    | some rest => new ++ replaceFrom p new (t.length - rest.length) t

/-- Replaces every match of a pattern that matches no empty text. -/
def replaceAll (p : Pattern) (new t : Text) : Text := replaceFrom p new 0 t

end Pattern

/-- A pattern in three parts, of which the middle one is what the search is for. -/
structure Capture where
  /-- What has to stand before. -/
  lead : Pattern
  /-- What is captured. -/
  body : Pattern
  /-- What has to stand after. -/
  tail : Pattern

namespace Capture

/-- The captured text and the rest after a match at the front. -/
def match? (c : Capture) (t : Text) : Option (Text × Text) :=
  c.lead.run t fun fromBody =>
    c.body.run fromBody fun fromTail =>
      c.tail.run fromTail fun rest =>
        some (fromBody.take (fromBody.length - fromTail.length), rest)

/-- The captured texts of the matches, from left to right; `covered` characters at the front still
belong to the last match. -/
def capturesFrom (c : Capture) : Nat → Text → List Text
  | _, [] => []
  | covered + 1, _ :: t => capturesFrom c covered t
  | 0, d :: t =>
    match c.match? (d :: t) with
    | none => capturesFrom c 0 t
    | some (value, rest) => value :: capturesFrom c (t.length - rest.length) t

/-- The captured texts of all matches that do not overlap, from left to right. -/
def captures (c : Capture) (t : Text) : List Text := capturesFrom c 0 t

end Capture

end Cull
