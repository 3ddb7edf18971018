import Cull.Glob.Basic

/-!
# Reading globs

A glob is read from left to right. The open choices are kept on a stack, each
with the branches before the one that is being read; the parts of that one are
kept last first.

`**` stands for directories only if it stands between slashes, or between a
slash and an end of the glob or of a branch; otherwise it is two stars. Between
slashes it takes the slash after it and the part before it, which is the slash
there, with it.
-/

namespace Cull.Glob

/-- Why a text is no glob. -/
inductive Malformed where
  /-- A class has no end. -/
  | unclosedClass
  /-- A range ends before it starts. -/
  | invalidRange (lo hi : Char)
  /-- A choice ends that has no start. -/
  | unopenedChoice
  /-- A choice has no end. -/
  | unclosedChoice
  /-- A backslash stands last. -/
  | danglingEscape
  deriving DecidableEq

/-- The wording of a fault in a glob. -/
def Malformed.message : Malformed → Text
  | unclosedClass => "unclosed character class; missing ']'".toList
  | invalidRange lo hi => "invalid range; '".toList ++ lo :: "' > '".toList ++ [hi, '\'']
  | unopenedChoice =>
    "unopened alternate group; missing '\x7b' (maybe escape '\x7d' with '[\x7d]'?)".toList
  | unclosedChoice =>
    "unclosed alternate group; missing '\x7d' (maybe escape '\x7b' with '[\x7b]'?)".toList
  | danglingEscape => "dangling '\\'".toList

/-- A choice that has been opened. -/
structure Opening where
  /-- The parts before the choice, last first. -/
  before : List Part
  /-- The finished branches, last first. -/
  branches : List (List Part)

/-- How far a glob has been read. -/
structure Progress where
  /-- The parts of the current branch, last first. -/
  parts : List Part
  /-- The open choices, innermost first. -/
  openings : List Opening
  /-- The character before the current one. -/
  previous : Option Char

/-- The parts for a character as it is. -/
def literal (c : Char) : List Part := (String.utf8EncodeChar c).map Part.byte

/-- The ranges of bytes for a range of characters. -/
def byteRanges (lo hi : Char) : List (UInt8 × UInt8) :=
  if lo = hi then (String.utf8EncodeChar lo).map fun b => (b, b)
  else
    let los := String.utf8EncodeChar lo
    let his := String.utf8EncodeChar hi
    (los.dropLast.map fun b => (b, b)) ++ [(los.getLast?.getD 0, his.head?.getD 0)] ++ his.tail.map fun b => (b, b)

/-- Reads a class after its opening bracket and the mark for negation. `ranges` are those read so
far, last first; `inRange` says that a hyphen has been read after the last of them. -/
def readClass (ranges : List (Char × Char)) (first inRange : Bool) :
    Text → Except Malformed (List (Char × Char) × Text)
  | [] => .error .unclosedClass
  | c :: rest =>
    if c = ']' && !first then
      .ok ((if inRange then ('-', '-') :: ranges else ranges).reverse, rest)
    else if inRange then
      match ranges with
      | (lo, _) :: others =>
        if c < lo then .error (.invalidRange lo c) else readClass ((lo, c) :: others) false false rest
      | [] => readClass [(c, c)] false false rest
    else if c = '-' && !first then readClass ranges false true rest
    else readClass ((c, c) :: ranges) false false rest

namespace Progress

/-- The state before the first character. -/
def start : Progress := ⟨[], [], none⟩

/-- Adds a part after reading `c`. -/
def push (p : Progress) (part : Part) (c : Char) : Progress :=
  { p with parts := part :: p.parts, previous := some c }

/-- Adds a character as it is. -/
def pushLiteral (p : Progress) (c : Char) : Progress :=
  { p with parts := (literal c).reverse ++ p.parts, previous := some c }

/-- Opens a choice. -/
def openChoice (p : Progress) : Progress := ⟨[], ⟨p.parts, []⟩ :: p.openings, some '\x7b'⟩

/-- Begins the next branch of the innermost choice. -/
def nextBranch (p : Progress) : Progress :=
  match p.openings with
  | [] => p.pushLiteral ','
  | o :: rest => ⟨[], ⟨o.before, p.parts.reverse :: o.branches⟩ :: rest, some ','⟩

/-- Closes the innermost choice. -/
def closeChoice (p : Progress) : Except Malformed Progress :=
  match p.openings with
  | [] => .error .unopenedChoice
  | o :: rest =>
    .ok ⟨.choice (p.parts.reverse :: o.branches).reverse :: o.before, rest, some '\x7d'⟩

/-- The character before stands where directories can begin. -/
def atBoundary (p : Progress) : Bool :=
  p.previous = some '/' || (!p.openings.isEmpty && (p.previous = some ',' || p.previous = some '\x7b'))

/-- Adds two stars. -/
def pushStars (p : Progress) : Progress := (p.push .many '*').push .many '*'

/-- Puts a part for directories in the place of the last part. -/
def replaceLast (p : Progress) (part : Part) (c : Char) : Progress :=
  let parts := match p.parts with
    | .leadingDirs :: rest => .leadingDirs :: rest
    | .trailingDirs :: rest => .trailingDirs :: rest
    | _ :: rest => part :: rest
    | [] => [part]
  { p with parts := parts, previous := some c }

/-- Reads `**`, when `rest` follows; returns also whether a slash that follows is taken with it. -/
def readStars (p : Progress) (rest : Text) : Progress × Bool :=
  let slashFollows := rest.head? = some '/'
  if p.parts.isEmpty then
    if slashFollows then (p.push .leadingDirs '/', true)
    else if rest.isEmpty then (p.push .leadingDirs '*', false)
    else (p.pushStars, false)
  else if !p.atBoundary then (p.pushStars, false)
  else if slashFollows then (p.replaceLast .innerDirs '/', true)
  else if rest.isEmpty then (p.replaceLast .trailingDirs '*', false)
  else if !p.openings.isEmpty && (rest.head? = some ',' || rest.head? = some '\x7d') then
    (p.replaceLast .trailingDirs '*', false)
  else (p.pushStars, false)

end Progress

/-- The text after the mark that negates a class, and whether there is one. -/
def readNegation : Text → Bool × Text
  | c :: rest => if c = '!' || c = '^' then (true, rest) else (false, c :: rest)
  | [] => (false, [])

/-- Reads the rest of a glob; `fuel` is at least the number of characters. -/
def readFrom (p : Progress) : Nat → Text → Except Malformed Progress
  | 0, _ => .ok p
  | _, [] => .ok p
  | fuel + 1, c :: rest =>
    if c = '?' then readFrom (p.push .one c) fuel rest
    else if c = '*' then
      match rest with
      | '*' :: rest =>
        let (p, takesSlash) := p.readStars rest
        readFrom p fuel (if takesSlash then rest.tail else rest)
      | rest => readFrom (p.push .many c) fuel rest
    else if c = '[' then
      let (negated, rest) := readNegation rest
      match readClass [] true false rest with
      | .error e => .error e
      | .ok (ranges, rest) =>
        readFrom (p.push (.set negated (ranges.flatMap fun (lo, hi) => byteRanges lo hi)) ']') fuel rest
    else if c = '\x7b' then readFrom p.openChoice fuel rest
    else if c = '\x7d' then
      match p.closeChoice with
      | .error e => .error e
      | .ok p => readFrom p fuel rest
    else if c = ',' then readFrom p.nextBranch fuel rest
    else if c = '\\' then
      match rest with
      | [] => .error .danglingEscape
      | e :: rest => readFrom (p.pushLiteral e) fuel rest
    else readFrom (p.pushLiteral c) fuel rest

/-- Reads a glob. -/
def parse (t : Text) : Except Malformed Glob :=
  match readFrom .start t.length t with
  | .error e => .error e
  | .ok p => if p.openings.isEmpty then .ok p.parts.reverse else .error .unclosedChoice

end Cull.Glob
