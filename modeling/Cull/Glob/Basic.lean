import Cull.Text.Utf8

/-!
# Globs

A glob is a pattern for paths, matched byte by byte against the whole path.
Where it is used for paths of which each part is to be matched on its own, `*`
and `?` do not match a slash: the glob is then called separated.
-/

namespace Cull

/-- A part of a glob. -/
inductive Glob.Part where
  /-- The given byte. -/
  | byte (b : UInt8)
  /-- `?`: one byte. -/
  | one
  /-- `*`: any number of bytes. -/
  | many
  /-- A leading `**/`: nothing, or any number of directories. -/
  | leadingDirs
  /-- A trailing `/**`: everything in a directory. -/
  | trailingDirs
  /-- An inner `/**/`: a slash, or any number of directories between slashes. -/
  | innerDirs
  /-- `[...]`: one byte that is in one of the ranges, or in none of them. -/
  | set (negated : Bool) (ranges : List (UInt8 × UInt8))
  /-- `{...}`: a choice between lists of parts. -/
  | choice (branches : List (List Glob.Part))

/-- A glob. -/
abbrev Glob := List Glob.Part

namespace Glob

/-- A slash. -/
def slash : UInt8 := 47

/-- Goes on after any number of accepted bytes. -/
def someBytes (accepts : UInt8 → Bool) (next : List UInt8 → Bool) : List UInt8 → Bool
  | [] => next []
  | b :: rest => next (b :: rest) || (accepts b && someBytes accepts next rest)

/-- Goes on after a slash. -/
def afterSlash (next : List UInt8 → Bool) : List UInt8 → Bool
  | b :: rest => b = slash && next rest
  | [] => false

/-- One of the ranges has the byte. -/
def inRanges (ranges : List (UInt8 × UInt8)) (b : UInt8) : Bool := ranges.any fun (lo, hi) => lo ≤ b && b ≤ hi

mutual

/-- The part says nothing: it is a choice of which no branch says anything. -/
def Part.isVoid : Part → Bool
  | .choice branches => allVoid branches
  | _ => false

/-- The parts say nothing. -/
def isVoid : List Part → Bool
  | [] => true
  | p :: rest => p.isVoid && isVoid rest

/-- No branch says anything. -/
def allVoid : List (List Part) → Bool
  | [] => true
  | branch :: rest => isVoid branch && allVoid rest

end

mutual

/-- The part matches the start of the bytes, and `next` accepts the rest. Of a choice only the
branches count that say something. -/
def Part.run (separated : Bool) : Part → (List UInt8 → Bool) → List UInt8 → Bool
  | .byte b, next, bytes =>
    match bytes with
    | c :: rest => c = b && next rest
    | [] => false
  | .one, next, bytes =>
    match bytes with
    | c :: rest => !(separated && c = slash) && next rest
    | [] => false
  | .many, next, bytes => someBytes (fun c => !(separated && c = slash)) next bytes
  | .leadingDirs, next, bytes =>
    next bytes || afterSlash next bytes || someBytes (fun _ => true) (afterSlash next) bytes
  | .trailingDirs, next, bytes => afterSlash (someBytes (fun _ => true) next) bytes
  | .innerDirs, next, bytes =>
    afterSlash next bytes || afterSlash (someBytes (fun _ => true) (afterSlash next)) bytes
  | .set negated ranges, next, bytes =>
    match bytes with
    | c :: rest => (inRanges ranges c != negated) && next rest
    | [] => false
  | .choice branches, next, bytes =>
    if allVoid branches then next bytes else runChoice separated branches next bytes

/-- The parts match the start of the bytes one after the other, and `next` accepts the rest. -/
def run (separated : Bool) : List Part → (List UInt8 → Bool) → List UInt8 → Bool
  | [], next, bytes => next bytes
  | p :: rest, next, bytes => Part.run separated p (run separated rest next) bytes

/-- One of the branches that say something matches, and `next` accepts the rest. -/
def runChoice (separated : Bool) : List (List Part) → (List UInt8 → Bool) → List UInt8 → Bool
  | [], _, _ => false
  | branch :: rest, next, bytes =>
    (!isVoid branch && run separated branch next bytes) || runChoice separated rest next bytes

end

/-- The glob matches the whole path. A glob that is nothing but a leading `**` matches every path. -/
def accepts (separated : Bool) (g : Glob) (path : Text) : Bool :=
  match g with
  | [.leadingDirs] => true
  | _ => run separated g List.isEmpty path.bytes

end Glob

end Cull
