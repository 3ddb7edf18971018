import Cull.Failure
import Cull.Files.Ignore
import Cull.Log

/-!
# Resolving inputs

Inputs are given as paths and patterns. A path stands for the file at it, and a
pattern for the files below its root that it matches and that are not ignored,
sorted. Each file is listed where it comes up first.
-/

namespace Cull

namespace Glob

/-- A character that makes an input a pattern. -/
def isMeta (c : Char) : Bool := c = '*' || c = '?' || c = '[' || c = '\x7b'

/-- The input is a pattern. -/
def isPattern (input : Text) : Bool := input.any isMeta

/-- A character that ends a part of a pattern. -/
def isSeparator (c : Char) : Bool := c = '/' || c = '\\'

/-- The text up to and including the last separator. -/
def throughSeparator (t : Text) : Text := (t.reverse.dropWhile (!isSeparator ·)).reverse

/-- The directory that holds everything a pattern can match. -/
def root (pattern : Text) : Text :=
  let plain := pattern.takeWhile (!isMeta ·)
  let trimmed := (plain.reverse.dropWhile isSeparator).reverse
  if trimmed.isEmpty then ['.']
  else if isPattern pattern && !plain.getLast?.any isSeparator then
    if trimmed.any isSeparator then throughSeparator trimmed else ['.']
  else trimmed

end Glob

namespace Directory

/-- The paths of the files below a directory that are not ignored, `depth` levels deep; `path` is
that of the directory. -/
def filesBelow (d : Directory) : Nat → Location → Text → List Text
  | 0, _, _ => []
  | depth + 1, l, path =>
    (d.names l).flatMap fun name =>
      let here := l ++ [name]
      if d.isIgnored here then []
      else
        match d.get? here with
        | some .directory => filesBelow d depth here (Path.join path name)
        | some (.file _) => [Path.join path name]
        | none => []

/-- The paths of the files at and below a path that are not ignored. -/
def filesUnder (d : Directory) (path : Text) : List Text :=
  match d.locate path with
  | .error _ => []
  | .ok l =>
    match d.get? l with
    | none => []
    | some (.file _) => [path]
    | some .directory => d.filesBelow (d.entries.length + 1) l path

/-- The files that a pattern stands for. -/
def expand (d : Directory) (pattern : Text) : Except Failure (List Text) :=
  match Glob.parse pattern with
  | .error fault => .error (.glob pattern fault)
  | .ok glob =>
    let paths := (d.filesUnder (Glob.root pattern)).map Path.withoutDot
    .ok ((paths.filter (glob.accepts false)).mergeSort Path.le)

/-- The files that an input stands for, with what there is to say about it. -/
def matching (d : Directory) (input : Text) : Except Failure (List Text × List Log) :=
  if Glob.isPattern input then do
    let paths ← d.expand input
    let log := if paths.isEmpty then [.warn ("pattern '".toList ++ input ++ "' matched no files".toList)] else []
    return (paths, log)
  else if d.isFile input then .ok ([input], [])
  else .ok ([], [.warn ("skipping missing file ".toList ++ input)])

/-- Adds the paths that are not there. -/
def addNew (found : List Text) (paths : List Text) : List Text :=
  paths.foldl (fun found p => if found.any (Path.same p) then found else found ++ [p]) found

/-- The files that inputs stand for, after those that have been found. -/
def resolveFrom (d : Directory) (found : List Text) : List Text → Except Failure (List Text) × List Log
  | [] => (.ok found, [])
  | input :: rest =>
    match d.matching input with
    | .error failure => (.error failure, [])
    | .ok (paths, log) =>
      let (result, more) := resolveFrom d (addNew found paths) rest
      (result, log ++ more)

/-- The files that inputs stand for, and the log. -/
def resolve (d : Directory) (inputs : List Text) : Except Failure (List Text) × List Log :=
  d.resolveFrom [] inputs

end Directory

end Cull
