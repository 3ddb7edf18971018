import Cull.Files.Directory
import Cull.Glob.Parser
import Cull.Text.Blank

/-!
# Ignored files

Files named `.ignore` say which files and directories are not to be looked at,
one rule a line. So do files named `.gitignore`, and `info/exclude` in a
directory named `.git`, but only at and below a directory that holds something
named `.git`, and not above the nearest such directory.

A file of rules speaks of what stands in its directory and below. It counts
wherever it stands, also above the working directory. Of the rules in one file
the last that fits decides, of several files of one kind the nearest one, and of
the three kinds the first in the order above. Rules that somebody keeps for all
directories at once, among their own settings, are not known here.
-/

namespace Cull

open Text

/-- A rule about ignored files. -/
structure IgnoreRule where
  /-- The paths about which it speaks, from the directory of its file on. -/
  glob : Glob
  /-- It says that they are kept. -/
  keeps : Bool
  /-- It speaks of directories only. -/
  directoriesOnly : Bool

namespace IgnoreRule

/-- The glob of a rule, made to match at any depth if it has no slash and is not anchored, and to
match only what stands in a directory if it ends in `/**`. -/
def globText (pattern : Text) (anchored : Bool) : Text :=
  let spread := !anchored && !pattern.contains '/' && pattern ≠ ['*', '*']
  let t := if spread then ['*', '*', '/'] ++ pattern else pattern
  if ['*', '*', '/'].isPrefixOf t.reverse then t ++ ['/', '*'] else t

/-- The line without blanks at its end, unless the last of them is escaped. -/
def trimLine (line : Text) : Text := if [' ', '\\'].isPrefixOf line.reverse then line else trimEnd line

/-- The rule after the marks in front of it. -/
def ofPattern? (pattern : Text) (keeps anchored : Bool) : Option IgnoreRule :=
  let directoriesOnly := pattern.getLast? = some '/'
  let pattern := if directoriesOnly then pattern.dropLast else pattern
  let pattern := if directoriesOnly && pattern.getLast? = some '\\' then pattern.dropLast else pattern
  match Glob.parse (globText pattern anchored) with
  | .ok glob => some ⟨glob, keeps, directoriesOnly⟩
  | .error _ => none

/-- The rule of a line: none if it is blank, a comment or malformed. -/
def ofLine? (line : Text) : Option IgnoreRule :=
  if line.head? = some '#' then none
  else
    match trimLine line with
    | [] => none
    | '\\' :: '!' :: rest => ofPattern? ('!' :: rest) false false
    | '\\' :: '#' :: rest => ofPattern? ('#' :: rest) false false
    | '!' :: '/' :: rest => ofPattern? rest true true
    | '!' :: rest => ofPattern? rest true false
    | '/' :: rest => ofPattern? rest false true
    | t => ofPattern? t false false

/-- The first line without byte order marks. -/
def dropMarks : List Text → List Text
  | [] => []
  | line :: rest => line.dropWhile (· = '\ufeff') :: rest

/-- The rules of a file. -/
def ofContent (content : Content) : List IgnoreRule := (dropMarks content.lines).filterMap ofLine?

/-- The rule speaks of the path. -/
def fits (r : IgnoreRule) (path : Text) (isDirectory : Bool) : Bool :=
  (isDirectory || !r.directoriesOnly) && r.glob.accepts true path

/-- What the rules say about a path: `true` if it is kept. The last one that fits decides. -/
def ruling (rules : List IgnoreRule) (path : Text) (isDirectory : Bool) : Option Bool :=
  (rules.reverse.find? fun r => r.fits path isDirectory).map (·.keeps)

end IgnoreRule

namespace Directory

/-- The rules in the file at a location. -/
def ignoreRules (d : Directory) (l : Location) : List IgnoreRule :=
  match d.get? l with
  | some (.file content) => IgnoreRule.ofContent content
  | _ => []

/-- The directories above a location, nearest first. -/
def above (l : Location) : List Location := (List.range l.length).reverse.map l.take

/-- Something named `.git` stands in the directory. -/
def hasGit (d : Directory) (l : Location) : Bool := (d.get? (l ++ [".git".toList])).isSome

/-- The directories up to and including the first that satisfies the condition. -/
def through (p : Location → Bool) : List Location → List Location
  | [] => []
  | l :: rest => if p l then [l] else l :: through p rest

/-- The nearest ruling about a location by the files that have the given name in directories above
it. -/
def rulingBy (d : Directory) (name : Location) (directories : List Location) (l : Location) : Option Bool :=
  directories.findSome? fun dir =>
    IgnoreRule.ruling (d.ignoreRules (dir ++ name)) (['/'].intercalate (l.drop dir.length)) (d.isDirectoryAt l)

/-- What stands at the location is ignored. -/
def isIgnored (d : Directory) (l : Location) : Bool :=
  let directories := above l
  let git := if directories.any d.hasGit then through d.hasGit directories else []
  let ruling :=
    (d.rulingBy [".ignore".toList] directories l).or
      ((d.rulingBy [".gitignore".toList] git l).or
        (d.rulingBy [".git".toList, "info".toList, "exclude".toList] git l))
  ruling = some false

end Directory

end Cull
