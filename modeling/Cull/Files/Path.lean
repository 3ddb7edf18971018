import Cull.Text.Basic

/-!
# Paths

A path is a text with its parts between slashes. Two spellings are the same
path if they have the same components: repeated slashes and the part `.` do not
count, except for a `.` in front.
-/

namespace Cull.Path

open Text

/-- The text between the slashes of a path, empty parts included. -/
def parts (p : Text) : List Text := splitOn (· = '/') p

/-- A part that leads nowhere. -/
def isIdle (part : Text) : Bool := part.isEmpty || part = ['.']

/-- A part that can be the name of something in a directory. -/
def isName (part : Text) : Bool := !isIdle part && part ≠ ['.', '.'] && !part.contains '/'

/-- The components of a path: its parts that lead somewhere, with a leading slash or `.`. -/
def components (p : Text) : List Text :=
  match parts p with
  | first :: rest =>
    let front := if first.isEmpty then (if rest.isEmpty then [] else [['/']]) else [first]
    front ++ rest.filter (!isIdle ·)
  | [] => []

/-- The paths have the same components. -/
def same (p q : Text) : Bool := components p = components q

/-- The order of lists of components, each compared by code points. -/
def componentsLe : List Text → List Text → Bool
  | [], _ => true
  | _ :: _, [] => false
  | a :: as, b :: bs => lt a b || (a = b && componentsLe as bs)

/-- The order of paths, component by component. -/
def le (p q : Text) : Bool := componentsLe (components p) (components q)

/-- The path of something in a directory. -/
def join (directory name : Text) : Text :=
  if directory.getLast? = some '/' then directory ++ name else directory ++ '/' :: name

/-- The path without idle parts in front. -/
def dropIdle : List Text → List Text
  | [] => []
  | part :: rest => if isIdle part then dropIdle rest else part :: rest

/-- The path without a leading `.`. -/
def withoutDot (p : Text) : Text :=
  match parts p with
  | ['.'] :: rest => ['/'].intercalate (dropIdle rest)
  | _ => p

end Cull.Path
