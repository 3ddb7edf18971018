import Cull.Failure
import Cull.Log
import Cull.Pruning.Cut
import Cull.Report.Basic
import Cull.Settings.Basic

/-!
# Pruning files

A stylesheet is read, pruned and, if something was removed, written back. The
former text is written beside it first, if that is wanted. Here stylesheets are
pruned one after the other; `Run.Workers` has them pruned side by side.
-/

namespace Cull

/-- What became of something that works on a directory. -/
structure Attempt (α : Type) where
  /-- The result. -/
  result : Except Failure α
  /-- What there is to say. -/
  log : List Log
  /-- The directory afterwards. -/
  directory : Directory

namespace Directory

/-- The path of the copy of a stylesheet. -/
def backupPath (path suffix : Text) : Text := path ++ suffix

/-- Writes a text to a path. -/
def writeText (d : Directory) (path : Text) (t : Text) : Except Failure Directory :=
  match d.write path (.text t) with
  | .ok d => .ok d
  | .error fault => .error (.write path fault)

/-- A number in decimal digits. -/
def decimal (n : Nat) : Text := (toString n).toList

/-- The record that nothing was removed. -/
def unchangedLog (path : Text) : Log := .info (path ++ ": no unused rules".toList)

/-- The record that rules were removed. -/
def changedLog (r : Report) : Log :=
  .info (r.path ++ ": removed ".toList ++ decimal r.removed ++ " unused rules (".toList ++ decimal r.formerBytes
    ++ " -> ".toList ++ decimal r.newBytes ++ " bytes)".toList)

/-- Writes a changed stylesheet and, if wanted, first the copy of its former text. -/
def store (d : Directory) (options : Options) (report : Report) (former text : Text) :
    Except Failure Report × Directory :=
  if options.dryRun then (.ok report, d)
  else
    let backup := backupPath report.path options.backupSuffix
    let (copied, report) :=
      if options.backup then (d.writeText backup former, { report with backup := some backup })
      else (.ok d, report)
    match copied with
    | .error failure => (.error failure, d)
    | .ok d =>
      match d.writeText report.path text with
      | .error failure => (.error failure, d)
      | .ok d => (.ok report, d)

/-- Prunes the stylesheet at a path. -/
def pruneFile (d : Directory) (usage : Usage) (options : Options) (path : Text) : Attempt Report :=
  match d.readText path with
  | .error fault => ⟨.error (.read path fault), [], d⟩
  | .ok former =>
    let size := former.byteLength
    match prune former usage with
    | .unchanged => ⟨.ok ⟨path, 0, size, size, none⟩, [unchangedLog path], d⟩
    | .changed text removed =>
      let report : Report := ⟨path, removed, size, text.byteLength, none⟩
      let (result, after) := d.store options report former text
      ⟨result, [changedLog report], after⟩

/-- Prunes stylesheets one after the other. -/
def pruneFiles (d : Directory) (usage : Usage) (options : Options) :
    List Text → List (Except Failure Report) × List Log × Directory
  | [] => ([], [], d)
  | path :: rest =>
    let a := d.pruneFile usage options path
    let (results, log, after) := pruneFiles a.directory usage options rest
    (a.result :: results, a.log ++ log, after)

end Directory

end Cull
