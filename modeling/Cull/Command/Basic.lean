import Cull.Command.Arguments
import Cull.Run.Basic

/-!
# The command

What the command prints for a run, and its exit code.
-/

namespace Cull.Command

/-- What the command does. -/
structure Effect where
  /-- The exit code. -/
  exit : Nat
  /-- What is printed. -/
  output : Text
  /-- The lines printed for errors and the log. -/
  errors : List Text
  /-- The directory afterwards. -/
  directory : Directory

/-- The lines with which the output begins. -/
def introduction : List Text :=
  ["", "    PruneCSS - remove stylesheet rules nothing references", ""].map String.toList

/-- The lines about tokens whose use is to be reported. -/
def verifiedLines (verified : List (Text × Bool)) : List Text :=
  if verified.isEmpty then []
  else
    [[], "Verifying critical selectors:".toList] ++
      verified.map fun (token, found) => (if found then "  ✓ " else "  ✗ ").toList ++ token

/-- The lines about a stylesheet. -/
def reportLines (r : Report) : List Text :=
  let processing := [[], "Processing ".toList ++ r.path ++ "...".toList]
  if r.changed then
    let percent := match r.reduction? with
      | some d => d.toTenths.toList
      | none => []
    processing ++
      ["  Removed ".toList ++ Directory.decimal r.removed ++ " unused CSS rules".toList,
        "  Size reduced by ".toList ++ percent ++ "% (".toList ++ Directory.decimal r.formerBytes
          ++ " -> ".toList ++ Directory.decimal r.newBytes ++ " bytes)".toList] ++
      match r.backup with
      | some path => ["  Backup written to ".toList ++ path]
      | none => []
  else processing ++ ["  No unused CSS rules found".toList]

/-- The lines about a run. -/
def summaryLines (s : Summary) : List Text :=
  ["Found ".toList ++ Directory.decimal s.usageTokens ++ " used selectors".toList] ++
    verifiedLines s.verified ++
    s.reports.flatMap (fun
      | .ok r => reportLines r
      | .error _ => []) ++
    [[], "Total: Removed ".toList ++ Directory.decimal s.totalRemoved ++ " unused CSS rules".toList]

/-- The line about a failure. -/
def failureLine (f : Failure) : Text := "error: ".toList ++ f.message

/-- The lines about stylesheets that failed. -/
def failureLines (s : Summary) : List Text :=
  s.reports.filterMap fun
    | .ok _ => none
    | .error f => some (failureLine f)

/-- The lines as one text, each with a line end. -/
def unlines (lines : List Text) : Text := lines.flatMap (· ++ ['\n'])

/-- The records of the log that are printed. -/
def logLines (verbosity : Nat) (log : List Log) : List Text :=
  (log.filter fun r => r.isWarning || 0 < verbosity).map Log.line

/-- The settings that the arguments ask for. -/
def settings (d : Directory) (a : Arguments) : Except Failure Settings := do
  let base ← match a.config with
    | some path => d.loadSettings path
    | none => .ok .default
  return a.extend base

/-- The command with accepted arguments. -/
def perform (d : Directory) (a : Arguments) : Effect :=
  match settings d a with
  | .error f => ⟨1, unlines introduction, [failureLine f], d⟩
  | .ok s =>
    let attempt := d.run s { Options.ofSettings s with dryRun := a.dryRun }
    let log := logLines a.verbosity attempt.log
    match attempt.result with
    | .error f => ⟨1, unlines introduction, log ++ [failureLine f], attempt.directory⟩
    | .ok summary =>
      ⟨0, unlines (introduction ++ summaryLines summary), log ++ failureLines summary, attempt.directory⟩

/-- The command; `none` if the arguments are not accepted. -/
def run? (d : Directory) (args : List Text) : Option Effect := (Arguments.parse? args).map (perform d)

end Cull.Command
