import Cull.Files.Resolution
import Cull.Run.Workers
import Cull.Settings.Parser
import Cull.Usage.Collection

/-!
# Runs

A run resolves its inputs, collects the usage set from the pages and scripts,
and prunes the stylesheets. Pages and scripts that cannot be read are left out.
Up to then a run changes nothing; the stylesheets are pruned side by side, so
that there are as many ways for a run to go as there are schedules. In one of
them each stylesheet is pruned after the one before it is done.
-/

namespace Cull

/-- What a run has produced. -/
structure Summary where
  /-- The number of tokens in use. -/
  usageTokens : Nat
  /-- The tokens whose use is to be reported, with whether they are used. -/
  verified : List (Text × Bool)
  /-- What happened to each stylesheet. -/
  reports : List (Except Failure Report)

/-- The number of rules that were removed in all. -/
def Summary.totalRemoved (s : Summary) : Nat :=
  s.reports.foldl (fun n report =>
    match report with
    | .ok r => n + r.removed
    | .error _ => n) 0

namespace Directory

/-- The settings in the file at a path. -/
def loadSettings (d : Directory) (path : Text) : Except Failure Settings :=
  match d.readText path with
  | .error fault => .error (.read path fault)
  | .ok t =>
    match Settings.parse? t with
    | none => .error (.settings path)
    | some s => .ok s

/-- The evidence in the files at the given paths, with what there is to say about those that cannot
be read. -/
def evidenceIn (d : Directory) (kind : Text → Evidence) : List Text → List Evidence × List Log
  | [] => ([], [])
  | path :: rest =>
    let (es, log) := evidenceIn d kind rest
    match d.read path with
    | .ok content => (kind content.readable :: es, log)
    | .error fault =>
      (es, .warn ("skipping ".toList ++ path ++ ": ".toList ++ fault.message.toList) :: log)

/-- The record about a usage set. -/
def usageLog (u : Usage) : Log :=
  if u.isEmpty then .warn "no used selectors found; every class or id rule will be removed".toList
  else .info ("found ".toList ++ decimal u.size ++ " used selectors".toList)

/-- The usage set of pages and scripts. -/
def collectUsage (d : Directory) (markup scripts alwaysKeep : List Text) : Usage × List Log :=
  let (pages, pagesLog) := d.evidenceIn .page markup
  let (sources, sourcesLog) := d.evidenceIn .script scripts
  let u := ((Usage.keeping alwaysKeep).collect pages).collect sources
  (u, pagesLog ++ sourcesLog ++ [usageLog u])

/-- The stylesheets, pages and scripts of a run. There have to be stylesheets. -/
def resolveAll (d : Directory) (s : Settings) : Except Failure (List Text × List Text × List Text) × List Log :=
  match d.resolve s.stylesheets with
  | (.error failure, log) => (.error failure, log)
  | (.ok stylesheets, log) =>
    if stylesheets.isEmpty then (.error .noStylesheets, log)
    else
      match d.resolve s.markup with
      | (.error failure, more) => (.error failure, log ++ more)
      | (.ok markup, more) =>
        match d.resolve s.scripts with
        | (.error failure, last) => (.error failure, log ++ more ++ last)
        | (.ok scripts, last) => (.ok (stylesheets, markup, scripts), log ++ more ++ last)

/-- What has to be known before anything is pruned: the stylesheets and the usage set. -/
def prepare (d : Directory) (s : Settings) : Except Failure (List Text × Usage) × List Log :=
  match d.resolveAll s with
  | (.error failure, log) => (.error failure, log)
  | (.ok (stylesheets, markup, scripts), log) =>
    let (u, usageLog) := d.collectUsage markup scripts s.alwaysKeep
    (.ok (stylesheets, u), log ++ usageLog)

/-- What a run comes to, given what its stylesheets have come to. -/
def conclude (s : Settings) (u : Usage) (log : List Log)
    (pruned : List (Except Failure Report) × List Log × Directory) : Attempt Summary :=
  let (reports, pruneLog, after) := pruned
  ⟨.ok ⟨u.size, u.verify s.verify, reports⟩, log ++ pruneLog, after⟩

/-- Runs on a directory, one stylesheet after the other. -/
def run (d : Directory) (s : Settings) (options : Options) : Attempt Summary :=
  match d.prepare s with
  | (.error failure, log) => ⟨.error failure, log, d⟩
  | (.ok (stylesheets, u), log) => conclude s u log (d.pruneFiles u options stylesheets)

/-- Runs on a directory, with a worker for each stylesheet. As long as one of them has not finished,
there is no result. -/
def runInTurns (d : Directory) (s : Settings) (options : Options) (schedule : List Nat) : Option (Attempt Summary) :=
  match d.prepare s with
  | (.error failure, log) => some ⟨.error failure, log, d⟩
  | (.ok (stylesheets, u), log) =>
    ((Pool.start d stylesheets).run u options schedule).outcome?.map (conclude s u log)

end Directory

end Cull
