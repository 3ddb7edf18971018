import Cull.Run.Stylesheet

/-!
# Pruning files side by side

Each stylesheet has a worker of its own, and the workers have one directory. A
worker reads its stylesheet, writes the copy and writes the new text; between
two of these steps any of the others can take theirs. A schedule says whose turn
it is, so that every schedule is one way in which it can go.
-/

namespace Cull

/-- How far a worker has come with its stylesheet. -/
inductive Worker where
  /-- The file has not been read. -/
  | waiting
  /-- The copy is written next, then the new text. -/
  | copying (report : Report) (former text : Text)
  /-- The new text is written next. -/
  | writing (report : Report) (text : Text)
  /-- There is a result. -/
  | finished (result : Except Failure Report)

namespace Worker

/-- The next step with the stylesheet at a path: how far the worker has come then, what it has to
say, and the directory afterwards. -/
def advance (usage : Usage) (options : Options) (path : Text) (d : Directory) : Worker → Worker × List Log × Directory
  | waiting =>
    match d.readText path with
    | .error fault => (finished (.error (.read path fault)), [], d)
    | .ok former =>
      let size := former.byteLength
      match prune former usage with
      | .unchanged => (finished (.ok ⟨path, 0, size, size, none⟩), [Directory.unchangedLog path], d)
      | .changed text removed =>
        let report : Report := ⟨path, removed, size, text.byteLength, none⟩
        let log := [Directory.changedLog report]
        if options.dryRun then (finished (.ok report), log, d)
        else if options.backup then (copying report former text, log, d)
        else (writing report text, log, d)
  | copying report former text =>
    let backup := Directory.backupPath path options.backupSuffix
    match d.writeText backup former with
    | .error failure => (finished (.error failure), [], d)
    | .ok d => (writing { report with backup := some backup } text, [], d)
  | writing report text =>
    match d.writeText path text with
    | .error failure => (finished (.error failure), [], d)
    | .ok d => (finished (.ok report), [], d)
  | finished result => (finished result, [], d)

/-- The result of a worker that has finished. -/
def result? : Worker → Option (Except Failure Report)
  | finished result => some result
  | _ => none

end Worker

/-- Workers with one directory. -/
structure Pool where
  /-- The directory. -/
  directory : Directory
  /-- The stylesheets, with how far their workers have come. -/
  workers : List (Text × Worker)
  /-- What the workers have said. -/
  log : List Log

namespace Pool

/-- Nothing has been done yet. -/
def start (d : Directory) (paths : List Text) : Pool := ⟨d, paths.map fun path => (path, .waiting), []⟩

/-- One of the workers takes its next step. -/
def turn (usage : Usage) (options : Options) (pool : Pool) (i : Nat) : Pool :=
  match pool.workers[i]? with
  | none => pool
  | some (path, w) =>
    let (next, log, after) := w.advance usage options path pool.directory
    ⟨after, pool.workers.set i (path, next), pool.log ++ log⟩

/-- The workers take turns. -/
def run (usage : Usage) (options : Options) (pool : Pool) (schedule : List Nat) : Pool :=
  schedule.foldl (turn usage options) pool

/-- What has come of the stylesheets, once all workers have finished. -/
def outcome? (pool : Pool) : Option (List (Except Failure Report) × List Log × Directory) := do
  let results ← pool.workers.mapM fun a => a.2.result?
  return (results, pool.log, pool.directory)

end Pool

end Cull
