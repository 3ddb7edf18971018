import Cull.Proofs.Workers
import Cull.Run.Basic

/-!
# What a run writes

A run whose inputs can be resolved leaves the stylesheets to workers that take turns. A worker
writes only if something was removed and it is no dry run, and from then on it cannot fail
(`advance_cases`): its stylesheet was there when it was read, and no turn takes a file away. So
after any turns nothing but the stylesheets of busy workers and their copies is different
(`Tidy.run`), and in the end a busy worker has a report (`pruning_is_atomic_and_framed`). Pruning one
stylesheet after the other is one of the ways to take turns (`run_in_order`).
-/

namespace Cull

namespace Worker

open Directory

variable {d d' : Directory} {usage : Usage} {options : Options} {path : Text} {w w' : Worker} {log : List Log}

/-- A worker that has written, or is about to write over its stylesheet. -/
def Busy : Worker → Prop
  | writing report _ => 0 < report.removed
  | finished (.ok report) => 0 < report.removed
  | _ => False

/-- There is something to be written to the stylesheet, and it can be. -/
structure Due (options : Options) (d : Directory) (path : Text) (report : Report) : Prop where
  /-- It is no dry run. -/
  real : options.dryRun = false
  /-- Something was removed. -/
  removed : 0 < report.removed
  /-- The stylesheet is there. -/
  file : ∃ l c, d.fileAt path = .ok (l, c)

/-- What a worker has still to write is due, and there is a copy to be made only if copies are wanted. -/
def Ready (options : Options) (d : Directory) (path : Text) : Worker → Prop
  | copying report _ _ => options.backup = true ∧ Due options d path report
  | writing report _ => Due options d path report
  | _ => True

theorem Due.put {report : Report} (h : Due options d path report) (m : Location) (c : Content) :
    Due options (d.put m (.file c)) path report where
  real := h.real
  removed := h.removed
  file := by
    obtain ⟨l, c', hfile⟩ := h.file
    obtain ⟨c'', hfile'⟩ := exists_fileAt_put hfile m c
    exact ⟨l, c'', hfile'⟩

/-- A file that another worker puts somewhere does not keep this one from going on. -/
theorem Ready.put (h : w.Ready options d path) (m : Location) (c : Content) :
    w.Ready options (d.put m (.file c)) path := by
  cases w with
  | copying report former text => exact ⟨h.1, h.2.put m c⟩
  | writing report text => exact Due.put h m c
  | _ => trivial

/-- What pruning has made of the text of a stylesheet is due, unless it is a dry run. -/
theorem due_of_readText {former text : Text} {n : Nat} {report : Report} (hread : d.readText path = .ok former)
    (hprune : prune former usage = .changed text n) (hremoved : report.removed = n) (hdry : ¬options.dryRun = true) :
    Due options d path report where
  real := by simpa using hdry
  removed := hremoved ▸ removed_pos_of_prune hprune
  file := by
    rw [readText_eq] at hread
    split at hread
    · cases hread
    · next l t hfile => exact ⟨l, _, hfile⟩
    · cases hread

/-- A step leaves the directory as it is, or it is the step of a busy worker that puts one file where its stylesheet
or the copy belongs. A busy worker stays busy. -/
theorem advance_cases (usage : Usage) (hready : w.Ready options d path) :
    (w.advance usage options path d).1.Ready options (w.advance usage options path d).2.2 path ∧
      (w.Busy → (w.advance usage options path d).1.Busy) ∧
      ((w.advance usage options path d).2.2 = d ∨ options.dryRun = false ∧ (w.advance usage options path d).1.Busy ∧
        ∃ m c, Concerns d options path m ∧ (w.advance usage options path d).2.2 = d.put m (.file c)) := by
  fun_cases advance usage options path d w with
  | case1 | case2 | case3 | case6 => exact ⟨trivial, False.elim, .inl rfl⟩
  | case4 former hread size text n hprune report log hdry hbackup =>
    exact ⟨⟨hbackup, due_of_readText hread hprune rfl hdry⟩, False.elim, .inl rfl⟩
  | case5 former hread size text n hprune report log hdry hbackup =>
    exact ⟨due_of_readText hread hprune rfl hdry, False.elim, .inl rfl⟩
  | case7 report former text backup after hwritten =>
    obtain ⟨hbackup, hdue⟩ := hready
    rw [writeText_eq] at hwritten
    cases hcopy : d.placeFor backup with
    | error fault =>
      rw [hcopy] at hwritten
      cases hwritten
    | ok copy =>
      rw [hcopy] at hwritten
      cases hwritten
      have hdue' : Due options d path { report with backup := some backup } := ⟨hdue.real, hdue.removed, hdue.file⟩
      refine ⟨hdue'.put _ _, False.elim, .inr ⟨hdue.real, hdue.removed, copy, _, .inr ⟨hbackup, ?_⟩, rfl⟩⟩
      exact (placeFor_eq_ok_iff.1 hcopy).1
  | case8 report text failure hfailed =>
    obtain ⟨l, c, hfile⟩ := hready.file
    rw [writeText_eq, placeFor_of_fileAt hfile] at hfailed
    cases hfailed
  | case9 report text after hwritten =>
    obtain ⟨l, c, hfile⟩ := hready.file
    rw [writeText_eq, placeFor_of_fileAt hfile] at hwritten
    cases hwritten
    refine ⟨trivial, id, .inr ⟨hready.real, hready.removed, l, _, .inl ?_, rfl⟩⟩
    exact (fileAt_eq_ok_iff.1 hfile).1
  | case10 => exact ⟨trivial, id, .inl rfl⟩

end Worker

/-! ### Any turns -/

namespace Pool

open Directory Worker

variable {usage : Usage} {options : Options} {pool : Pool} {d : Directory}

/-- From a directory nothing has changed but what belongs to busy workers, and all workers can go on. -/
structure Tidy (options : Options) (d : Directory) (pool : Pool) : Prop where
  /-- Every worker can go on. -/
  ready : ∀ a ∈ pool.workers, a.2.Ready options pool.directory a.1
  /-- The changes are those of busy workers. -/
  frame : Frame (fun l => ∃ a ∈ pool.workers, a.2.Busy ∧ Concerns d options a.1 l) d pool.directory
  /-- A dry run changes nothing. -/
  dry : options.dryRun = true → pool.directory = d

theorem tidy_start (options : Options) (d : Directory) (paths : List Text) : Tidy options d (start d paths) where
  ready a ha := by
    obtain ⟨path, -, rfl⟩ := List.mem_map.1 ha
    trivial
  frame := .refl _ d
  dry _ := rfl

/-- A step of one of the workers. -/
theorem Tidy.advance {now now' : Directory} {before after : List (Text × Worker)} {path : Text} {w w' : Worker}
    {log said : List Log} (h : Tidy options d ⟨now, before ++ (path, w) :: after, log⟩)
    (hstep : w.advance usage options path now = (w', said, now')) (log' : List Log) :
    Tidy options d ⟨now', before ++ (path, w') :: after, log'⟩ := by
  obtain ⟨hready, hframe, hdry⟩ := h
  obtain ⟨hown, hstays, hput⟩ := advance_cases usage (hready (path, w) (by simp))
  simp only [hstep] at hown hstays hput
  -- busy workers stay busy, so that what belonged to them still does
  have hframe' : Frame (fun l => ∃ a ∈ before ++ (path, w') :: after, a.2.Busy ∧ Concerns d options a.1 l) d now := by
    refine hframe.mono ?_
    rintro l ⟨a, ha, hbusy, hconcerns⟩
    rcases List.mem_cons.1 (List.perm_middle.mem_iff.1 ha) with rfl | ha
    · exact ⟨(path, w'), by simp, hstays hbusy, hconcerns⟩
    · exact ⟨a, List.perm_middle.mem_iff.2 (.tail _ ha), hbusy, hconcerns⟩
  have hothers : ∀ a ∈ before ++ after, a.2.Ready options now a.1 :=
    fun a ha => hready a (List.perm_middle.mem_iff.2 (.tail _ ha))
  have hall : (∀ a ∈ before ++ after, a.2.Ready options now' a.1) →
      ∀ a ∈ before ++ (path, w') :: after, a.2.Ready options now' a.1 := by
    intro hothers' a ha
    rcases List.mem_cons.1 (List.perm_middle.mem_iff.1 ha) with rfl | ha
    · exact hown
    · exact hothers' a ha
  obtain rfl | ⟨hreal, hbusy, m, c, hconcerns, rfl⟩ := hput
  · exact ⟨hall hothers, hframe', hdry⟩
  · refine ⟨hall fun a ha => (hothers a ha).put m c, ?_, fun hdry => by simp [hreal] at hdry⟩
    refine hframe'.trans ((frame_put now m c).mono ?_)
    rintro l rfl
    exact ⟨(path, w'), by simp, hbusy, hframe.concerns.1 hconcerns⟩

theorem Tidy.turn (h : Tidy options d pool) (usage : Usage) (i : Nat) : Tidy options d (pool.turn usage options i) := by
  obtain ⟨now, workers, log⟩ := pool
  rcases exists_turn ⟨now, workers, log⟩ i with hturn | ⟨before, path, w, after, rfl, -, hturn⟩
  · rwa [hturn]
  · rw [hturn]
    exact h.advance rfl _

/-- Whoever has its turn, nothing has changed but what belongs to busy workers. -/
theorem Tidy.run (h : Tidy options d pool) (usage : Usage) (schedule : List Nat) :
    Tidy options d (pool.run usage options schedule) := by
  induction schedule generalizing pool with
  | nil => exact h
  | cons i schedule ih => exact ih (h.turn usage i)

/-! ### The end -/

theorem map_fst_start (d : Directory) (paths : List Text) : (start d paths).workers.map Prod.fst = paths := by
  simp [start, Function.comp_def]

theorem map_fst_run (usage : Usage) (options : Options) (pool : Pool) (schedule : List Nat) :
    (pool.run usage options schedule).workers.map Prod.fst = pool.workers.map Prod.fst := by
  induction schedule generalizing pool with
  | nil => rfl
  | cons i schedule ih =>
    refine (ih _).trans ?_
    rcases exists_turn pool i with hturn | ⟨before, path, w, after, hworkers, -, hturn⟩
    · rw [hturn]
    · rw [hturn, hworkers]
      simp

theorem mapM_result?_eq_some_iff {workers : List (Text × Worker)} {results : List (Except Failure Report)} :
    workers.mapM (fun a => a.2.result?) = some results ↔ workers.map Prod.snd = results.map .finished := by
  induction workers generalizing results with
  | nil => cases results <;> simp
  | cons a workers ih =>
    have hresult : ∀ result, a.2.result? = some result ↔ a.2 = .finished result := by
      intro result
      cases a.2 <;> simp [result?]
    cases results with
    | nil => simp [List.mapM_cons, Option.bind_eq_some_iff]
    | cons result results => simp [List.mapM_cons, Option.bind_eq_some_iff, ih, hresult]

/-- There is an outcome once all workers have finished. -/
theorem outcome?_eq_some_iff {results : List (Except Failure Report)} {log : List Log} {after : Directory} :
    pool.outcome? = some (results, log, after) ↔
      pool.workers.map Prod.snd = results.map .finished ∧ pool.log = log ∧ pool.directory = after := by
  rw [← mapM_result?_eq_some_iff, outcome?]
  cases pool.workers.mapM fun a => a.2.result? <;> simp

theorem IsDone.exists_outcome (h : pool.IsDone) : ∃ outcome, pool.outcome? = some outcome := by
  obtain ⟨hresults, -⟩ := h.outcome .empty .default
  exact ⟨_, outcome?_eq_some_iff.2 ⟨hresults, rfl, rfl⟩⟩

/-- Workers that take their turns one after the other do what pruning one stylesheet after the other does. -/
theorem run_in_order (usage : Usage) (options : Options) (d : Directory) (paths : List Text)
    (before : List (Text × Worker)) (log : List Log) :
    ∃ schedule, run usage options ⟨d, before ++ paths.map (fun path => (path, .waiting)), log⟩ schedule =
      ⟨(d.pruneFiles usage options paths).2.2,
        before ++ paths.zip ((d.pruneFiles usage options paths).1.map .finished),
        log ++ (d.pruneFiles usage options paths).2.1⟩ := by
  induction paths generalizing d before log with
  | nil => exact ⟨[], by simp [run, pruneFiles]⟩
  | cons path rest ih =>
    have hfirst := run_three_turns usage options d before path (rest.map fun path => (path, .waiting)) log
    obtain ⟨schedule, hrest⟩ := ih (d.pruneFile usage options path).directory
      (before ++ [(path, .finished (d.pruneFile usage options path).result)])
      (log ++ (d.pruneFile usage options path).log)
    refine ⟨[before.length, before.length, before.length] ++ schedule, ?_⟩
    rw [List.append_assoc, List.singleton_append] at hrest
    rw [List.map_cons, run, List.foldl_append, ← run, ← run, hfirst, hrest]
    simp [pruneFiles]

theorem exists_outcome_eq_pruneFiles (usage : Usage) (options : Options) (d : Directory) (paths : List Text) :
    ∃ schedule, ((start d paths).run usage options schedule).outcome? = some (d.pruneFiles usage options paths) := by
  obtain ⟨schedule, hrun⟩ := run_in_order usage options d paths [] []
  have hlength : ((d.pruneFiles usage options paths).1.map Worker.finished).length ≤ paths.length := by
    simp [length_pruneFiles]
  refine ⟨schedule, outcome?_eq_some_iff.2 ?_⟩
  rw [start, ← List.nil_append (paths.map _), hrun]
  exact ⟨List.map_snd_zip hlength, rfl, rfl⟩

/-- A busy worker that has finished has a report of what it has removed. -/
theorem exists_report_of_busy {results : List (Except Failure Report)} {a : Text × Worker} (ha : a ∈ pool.workers)
    (hbusy : a.2.Busy) (hdone : pool.workers.map Prod.snd = results.map .finished) :
    ∃ report, (a.1, .ok report) ∈ (pool.workers.map Prod.fst).zip results ∧ 0 < report.removed := by
  have hall : pool.workers = ((pool.workers.map Prod.fst).zip results).map (Prod.map id .finished) := by
    rw [← List.zip_map_right, ← hdone, ← List.unzip_fst, ← List.unzip_snd, List.zip_unzip]
  rw [hall] at ha
  obtain ⟨⟨path, result⟩, hmem, rfl⟩ := List.mem_map.1 ha
  cases result with
  | error failure => cases hbusy
  | ok report => exact ⟨report, hmem, hbusy⟩

end Pool

namespace Directory

open Worker

variable {d : Directory} {options : Options}

/-! ### Runs -/

theorem resolve_eq_of_prepare {s : Settings} {stylesheets : List Text} {u : Usage} {log : List Log}
    (h : d.prepare s = (.ok (stylesheets, u), log)) : (d.resolve s.stylesheets).1 = .ok stylesheets := by
  unfold prepare at h
  split at h
  · cases h
  next found markup scripts said hfound =>
  cases h
  unfold resolveAll at hfound
  split at hfound
  · cases hfound
  next found' said' hresolve =>
  split at hfound
  · cases hfound
  split at hfound
  · cases hfound
  split at hfound
  · cases hfound
  · cases hfound
    rw [hresolve]

/-- A run ends before anything is pruned, or its workers have finished and what they have come to is reported. -/
theorem runInTurns_cases {s : Settings} {schedule : List Nat} {attempt : Attempt Summary}
    (h : d.runInTurns s options schedule = some attempt) :
    (∃ failure, attempt.result = .error failure) ∧ attempt.directory = d ∨
      ∃ stylesheets u summary, (d.resolve s.stylesheets).1 = .ok stylesheets ∧ attempt.result = .ok summary ∧
        ((Pool.start d stylesheets).run u options schedule).workers.map Prod.snd = summary.reports.map .finished ∧
        attempt.directory = ((Pool.start d stylesheets).run u options schedule).directory := by
  unfold runInTurns at h
  split at h
  · cases h
    exact .inl ⟨⟨_, rfl⟩, rfl⟩
  · next stylesheets u log hprepare =>
    obtain ⟨⟨results, said, after⟩, houtcome, rfl⟩ := Option.map_eq_some_iff.1 h
    obtain ⟨hresults, -, hafter⟩ := Pool.outcome?_eq_some_iff.1 houtcome
    exact .inr ⟨stylesheets, u, _, resolve_eq_of_prepare hprepare, rfl, hresults, hafter.symm⟩

/-- Three turns for each stylesheet are enough for a run to end. -/
theorem exists_runInTurns {s : Settings} {schedule : List Nat}
    (h : ∀ stylesheets, (d.resolve s.stylesheets).1 = .ok stylesheets →
      ∀ i < stylesheets.length, 3 ≤ schedule.count i) :
    ∃ attempt, d.runInTurns s options schedule = some attempt := by
  unfold runInTurns
  split
  · exact ⟨_, rfl⟩
  · next stylesheets u log hprepare =>
    obtain ⟨outcome, houtcome⟩ := (Pool.isDone_run (h stylesheets (resolve_eq_of_prepare hprepare))).exists_outcome
    exact ⟨_, Option.map_eq_some_iff.2 ⟨outcome, houtcome, rfl⟩⟩

/-- One of the ways a run can go is one stylesheet after the other. -/
theorem exists_runInTurns_eq_run (d : Directory) (s : Settings) (options : Options) :
    ∃ schedule, d.runInTurns s options schedule = some (d.run s options) := by
  unfold runInTurns run
  split
  · exact ⟨[], rfl⟩
  · next stylesheets u log hprepare =>
    obtain ⟨schedule, houtcome⟩ := Pool.exists_outcome_eq_pruneFiles u options d stylesheets
    exact ⟨schedule, Option.map_eq_some_iff.2 ⟨_, houtcome, rfl⟩⟩

/-- Pruning a file changes nothing if it fails, removes nothing or is a dry run; otherwise the
stylesheet holds its pruned text, and nothing is different but it and its copy. However the workers of a
run take turns, a run that fails or is a dry run changes nothing, and otherwise a change is one of a stylesheet
that was found, or of its copy, with a report that something was removed from it. A run ends if each stylesheet
has three turns, and one stylesheet after the other is one of the ways. -/
theorem pruning_is_atomic_and_framed (d : Directory) (usage : Usage) (options : Options) :
    (∀ path,
      (Idle options (d.pruneFile usage options path).result → (d.pruneFile usage options path).directory = d) ∧
      (¬Idle options (d.pruneFile usage options path).result →
        ∃ former text n, d.read path = .ok (.text former) ∧ prune former usage = .changed text n ∧
          (d.pruneFile usage options path).directory.read path = .ok (.text text)) ∧
      ∀ l, (d.pruneFile usage options path).directory.get? l ≠ d.get? l → Concerns d options path l) ∧
    ∀ s : Settings,
      (∀ schedule attempt, d.runInTurns s options schedule = some attempt →
        ((∃ failure, attempt.result = .error failure) ∨ options.dryRun = true → attempt.directory = d) ∧
        ∀ l, attempt.directory.get? l ≠ d.get? l →
          ∃ stylesheets summary, (d.resolve s.stylesheets).1 = .ok stylesheets ∧ attempt.result = .ok summary ∧
            ∃ path report, (path, .ok report) ∈ stylesheets.zip summary.reports ∧ 0 < report.removed ∧
              Concerns d options path l) ∧
      (∀ schedule, (∀ stylesheets, (d.resolve s.stylesheets).1 = .ok stylesheets →
        ∀ i < stylesheets.length, 3 ≤ schedule.count i) → ∃ attempt, d.runInTurns s options schedule = some attempt) ∧
      ∃ schedule, d.runInTurns s options schedule = some (d.run s options) := by
  constructor
  · intro path
    have hframe := pruneFile_frame d usage options path
    refine ⟨directory_eq_of_idle, fun hbusy => ?_, fun l hl => ?_⟩
    · obtain ⟨l, former, text, n, hfile, hprune, hafter⟩ := get?_of_not_idle hbusy
      obtain ⟨hl, hget⟩ := fileAt_eq_ok_iff.1 hfile
      exact ⟨former, text, n, read_eq_ok_iff.2 ⟨l, hl, hget⟩, hprune, read_eq_ok_iff.2 ⟨l, hframe.locate.2 hl, hafter⟩⟩
    · by_contra hother
      exact hl (hframe.elsewhere l hother)
  · intro s
    refine ⟨fun schedule attempt hrun => ?_, fun schedule => exists_runInTurns, exists_runInTurns_eq_run d s options⟩
    rcases runInTurns_cases hrun with ⟨-, hsame⟩ | ⟨stylesheets, u, summary, hfound, hok, hdone, hafter⟩
    · exact ⟨fun _ => hsame, fun l hl => absurd (by rw [hsame]) hl⟩
    have htidy := (Pool.tidy_start options d stylesheets).run u schedule
    refine ⟨?_, fun l hl => ⟨stylesheets, summary, hfound, hok, ?_⟩⟩
    · rintro (⟨failure, herror⟩ | hdry)
      · exact absurd (hok.symm.trans herror) (by simp)
      · rw [hafter, htidy.dry hdry]
    · have hchanged : ∃ a ∈ ((Pool.start d stylesheets).run u options schedule).workers,
          a.2.Busy ∧ Concerns d options a.1 l := by
        by_contra hother
        exact hl (hafter ▸ htidy.frame.elsewhere l hother)
      obtain ⟨a, ha, hbusy, hconcerns⟩ := hchanged
      obtain ⟨report, hreport, hremoved⟩ := Pool.exists_report_of_busy ha hbusy hdone
      rw [Pool.map_fst_run, Pool.map_fst_start] at hreport
      exact ⟨a.1, report, hreport, hremoved, hconcerns⟩

/-- A directory in which the copy of a stylesheet cannot be made: a directory has its name. -/
def blocked : Directory :=
  (empty.enter ["w".toList]).fill
    [(["tmp".toList], .directory), (["tmp".toList, "a.css".toList], .file (.text ".x{a:1}".toList)),
      (["tmp".toList, "a.css.backup".toList], .directory)]

/-- Where the copy cannot be made the stylesheet is kept; without one, its pruned text is written. A dry run on
it comes to an end and leaves all as it was. -/
theorem pruning_is_atomic_and_framed_blocked :
    (blocked.pruneFile .empty .default "/tmp/a.css".toList).result =
        .error (.write "/tmp/a.css.backup".toList .isDirectory) ∧
      (blocked.pruneFile .empty .default "/tmp/a.css".toList).directory = blocked ∧
      (∃ former text n, blocked.read "../tmp/a.css".toList = .ok (.text former) ∧
        prune former .empty = .changed text n ∧
        (blocked.pruneFile .empty ⟨false, [], false⟩ "../tmp/a.css".toList).directory.read "../tmp/a.css".toList =
          .ok (.text text)) ∧
      ∃ attempt, blocked.runInTurns ⟨[], [], ["/tmp/a.css".toList], [], [], false, []⟩ ⟨false, [], true⟩ [0, 0, 0] =
        some attempt ∧ attempt.directory = blocked := by
  have herror : (blocked.pruneFile .empty .default "/tmp/a.css".toList).result =
      .error (.write "/tmp/a.css.backup".toList .isDirectory) := by decide +kernel
  have hok : (blocked.pruneFile .empty ⟨false, [], false⟩ "../tmp/a.css".toList).result =
      .ok ⟨"../tmp/a.css".toList, 1, 7, 0, none⟩ := by decide +kernel
  have hfound : (blocked.resolve ["/tmp/a.css".toList]).1 = .ok ["/tmp/a.css".toList] := by decide +kernel
  refine ⟨herror, ((pruning_is_atomic_and_framed blocked .empty .default).1 _).1 (.inl ⟨_, herror⟩), ?_, ?_⟩
  · refine ((pruning_is_atomic_and_framed blocked .empty ⟨false, [], false⟩).1 _).2.1 ?_
    rw [hok]
    rintro (⟨failure, ⟨⟩⟩ | ⟨report, ⟨⟩, hzero⟩ | hdry)
    · cases hzero
    · cases hdry
  · obtain ⟨hframe, hends, -⟩ := (pruning_is_atomic_and_framed blocked .empty ⟨false, [], true⟩).2
      ⟨[], [], ["/tmp/a.css".toList], [], [], false, []⟩
    obtain ⟨attempt, hattempt⟩ := hends [0, 0, 0] fun stylesheets hstylesheets => by
      cases hfound.symm.trans hstylesheets
      decide
    exact ⟨attempt, hattempt, (hframe _ _ hattempt).1 (.inr rfl)⟩

end Directory

end Cull
