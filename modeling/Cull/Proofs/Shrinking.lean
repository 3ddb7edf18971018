import Cull.Proofs.RunFootprint

/-!
# Pruned stylesheets are shorter

What is cut out of a stylesheet is never empty, and reducing blank lines only takes
characters away, so a changed text is shorter than the text it was made of. A report
holds the sizes of two such texts (`Report.TellsOf`), and then its sizes and its count
agree and it has a share in percent (`Report.TellsOf.shrinks`). Reports are made in one
step of a worker and passed on by the others (`accurate_advance`), so this holds of all
of them, also when stylesheets are pruned side by side and one is written to while
another is read (`accurate_run`).
-/

namespace Cull

open Text

/-! ### Reports -/

namespace Report

variable {usage : Usage} {former : Text} {r : Report}

/-- The report says how many rules pruning takes out of a text, and how large the text is before and
after. -/
structure TellsOf (usage : Usage) (former : Text) (r : Report) : Prop where
  /-- The number of rules that go. -/
  removed : r.removed = (prune former usage).removed
  /-- The size of the text. -/
  formerBytes : r.formerBytes = byteLength former
  /-- The size of what is left; an unchanged text is left as it is. -/
  newBytes : r.newBytes = byteLength ((prune former usage).text?.getD former)

/-- The stylesheet did not become larger, it became smaller if and only if something was removed, and
there is a share by which it did. -/
structure Shrinks (r : Report) : Prop where
  /-- The new text is no larger. -/
  le : r.newBytes ≤ r.formerBytes
  /-- The sizes are equal exactly if nothing was removed. -/
  eq_iff : r.newBytes = r.formerBytes ↔ r.removed = 0
  /-- The new size can be taken off the former one. -/
  share : ∃ share, r.reduction? = some share

/-- There is no share exactly if a stylesheet became larger, and it was not empty. -/
theorem reduction?_eq_none_iff : r.reduction? = none ↔ r.formerBytes ≠ 0 ∧ r.formerBytes < r.newBytes := by
  unfold reduction?
  split
  · next hzero => simp [hzero]
  · next hne =>
    split
    · next hlt => simp [hne, hlt]
    · next hle => simp [hle]

theorem exists_share (h : r.newBytes ≤ r.formerBytes) : ∃ share, r.reduction? = some share := by
  refine Option.ne_none_iff_exists'.1 fun hnone => ?_
  obtain ⟨-, hlt⟩ := reduction?_eq_none_iff.1 hnone
  exact absurd h (Nat.not_le_of_lt hlt)

/-- The sizes of a text before and after pruning agree with the count. -/
theorem TellsOf.shrinks (h : r.TellsOf usage former) : r.Shrinks := by
  obtain ⟨hremoved, hformer, hnew⟩ := h
  cases hprune : prune former usage with
  | unchanged =>
    rw [hprune] at hremoved hnew
    have heq : r.newBytes = r.formerBytes := hnew.trans hformer.symm
    exact ⟨Nat.le_of_eq heq, iff_of_true heq hremoved, exists_share (Nat.le_of_eq heq)⟩
  | changed text n =>
    have hpos := removed_pos_of_prune hprune
    have hlt := byteLength_lt_of_prune hprune
    rw [hprune] at hremoved hnew
    rw [Pruned.removed] at hremoved
    rw [Pruned.text?, Option.getD_some] at hnew
    have hle : r.newBytes ≤ r.formerBytes := by omega
    exact ⟨hle, iff_of_false (by omega) (by omega), exists_share hle⟩

/-- Where the copy was kept has nothing to do with it. -/
theorem TellsOf.withBackup (h : r.TellsOf usage former) (backup : Option Text) :
    { r with backup := backup }.TellsOf usage former :=
  ⟨h.removed, h.formerBytes, h.newBytes⟩

theorem tellsOf_unchanged (hprune : prune former usage = .unchanged) (path : Text) :
    TellsOf usage former ⟨path, 0, byteLength former, byteLength former, none⟩ :=
  ⟨by rw [hprune]; rfl, rfl, by rw [hprune]; rfl⟩

theorem tellsOf_changed {text : Text} {n : Nat} (hprune : prune former usage = .changed text n) (path : Text) :
    TellsOf usage former ⟨path, n, byteLength former, byteLength text, none⟩ :=
  ⟨by rw [hprune]; rfl, rfl, by rw [hprune]; rfl⟩

end Report

/-! ### One file -/

namespace Directory

variable {d : Directory} {usage : Usage} {options : Options} {path : Text} {report : Report}

theorem tellsOf_effect {file : Except Fault (Location × Content)} {place : Except Fault Location}
    (h : (effect usage options path file place).result = .ok report) :
    ∃ l former, file = .ok (l, .text former) ∧ report.TellsOf usage former := by
  revert h
  fun_cases effect usage options path file place with
  | case1 fault => rintro ⟨⟩
  | case2 => rintro ⟨⟩
  | case3 place l former size hprune =>
    rintro ⟨⟩
    exact ⟨l, former, rfl, Report.tellsOf_unchanged hprune path⟩
  | case4 place l former size text n hprune own log hdry =>
    intro h
    obtain rfl := Except.ok.inj h
    exact ⟨l, former, rfl, Report.tellsOf_changed hprune path⟩
  | case5 => rintro ⟨⟩
  | case6 l former size text n hprune own log hdry hbackup backup copy =>
    intro h
    obtain rfl := Except.ok.inj h
    exact ⟨l, former, rfl, (Report.tellsOf_changed hprune path).withBackup _⟩
  | case7 place l former size text n hprune own log hdry hbackup =>
    intro h
    obtain rfl := Except.ok.inj h
    exact ⟨l, former, rfl, Report.tellsOf_changed hprune path⟩

/-- A report tells of the text that was read. -/
theorem tellsOf_pruneFile (h : (d.pruneFile usage options path).result = .ok report) :
    ∃ former, d.readText path = .ok former ∧ report.TellsOf usage former := by
  rw [pruneFile_eq] at h
  obtain ⟨l, former, hfile, htells⟩ := tellsOf_effect h
  refine ⟨former, ?_, htells⟩
  rw [readText_eq, hfile]

end Directory

/-! ### Side by side -/

/-- The report that a worker carries tells of a text that it has read. -/
def Worker.Accurate (usage : Usage) : Worker → Prop
  | waiting => True
  | copying report _ _ => ∃ former, report.TellsOf usage former
  | writing report _ => ∃ former, report.TellsOf usage former
  | finished result => ∀ report, result = .ok report → ∃ former, report.TellsOf usage former

/-- A step makes a report of what it has read, or passes one on. -/
theorem Worker.accurate_advance {usage : Usage} {w : Worker} (h : w.Accurate usage) (options : Options) (path : Text)
    (d : Directory) : (w.advance usage options path d).1.Accurate usage := by
  revert h
  fun_cases Worker.advance usage options path d w with
  | case1 => rintro - report ⟨⟩
  | case2 former _ size hprune =>
    rintro - report ⟨⟩
    exact ⟨former, Report.tellsOf_unchanged hprune path⟩
  | case3 former _ size text n hprune own log hdry =>
    intro _ report h
    obtain rfl := Except.ok.inj h
    exact ⟨former, Report.tellsOf_changed hprune path⟩
  | case4 former _ size text n hprune | case5 former _ size text n hprune =>
    exact fun _ => ⟨former, Report.tellsOf_changed hprune path⟩
  | case6 => rintro - report ⟨⟩
  | case7 report former text backup d' hcopied =>
    rintro ⟨read, htells⟩
    exact ⟨read, htells.withBackup _⟩
  | case8 => rintro - report ⟨⟩
  | case9 own text d' hwritten =>
    intro htells report h
    obtain rfl := Except.ok.inj h
    exact htells
  | case10 => exact id

namespace Pool

variable {usage : Usage} {options : Options} {pool : Pool}

theorem accurate_turn (h : ∀ a ∈ pool.workers, a.2.Accurate usage) (i : Nat) :
    ∀ a ∈ (pool.turn usage options i).workers, a.2.Accurate usage := by
  unfold turn
  split
  · exact h
  · next path w hget =>
    intro a ha
    rcases List.mem_or_eq_of_mem_set ha with ha | rfl
    · exact h a ha
    · exact Worker.accurate_advance (h _ (List.mem_of_getElem? hget)) options path pool.directory

/-- Whoever has its turn, the workers carry reports of what they have read. -/
theorem accurate_run (h : ∀ a ∈ pool.workers, a.2.Accurate usage) (schedule : List Nat) :
    ∀ a ∈ (pool.run usage options schedule).workers, a.2.Accurate usage := by
  induction schedule generalizing pool with
  | nil => exact h
  | cons i schedule ih => exact ih (accurate_turn h i)

theorem accurate_start (d : Directory) (paths : List Text) : ∀ a ∈ (start d paths).workers, a.2.Accurate usage := by
  intro a ha
  obtain ⟨path, -, rfl⟩ := List.mem_map.1 ha
  trivial

/-- In the end all reports tell of a text that was read. -/
theorem tellsOf_of_finished {d : Directory} {paths : List Text} {schedule : List Nat}
    {results : List (Except Failure Report)} {report : Report}
    (h : ((start d paths).run usage options schedule).workers.map Prod.snd = results.map .finished)
    (hreport : .ok report ∈ results) : ∃ former, report.TellsOf usage former := by
  have hworker : Worker.finished (.ok report) ∈ ((start d paths).run usage options schedule).workers.map Prod.snd := by
    rw [h]
    exact List.mem_map_of_mem hreport
  obtain ⟨a, ha, hfinished⟩ := List.mem_map.1 hworker
  have haccurate := accurate_run (accurate_start d paths) schedule a ha
  rw [hfinished] at haccurate
  exact haccurate report rfl

end Pool

/-- From a changed stylesheet something was removed, and it is shorter. A report about a file tells of the text
that was read, and in every report, about a file, about files that are pruned one after the other or side by
side in any order of steps, and of a whole run, however its workers take turns, the new size is at most the former
one, the two are equal exactly if nothing was removed, and there is a share in percent. -/
theorem pruning_shrinks (usage : Usage) :
    (∀ css text n, prune css usage = .changed text n → 0 < n ∧ byteLength text < byteLength css) ∧
    (∀ (d : Directory) options path report, (d.pruneFile usage options path).result = .ok report →
      report.Shrinks ∧ ∃ former, d.readText path = .ok former ∧ report.TellsOf usage former) ∧
    (∀ (d : Directory) options paths report, .ok report ∈ (d.pruneFiles usage options paths).1 → report.Shrinks) ∧
    (∀ d options paths schedule path report,
      (path, .finished (.ok report)) ∈ ((Pool.start d paths).run usage options schedule).workers → report.Shrinks) ∧
    (∀ (d : Directory) settings options summary, (d.run settings options).result = .ok summary →
      ∀ report, .ok report ∈ summary.reports → report.Shrinks) ∧
    ∀ (d : Directory) settings options schedule attempt summary,
      d.runInTurns settings options schedule = some attempt → attempt.result = .ok summary →
        ∀ report, .ok report ∈ summary.reports → report.Shrinks := by
  have hturns : ∀ (d : Directory) settings options schedule attempt summary,
      d.runInTurns settings options schedule = some attempt → attempt.result = .ok summary →
        ∀ report, .ok report ∈ summary.reports → report.Shrinks := by
    intro d settings options schedule attempt summary hattempt hsummary report hreport
    rcases Directory.runInTurns_cases hattempt with
      ⟨⟨failure, hfailed⟩, -⟩ | ⟨stylesheets, u, summary', -, hok, hdone, -⟩
    · exact absurd (hsummary.symm.trans hfailed) (by simp)
    · cases hsummary.symm.trans hok
      obtain ⟨former, htells⟩ := Pool.tellsOf_of_finished hdone hreport
      exact htells.shrinks
  refine ⟨fun css text n h => ⟨removed_pos_of_prune h, byteLength_lt_of_prune h⟩, fun d options path report h => ?_,
    fun d options paths report h => ?_, fun d options paths schedule path report h => ?_,
    fun d settings options summary h => ?_, hturns⟩
  · obtain ⟨former, hread, htells⟩ := Directory.tellsOf_pruneFile h
    exact ⟨htells.shrinks, former, hread, htells⟩
  · obtain ⟨schedule, houtcome⟩ := Pool.exists_outcome_eq_pruneFiles usage options d paths
    obtain ⟨former, htells⟩ := Pool.tellsOf_of_finished (Pool.outcome?_eq_some_iff.1 houtcome).1 h
    exact htells.shrinks
  · obtain ⟨former, htells⟩ := Pool.accurate_run (Pool.accurate_start d paths) schedule _ h report rfl
    exact htells.shrinks
  · obtain ⟨schedule, hrun⟩ := Directory.exists_runInTurns_eq_run d settings options
    exact hturns d settings options schedule _ summary hrun h

/-- A stylesheet that holds the copy of another when it is read: its report tells of that copy. -/
theorem pruning_shrinks_overwritten :
    prune ".x\x7ba:1\x7d.k\x7bb:2\x7d".toList (.ofList [".k".toList]) = .changed ".k\x7bb:2\x7d".toList 1 ∧
      ("a.css.backup".toList, .finished (.ok ⟨"a.css.backup".toList, 1, 14, 7, some "a.css.backup.backup".toList⟩)) ∈
        ((Pool.start Directory.namesakes ["a.css".toList, "a.css.backup".toList]).run (.ofList [".k".toList]) .default
          [0, 0, 1, 1, 1]).workers ∧
      7 < byteLength ".x\x7ba:1\x7d.k\x7bb:2\x7d".toList ∧
      Report.Shrinks ⟨"a.css.backup".toList, 1, 14, 7, some "a.css.backup.backup".toList⟩ := by
  have hprune : prune ".x\x7ba:1\x7d.k\x7bb:2\x7d".toList (.ofList [".k".toList]) =
      .changed ".k\x7bb:2\x7d".toList 1 := by
    decide +kernel
  have hdone : ("a.css.backup".toList, Worker.finished (.ok ⟨"a.css.backup".toList, 1, 14, 7,
        some "a.css.backup.backup".toList⟩)) ∈
      ((Pool.start Directory.namesakes ["a.css".toList, "a.css.backup".toList]).run (.ofList [".k".toList]) .default
        [0, 0, 1, 1, 1]).workers := by
    decide +kernel
  obtain ⟨htexts, -, -, hpool, -⟩ := pruning_shrinks (.ofList [".k".toList])
  exact ⟨hprune, hdone, (htexts _ _ _ hprune).2, hpool _ _ _ _ _ _ hdone⟩

end Cull
