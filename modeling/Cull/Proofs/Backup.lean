import Cull.Proofs.Footprint
import Mathlib.Control.Monad.Basic

/-!
# The copy of the former text

A changed stylesheet is written after the copy of its former text, and nothing
checks that the two paths lead to different files. The copy holds the former text
exactly if they do (`backup_holds_former_iff`): otherwise the new text is written
over the copy, and since it is shorter than the former text
(`byteLength_lt_of_prune`) that one is lost. A suffix without a slash names a file
beside the stylesheet (`placeFor_backupPath`), which is another one unless the
suffix is empty.
-/

namespace Cull.Directory

variable {d : Directory} {usage : Usage} {options : Options} {path suffix : Text} {l m : Location} {c : Content}
  {report : Report}

/-! ### The place of the copy -/

/-- The location whose name is that of another with a suffix. -/
def beside (suffix : Text) (l : Location) : Location := l.dropLast ++ [l.getLastD [] ++ suffix]

theorem beside_concat (suffix : Text) (k : Location) (name : Text) :
    beside suffix (k ++ [name]) = k ++ [name ++ suffix] := by
  rw [beside, List.dropLast_concat, List.getLastD_concat]

theorem beside_inj (hl : l ≠ []) (hm : m ≠ []) (h : beside suffix l = beside suffix m) : l = m := by
  rw [← List.dropLast_concat_getLast hl, ← List.dropLast_concat_getLast hm] at h ⊢
  rw [beside_concat, beside_concat] at h
  obtain ⟨hfront, hname⟩ := List.append_inj' h rfl
  rw [hfront, List.append_cancel_right (List.singleton_inj.1 hname)]

theorem beside_eq_self_iff (hl : l ≠ []) : beside suffix l = l ↔ suffix = [] := by
  rw [← List.dropLast_concat_getLast hl, beside_concat, List.append_right_inj, List.singleton_inj]
  exact List.append_right_eq_self

theorem start_backupPath (hpath : path ≠ []) (suffix : Text) : d.start (backupPath path suffix) = d.start path := by
  obtain ⟨a, t, rfl⟩ := List.exists_cons_of_ne_nil hpath
  rfl

/-- The copy of a file is beside it, unless there is a directory. -/
theorem placeFor_backupPath (hfile : d.fileAt path = .ok (l, c)) (hsuffix : '/' ∉ suffix) :
    d.placeFor (backupPath path suffix) =
      if d.isDirectoryAt (beside suffix l) then .error .isDirectory else .ok (beside suffix l) := by
  obtain ⟨hl, hget⟩ := fileAt_eq_ok_iff.1 hfile
  obtain ⟨hnil, -⟩ := locate_eq_ok_iff.1 hl
  have hseparators : ∀ c ∈ suffix, decide (c = '/') = false := fun c hc =>
    decide_eq_false fun h => hsuffix (h ▸ hc)
  obtain ⟨front, name, hparts, hparts'⟩ := Text.exists_splitOn_append path hseparators
  obtain ⟨hname, k, hk, hdir, rfl⟩ := exists_name_of_locate hl (isDirectoryAt_of_file hget) hparts
  rw [← start_backupPath hnil suffix] at hk
  have htarget : d.target (backupPath path suffix) = .ok (k ++ [name ++ suffix]) :=
    target_of_name hparts' (Path.isName_append hname hsuffix) hk hdir
  rw [placeFor, htarget, beside_concat]
  rfl

theorem eq_beside_of_placeFor (hfile : d.fileAt path = .ok (l, c)) (hsuffix : '/' ∉ suffix)
    (h : d.placeFor (backupPath path suffix) = .ok m) : m = beside suffix l := by
  rw [placeFor_backupPath hfile hsuffix] at h
  split at h
  · cases h
  · exact (Except.ok.inj h).symm

theorem ne_nil_of_fileAt (h : d.fileAt path = .ok (l, c)) : l ≠ [] :=
  ne_nil_of_isDirectoryAt (isDirectoryAt_of_file (fileAt_eq_ok_iff.1 h).2)

/-! ### What the copy holds -/

theorem not_idle_of_removed (hdry : options.dryRun = false)
    (hok : (d.pruneFile usage options path).result = .ok report) (hremoved : 0 < report.removed) :
    ¬Idle options (d.pruneFile usage options path).result := by
  rw [hok]
  rintro (⟨failure, ⟨⟩⟩ | ⟨report', ⟨⟩, hzero⟩ | hdry')
  · exact absurd hzero (Nat.ne_of_gt hremoved)
  · simp [hdry] at hdry'

/-- If something was removed, the stylesheet holds the pruned text, and the copy holds the former one
exactly if its path leads elsewhere, as it does with any suffix that is not empty and has no slash. -/
theorem backup_holds_former_iff (hbackup : options.backup = true) (hdry : options.dryRun = false)
    (hok : (d.pruneFile usage options path).result = .ok report) (hremoved : 0 < report.removed) :
    ∃ former text, d.read path = .ok (.text former) ∧ prune former usage = .changed text report.removed ∧
      (d.pruneFile usage options path).directory.read path = .ok (.text text) ∧
      report.backup = some (backupPath path options.backupSuffix) ∧
      ((d.pruneFile usage options path).directory.read (backupPath path options.backupSuffix) = .ok (.text former) ↔
        d.locate (backupPath path options.backupSuffix) ≠ d.locate path) ∧
      (options.backupSuffix ≠ [] → '/' ∉ options.backupSuffix →
        (d.pruneFile usage options path).directory.read (backupPath path options.backupSuffix) =
          .ok (.text former)) := by
  obtain ⟨l, former, text, n, report', hfile, hprune, hok', hn, hkept, hwrites⟩ :=
    exists_of_not_idle (not_idle_of_removed hdry hok hremoved)
  obtain rfl : report' = report := Except.ok.inj (hok'.symm.trans hok)
  subst hn
  rw [if_pos hbackup] at hkept
  obtain ⟨hnone, -⟩ | ⟨-, copy, hcopy, hafter⟩ := hwrites
  · simp [hbackup] at hnone
  obtain ⟨hl, hget⟩ := fileAt_eq_ok_iff.1 hfile
  obtain ⟨hlcopy, -⟩ := placeFor_eq_ok_iff.1 hcopy
  have hframe := pruneFile_frame d usage options path
  -- what stands in the end at the two locations
  have hcopied := accepts_of_placeFor hcopy (.text former)
  have hwritten := (accepts_congr (isDirectoryAt_put d copy (.text former)) l (.file (.text text))).2
    (accepts_of_placeFor (placeFor_of_fileAt hfile) _)
  have hstands : ∀ m, (d.pruneFile usage options path).directory.get? m =
      if m = l then some (.file (.text text)) else if m = copy then some (.file (.text former)) else d.get? m := by
    intro m
    rw [hafter, get?_put hwritten, get?_put hcopied]
  have hcopyRead : ∀ c, (d.pruneFile usage options path).directory.read (backupPath path options.backupSuffix) = .ok c ↔
      (d.pruneFile usage options path).directory.get? copy = some (.file c) := by
    intro c
    rw [read_eq_ok_iff]
    simp only [hframe.locate, hlcopy, Except.ok.injEq, exists_eq_left']
  have hother : (d.pruneFile usage options path).directory.read (backupPath path options.backupSuffix) =
      .ok (.text former) ↔ copy ≠ l := by
    rw [hcopyRead, hstands]
    split
    · next heq =>
      refine iff_of_false (fun hsame => ?_) (not_not_intro heq)
      obtain rfl : text = former := by simpa using hsame
      exact absurd (byteLength_lt_of_prune hprune) (Nat.lt_irrefl _)
    · next hne => exact iff_of_true (if_pos rfl) hne
  refine ⟨former, text, read_eq_ok_iff.2 ⟨l, hl, hget⟩, hprune, ?_, hkept, ?_, fun hne hslash => ?_⟩
  · exact read_eq_ok_iff.2 ⟨l, hframe.locate.2 hl, by rw [hstands, if_pos rfl]⟩
  · rw [hother, hl, hlcopy, ne_eq, ne_eq, Except.ok.injEq]
  · rw [hother, eq_beside_of_placeFor hfile hslash hcopy, ne_eq, beside_eq_self_iff (ne_nil_of_fileAt hfile)]
    exact hne

/-- A stylesheet outside the working directory. -/
def elsewhere : Directory :=
  (empty.enter ["w".toList]).fill
    [(["tmp".toList], .directory), (["tmp".toList, "a.css".toList], .file (.text ".x{a:1}.k{b:2}".toList))]

/-- With the suffix that is used unless another is given, the former text is found beside the new one. -/
theorem backup_holds_former_iff_default :
    (elsewhere.pruneFile (.ofList [".k".toList]) .default "/tmp/a.css".toList).result =
        .ok ⟨"/tmp/a.css".toList, 1, 14, 7, some "/tmp/a.css.backup".toList⟩ ∧
      (elsewhere.pruneFile (.ofList [".k".toList]) .default "/tmp/a.css".toList).directory.read
        "/tmp/a.css.backup".toList = .ok (.text ".x{a:1}.k{b:2}".toList) := by
  have hok : (elsewhere.pruneFile (.ofList [".k".toList]) .default "/tmp/a.css".toList).result =
      .ok ⟨"/tmp/a.css".toList, 1, 14, 7, some "/tmp/a.css.backup".toList⟩ := by decide +kernel
  have hformer : elsewhere.read "/tmp/a.css".toList = .ok (.text ".x{a:1}.k{b:2}".toList) := by decide +kernel
  obtain ⟨former, text, hread, -, -, -, -, hbeside⟩ := backup_holds_former_iff rfl rfl hok (by decide)
  rw [hformer] at hread
  cases hread
  exact ⟨hok, hbeside (by decide) (by decide)⟩

/-- A stylesheet in the working directory, and a directory through which a suffix can lead back to it. -/
def looped : Directory :=
  (empty.enter ["w".toList]).fill
    [(["w".toList, "a.css".toList], .file (.text ".x{a:1}".toList)), (["w".toList, "a.cssd".toList], .directory)]

/-- Without a suffix, or with one that leads back through other directories, the copy is overwritten. -/
theorem backup_overwritten :
    ((looped.pruneFile .empty ⟨true, [], false⟩ "a.css".toList).result =
        .ok ⟨"a.css".toList, 1, 7, 0, some "a.css".toList⟩ ∧
      (looped.pruneFile .empty ⟨true, [], false⟩ "a.css".toList).directory.read "a.css".toList = .ok (.text [])) ∧
    ((looped.pruneFile .empty ⟨true, "d/../a.css".toList, false⟩ "a.css".toList).result =
        .ok ⟨"a.css".toList, 1, 7, 0, some "a.cssd/../a.css".toList⟩ ∧
      (looped.pruneFile .empty ⟨true, "d/../a.css".toList, false⟩ "a.css".toList).directory.read
        "a.cssd/../a.css".toList = .ok (.text [])) ∧
    ((looped.pruneFile .empty ⟨true, "d/../../w/a.css".toList, false⟩ "/w/a.css".toList).result =
        .ok ⟨"/w/a.css".toList, 1, 7, 0, some "/w/a.cssd/../../w/a.css".toList⟩ ∧
      (looped.pruneFile .empty ⟨true, "d/../../w/a.css".toList, false⟩ "/w/a.css".toList).directory.read
        "/w/a.cssd/../../w/a.css".toList = .ok (.text [])) := by
  decide +kernel

end Cull.Directory
