import Cull.Proofs.CutText
import Cull.Proofs.Writing
import Cull.Run.Stylesheet

/-!
# What pruning writes

Pruning a stylesheet looks at two things in the directory, the file at its path and the place for
the copy, and does to it what `effect` says: nothing, or one or two files are put at these
locations. A file that can be read can be written, also after its copy has been written, so
nothing can fail between the two writes (`pruneFile_eq`). Hence pruning that fails or removes
nothing leaves everything as it was (`directory_eq_of_idle`), and other pruning changes nothing but
the stylesheet and its copy (`pruneFile_frame`).
-/

namespace Cull

namespace Directory

variable {d d' : Directory} {usage : Usage} {options : Options} {path p : Text} {l m : Location} {c : Content}

/-! ### What pruning looks at -/

/-- The file at a path: its location and what it holds. -/
def fileAt (d : Directory) (path : Text) : Except Fault (Location × Content) := do
  let l ← d.locate path
  match d.get? l with
  | none => .error .missing
  | some .directory => .error .isDirectory
  | some (.file content) => .ok (l, content)

theorem fileAt_eq_ok_iff : d.fileAt p = .ok (l, c) ↔ d.locate p = .ok l ∧ d.get? l = some (.file c) := by
  unfold fileAt
  cases hlocate : d.locate p with
  | error fault => simp [bind, Except.bind]
  | ok k =>
    simp only [bind, Except.bind, Except.ok.injEq]
    split
    · grind
    · grind
    · grind

theorem readText_eq (d : Directory) (p : Text) :
    d.readText p = match d.fileAt p with
      | .error fault => .error fault
      | .ok (_, .text t) => .ok t
      | .ok (_, .binary _) => .error .notText := by
  unfold readText read fileAt
  cases d.locate p with
  | error fault => rfl
  | ok l =>
    simp only [bind, Except.bind]
    cases d.get? l with
    | none => rfl
    | some e =>
      cases e with
      | directory => rfl
      | file content => cases content <;> rfl

theorem writeText_eq (d : Directory) (p t : Text) :
    d.writeText p t = match d.placeFor p with
      | .ok l => .ok (d.put l (.file (.text t)))
      | .error fault => .error (.write p fault) := by
  rw [writeText, write_eq]
  cases d.placeFor p <;> rfl

/-- A file that can be read can be written. -/
theorem placeFor_of_fileAt (h : d.fileAt p = .ok (l, c)) : d.placeFor p = .ok l := by
  obtain ⟨hl, hfile⟩ := fileAt_eq_ok_iff.1 h
  exact placeFor_eq_ok_iff.2 ⟨hl, isDirectoryAt_of_file hfile⟩

/-- A file that is put somewhere does not take the file at a path away. -/
theorem exists_fileAt_put (h : d.fileAt p = .ok (l, c)) (m : Location) (c' : Content) :
    ∃ c'', (d.put m (.file c')).fileAt p = .ok (l, c'') := by
  obtain ⟨hl, hfile⟩ := fileAt_eq_ok_iff.1 h
  have hl' := (locate_eq_ok_congr (isDirectoryAt_put d m c') (here_put d m _)).2 hl
  have hget : ∃ c'', (d.put m (.file c')).get? l = some (.file c'') := by
    by_cases hm : d.Accepts m (.file c')
    · rw [get?_put hm]
      split
      · exact ⟨c', rfl⟩
      · exact ⟨c, hfile⟩
    · rw [put, dif_neg hm]
      exact ⟨c, hfile⟩
  obtain ⟨c'', hget⟩ := hget
  exact ⟨c'', fileAt_eq_ok_iff.2 ⟨hl', hget⟩⟩

/-! ### What pruning does -/

/-- What the pruning of a stylesheet comes to. -/
structure Effect where
  /-- The result. -/
  result : Except Failure Report
  /-- What there is to say. -/
  log : List Log
  /-- What is written where, in order. -/
  writes : List (Location × Content)

/-- What pruning comes to, given the file at the path and the place for the copy. -/
def effect (usage : Usage) (options : Options) (path : Text) (file : Except Fault (Location × Content))
    (place : Except Fault Location) : Effect :=
  match file with
  | .error fault => ⟨.error (.read path fault), [], []⟩
  | .ok (_, .binary _) => ⟨.error (.read path .notText), [], []⟩
  | .ok (l, .text former) =>
    let size := former.byteLength
    match prune former usage with
    | .unchanged => ⟨.ok ⟨path, 0, size, size, none⟩, [unchangedLog path], []⟩
    | .changed text removed =>
      let report : Report := ⟨path, removed, size, text.byteLength, none⟩
      let log := [changedLog report]
      if options.dryRun then ⟨.ok report, log, []⟩
      else if options.backup then
        let backup := backupPath path options.backupSuffix
        match place with
        | .error fault => ⟨.error (.write backup fault), log, []⟩
        | .ok copy => ⟨.ok { report with backup := some backup }, log, [(copy, .text former), (l, .text text)]⟩
      else ⟨.ok report, log, [(l, .text text)]⟩

/-- The directory with files put into it, one after the other. -/
def putAll (d : Directory) (writes : List (Location × Content)) : Directory :=
  writes.foldl (fun d w => d.put w.1 (.file w.2)) d

/-- What pruning the stylesheet at a path comes to. -/
def effectAt (d : Directory) (usage : Usage) (options : Options) (path : Text) : Effect :=
  effect usage options path (d.fileAt path) (d.placeFor (backupPath path options.backupSuffix))

/-- Pruning has the effect that the file and the place for its copy determine. -/
theorem pruneFile_eq (d : Directory) (usage : Usage) (options : Options) (path : Text) :
    d.pruneFile usage options path =
      ⟨(d.effectAt usage options path).result, (d.effectAt usage options path).log,
        d.putAll (d.effectAt usage options path).writes⟩ := by
  rw [pruneFile, effectAt, readText_eq]
  cases hfile : d.fileAt path with
  | error fault => rfl
  | ok file =>
    obtain ⟨l, content⟩ := file
    cases content with
    | binary bytes => rfl
    | text former =>
      simp only [effect]
      cases hprune : prune former usage with
      | unchanged => rfl
      | changed text removed =>
        have hplace := placeFor_of_fileAt hfile
        simp only [store, writeText_eq]
        by_cases hdry : options.dryRun = true
        · simp [hdry, putAll]
        by_cases hbackup : options.backup = true
        · simp only [hdry, hbackup, if_true]
          cases hcopy : d.placeFor (backupPath path options.backupSuffix) with
          | error fault => simp [putAll]
          | ok copy =>
            obtain ⟨c, hcopied⟩ := exists_fileAt_put hfile copy (.text former)
            simp [placeFor_of_fileAt hcopied, putAll]
        · simp [hdry, hbackup, hplace, putAll]

/-- Pruning has left everything as it was: it failed, it removed nothing, or it was a dry run. -/
def Idle (options : Options) (result : Except Failure Report) : Prop :=
  (∃ failure, result = .error failure) ∨ (∃ report, result = .ok report ∧ report.removed = 0) ∨ options.dryRun = true

/-- Either nothing is written, or something was removed and the new text is written, behind the
copy of the former text if one is wanted. -/
theorem effect_cases (usage : Usage) (options : Options) (path : Text) (file : Except Fault (Location × Content))
    (place : Except Fault Location) :
    Idle options (effect usage options path file place).result ∧ (effect usage options path file place).writes = [] ∨
      ∃ l former text n report, file = .ok (l, .text former) ∧ prune former usage = .changed text n ∧
        options.dryRun = false ∧ (effect usage options path file place).result = .ok report ∧ report.removed = n ∧
        report.backup = (if options.backup then some (backupPath path options.backupSuffix) else none) ∧
        (options.backup = false ∧ (effect usage options path file place).writes = [(l, .text text)] ∨
          options.backup = true ∧ ∃ copy, place = .ok copy ∧
            (effect usage options path file place).writes = [(copy, .text former), (l, .text text)]) := by
  fun_cases effect usage options path file place with
  | case1 fault => exact .inl ⟨.inl ⟨_, rfl⟩, rfl⟩
  | case2 => exact .inl ⟨.inl ⟨_, rfl⟩, rfl⟩
  | case3 => exact .inl ⟨.inr (.inl ⟨_, rfl, rfl⟩), rfl⟩
  | case4 _ _ _ _ _ _ _ _ _ hdry => exact .inl ⟨.inr (.inr hdry), rfl⟩
  | case5 => exact .inl ⟨.inl ⟨_, rfl⟩, rfl⟩
  | case6 l former size text n hprune report log hdry hbackup backup copy =>
    refine .inr ⟨l, former, text, n, _, rfl, hprune, by simpa using hdry, rfl, rfl, ?_, .inr ⟨hbackup, copy, rfl, rfl⟩⟩
    rw [if_pos hbackup]
  | case7 place l former size text n hprune report log hdry hbackup =>
    refine .inr ⟨l, former, text, n, _, rfl, hprune, by simpa using hdry, rfl, rfl, ?_, .inl ⟨?_, rfl⟩⟩
    · rw [if_neg hbackup]
    · simpa using hbackup

/-! ### What stays -/

/-- From one directory to the other nothing has changed but files at the given locations. -/
structure Frame (touched : Location → Prop) (d d' : Directory) : Prop where
  /-- The directories are the same. -/
  directories : ∀ l, d'.isDirectoryAt l = d.isDirectoryAt l
  /-- The working directory is the same. -/
  here : d'.here = d.here
  /-- What stands elsewhere is the same. -/
  elsewhere : ∀ l, ¬touched l → d'.get? l = d.get? l

theorem Frame.refl (touched : Location → Prop) (d : Directory) : Frame touched d d :=
  ⟨fun _ => rfl, rfl, fun _ _ => rfl⟩

theorem Frame.trans {touched : Location → Prop} {d'' : Directory} (h : Frame touched d d') (h' : Frame touched d' d'') :
    Frame touched d d'' where
  directories l := (h'.directories l).trans (h.directories l)
  here := h'.here.trans h.here
  elsewhere l hl := (h'.elsewhere l hl).trans (h.elsewhere l hl)

theorem Frame.mono {touched touched' : Location → Prop} (h : Frame touched d d') (himp : ∀ l, touched l → touched' l) :
    Frame touched' d d' :=
  ⟨h.directories, h.here, fun l hl => h.elsewhere l (mt (himp l) hl)⟩

/-- Paths lead where they led. -/
theorem Frame.locate {touched : Location → Prop} (h : Frame touched d d') :
    d'.locate p = .ok l ↔ d.locate p = .ok l :=
  locate_eq_ok_congr h.directories h.here

theorem frame_put (d : Directory) (m : Location) (c : Content) : Frame (· = m) d (d.put m (.file c)) where
  directories := isDirectoryAt_put d m c
  here := here_put d m _
  elsewhere _ hl := get?_put_of_ne hl _

theorem frame_putAll (d : Directory) (writes : List (Location × Content)) :
    Frame (· ∈ writes.map Prod.fst) d (d.putAll writes) := by
  induction writes generalizing d with
  | nil => exact .refl _ d
  | cons w writes ih =>
    have hput : Frame (· ∈ (w :: writes).map Prod.fst) d (d.put w.1 (.file w.2)) :=
      (frame_put d w.1 w.2).mono fun l hl => by simp [hl]
    exact hput.trans ((ih _).mono fun l hl => .tail _ hl)

/-- The location is that of the stylesheet at the path or, if copies are wanted, that of its copy. -/
def Concerns (d : Directory) (options : Options) (path : Text) (l : Location) : Prop :=
  d.locate path = .ok l ∨ options.backup = true ∧ d.locate (backupPath path options.backupSuffix) = .ok l

theorem Frame.concerns {touched : Location → Prop} (h : Frame touched d d') :
    Concerns d' options path l ↔ Concerns d options path l := by
  rw [Concerns, Concerns, h.locate, h.locate]

/-- What is written is written to the stylesheet or its copy, and it can be put there. -/
theorem concerns_of_mem_writes {w : Location × Content} (hw : w ∈ (d.effectAt usage options path).writes) :
    Concerns d options path w.1 ∧ d.Accepts w.1 (.file w.2) := by
  rcases effect_cases usage options path (d.fileAt path) (d.placeFor (backupPath path options.backupSuffix)) with
    ⟨-, hnone⟩ | ⟨l, former, text, n, report, hfile, -, -, -, -, -, hwrites⟩
  · rw [effectAt, hnone] at hw
    cases hw
  have hplace := placeFor_of_fileAt hfile
  have hsheet : Concerns d options path l ∧ d.Accepts l (.file (.text text)) :=
    ⟨.inl (placeFor_eq_ok_iff.1 hplace).1, accepts_of_placeFor hplace _⟩
  rcases hwrites with ⟨-, hwrites⟩ | ⟨hbackup, copy, hcopy, hwrites⟩
  · rw [effectAt, hwrites, List.mem_singleton] at hw
    rwa [hw]
  · rw [effectAt, hwrites] at hw
    rcases List.mem_cons.1 hw with rfl | hw
    · exact ⟨.inr ⟨hbackup, (placeFor_eq_ok_iff.1 hcopy).1⟩, accepts_of_placeFor hcopy _⟩
    · rwa [List.mem_singleton.1 hw]

theorem pruneFile_frame (d : Directory) (usage : Usage) (options : Options) (path : Text) :
    Frame (Concerns d options path) d (d.pruneFile usage options path).directory := by
  rw [pruneFile_eq]
  refine (frame_putAll d _).mono fun l hl => ?_
  obtain ⟨w, hw, rfl⟩ := List.mem_map.1 hl
  exact (concerns_of_mem_writes hw).1

/-! ### Nothing or all -/

theorem writes_eq_nil_of_idle (h : Idle options (d.pruneFile usage options path).result) :
    (d.effectAt usage options path).writes = [] := by
  rw [pruneFile_eq] at h
  rcases effect_cases usage options path (d.fileAt path) (d.placeFor (backupPath path options.backupSuffix)) with
    ⟨-, hnone⟩ | ⟨l, former, text, n, report, -, hprune, hdry, hok, hremoved, -, -⟩
  · exact hnone
  · -- something was removed, and it was no dry run
    rcases h with ⟨failure, herror⟩ | ⟨report', hok', hzero⟩ | hdry'
    · exact absurd (hok.symm.trans herror) (by simp)
    · have hsame : report = report' := Except.ok.inj (hok.symm.trans hok')
      have hpos := removed_pos_of_prune hprune
      rw [← hremoved, hsame, hzero] at hpos
      exact absurd hpos (Nat.lt_irrefl 0)
    · rw [hdry] at hdry'
      cases hdry'

theorem directory_eq_of_idle (h : Idle options (d.pruneFile usage options path).result) :
    (d.pruneFile usage options path).directory = d := by
  rw [pruneFile_eq, writes_eq_nil_of_idle h]
  rfl

/-- Otherwise the stylesheet is what pruning has made of it, and before that its former text has been put where its
copy belongs, if one was wanted. -/
theorem exists_of_not_idle (h : ¬Idle options (d.pruneFile usage options path).result) :
    ∃ l former text n report, d.fileAt path = .ok (l, .text former) ∧ prune former usage = .changed text n ∧
      (d.pruneFile usage options path).result = .ok report ∧ report.removed = n ∧
      report.backup = (if options.backup then some (backupPath path options.backupSuffix) else none) ∧
      (options.backup = false ∧ (d.pruneFile usage options path).directory = d.put l (.file (.text text)) ∨
        options.backup = true ∧ ∃ copy, d.placeFor (backupPath path options.backupSuffix) = .ok copy ∧
          (d.pruneFile usage options path).directory =
            (d.put copy (.file (.text former))).put l (.file (.text text))) := by
  rw [pruneFile_eq] at h ⊢
  rcases effect_cases usage options path (d.fileAt path) (d.placeFor (backupPath path options.backupSuffix)) with
    ⟨hidle, -⟩ | ⟨l, former, text, n, report, hfile, hprune, -, hok, hremoved, hkept, hwrites⟩
  · exact absurd hidle h
  refine ⟨l, former, text, n, report, hfile, hprune, hok, hremoved, hkept, ?_⟩
  rcases hwrites with ⟨hbackup, hwrites⟩ | ⟨hbackup, copy, hcopy, hwrites⟩
  · exact .inl ⟨hbackup, by rw [effectAt, hwrites]; rfl⟩
  · exact .inr ⟨hbackup, copy, hcopy, by rw [effectAt, hwrites]; rfl⟩

/-- What stands in the end where the stylesheet stood. -/
theorem get?_of_not_idle (h : ¬Idle options (d.pruneFile usage options path).result) :
    ∃ l former text n, d.fileAt path = .ok (l, .text former) ∧ prune former usage = .changed text n ∧
      (d.pruneFile usage options path).directory.get? l = some (.file (.text text)) := by
  obtain ⟨l, former, text, n, report, hfile, hprune, -, -, -, hafter⟩ := exists_of_not_idle h
  have haccepts := accepts_of_placeFor (placeFor_of_fileAt hfile) (.text text)
  refine ⟨l, former, text, n, hfile, hprune, ?_⟩
  rcases hafter with ⟨-, hafter⟩ | ⟨-, copy, -, hafter⟩
  · rw [hafter, get?_put haccepts, if_pos rfl]
  · rw [hafter, get?_put ((accepts_congr (isDirectoryAt_put d copy _) l _).2 haccepts), if_pos rfl]

end Directory

end Cull
