import Cull.Files.Resolution
import Cull.Proofs.Independence
import Cull.Run.Workers

/-!
# Stylesheets pruned side by side

A worker prunes its stylesheet in three steps: it reads the file, writes the copy and writes the new
text. Left alone it does what `pruneFile` does (`run_three_turns`). What the workers have left to do
(`left`) is carried out by each turn and changed by none (`Underway.turn`), so that every schedule that
gives each worker three turns has the outcome of pruning one stylesheet after the other
(`stylesheets_are_independent`).
-/

namespace Cull

namespace Worker

deriving instance DecidableEq for Worker

variable {d d' : Directory} {usage : Usage} {options : Options} {path : Text} {l : Location} {c : Content} {w : Worker}

/-- The number of steps that a worker can still take. -/
def rank : Worker → Nat
  | waiting => 3
  | copying .. => 2
  | writing .. => 1
  | finished _ => 0

theorem exists_of_rank_eq_zero (h : w.rank = 0) : ∃ result, w = .finished result := by
  cases w with
  | finished result => exact ⟨result, rfl⟩
  | _ => cases h

theorem rank_advance (usage : Usage) (options : Options) (path : Text) (d : Directory) (w : Worker) :
    (w.advance usage options path d).1.rank ≤ w.rank - 1 := by
  fun_cases advance usage options path d w <;> simp [rank]

/-- A worker writes a copy next only if copies are wanted. -/
def Keeps (options : Options) : Worker → Prop
  | copying .. => options.backup = true
  | _ => True

theorem keeps_advance (usage : Usage) (options : Options) (path : Text) (d : Directory) (w : Worker) :
    (w.advance usage options path d).1.Keeps options := by
  fun_cases advance usage options path d w with
  | case4 former hread size text removed hprune report log hdry hbackup => exact hbackup
  | _ => trivial

/-! ### What is left to do -/

open Directory

/-- What a worker will come to and what it will write, given the file, the place for the copy and the
place for the new text. -/
def left (usage : Usage) (options : Options) (path : Text) (file : Except Fault (Location × Content))
    (copy own : Except Fault Location) : Worker → Except Failure Report × List (Location × Content)
  | waiting => ((effect usage options path file copy).result, (effect usage options path file copy).writes)
  | copying report former text =>
    let backup := backupPath path options.backupSuffix
    match copy, own with
    | .error fault, _ => (.error (.write backup fault), [])
    | .ok copy, .error fault => (.error (.write path fault), [(copy, .text former)])
    | .ok copy, .ok l => (.ok { report with backup := some backup }, [(copy, .text former), (l, .text text)])
  | writing report text =>
    match own with
    | .error fault => (.error (.write path fault), [])
    | .ok l => (.ok report, [(l, .text text)])
  | finished result => (result, [])

/-- What a worker will come to and what it will write if it is left alone. -/
def leftAt (usage : Usage) (options : Options) (d : Directory) (a : Text × Worker) :
    Except Failure Report × List (Location × Content) :=
  a.2.left usage options a.1 (d.fileAt a.1) (d.placeFor (backupPath a.1 options.backupSuffix)) (d.placeFor a.1)

/-- A step carries out the first part of what is left and leaves the rest. -/
theorem leftAt_advance (usage : Usage) (options : Options) (hfile : d.fileAt path = .ok (l, c)) (w : Worker)
    {w' : Worker} {log : List Log} (hstep : w.advance usage options path d = (w', log, d')) :
    ∃ now, d' = d.putAll now ∧ (leftAt usage options d (path, w)).2 = now ++ (leftAt usage options d' (path, w')).2 ∧
      (leftAt usage options d' (path, w')).1 = (leftAt usage options d (path, w)).1 := by
  have hown := placeFor_of_fileAt hfile
  cases w with
  | waiting =>
    refine ⟨[], ?_⟩
    rw [advance, readText_eq, hfile] at hstep
    cases c with
    | binary bytes =>
      cases hstep
      simp [leftAt, hfile, left, effect, putAll]
    | text former =>
      dsimp only at hstep
      cases hprune : prune former usage with
      | unchanged =>
        rw [hprune] at hstep
        cases hstep
        simp [leftAt, hfile, left, effect, hprune, putAll]
      | changed text removed =>
        rw [hprune] at hstep
        dsimp only at hstep
        by_cases hdry : options.dryRun = true
        · rw [if_pos hdry] at hstep
          cases hstep
          simp [leftAt, hfile, left, effect, hprune, hdry, putAll]
        rw [if_neg hdry] at hstep
        by_cases hbackup : options.backup = true
        · rw [if_pos hbackup] at hstep
          cases hstep
          simp only [leftAt, hfile, left, effect, hprune, hdry, hbackup, hown, if_true, Bool.false_eq_true, if_false]
          cases d.placeFor (backupPath path options.backupSuffix) <;> exact ⟨rfl, rfl, rfl⟩
        · rw [if_neg hbackup] at hstep
          cases hstep
          simp [leftAt, hfile, left, effect, hprune, hdry, hbackup, hown, putAll]
  | copying report former text =>
    rw [advance, writeText_eq] at hstep
    cases hcopy : d.placeFor (backupPath path options.backupSuffix) with
    | error fault =>
      rw [hcopy] at hstep
      cases hstep
      exact ⟨[], rfl, by simp [leftAt, left, hcopy]⟩
    | ok copy =>
      rw [hcopy] at hstep
      cases hstep
      obtain ⟨c', hfile'⟩ := exists_fileAt_put hfile copy (.text former)
      refine ⟨[(copy, .text former)], rfl, ?_⟩
      simp [leftAt, left, hcopy, hown, placeFor_of_fileAt hfile']
  | writing report text =>
    rw [advance, writeText_eq, hown] at hstep
    cases hstep
    exact ⟨[(l, .text text)], rfl, by simp [leftAt, left, hown]⟩
  | finished result =>
    cases hstep
    exact ⟨[], rfl, rfl, rfl⟩

/-- What is left to be written can be put where it is to be written. -/
theorem takes_leftAt (d : Directory) (a : Text × Worker) : d.Takes (leftAt usage options d a).2 := by
  intro k hk
  obtain ⟨path, worker⟩ := a
  cases worker with
  | waiting => exact (concerns_of_mem_writes hk).2
  | copying report former text =>
    simp only [leftAt, left] at hk
    split at hk
    · cases hk
    · next copy _ hcopy _ =>
      rw [List.mem_singleton.1 hk]
      exact accepts_of_placeFor hcopy _
    · next copy l hcopy hown =>
      rcases List.mem_cons.1 hk with rfl | hk
      · exact accepts_of_placeFor hcopy _
      · rw [List.mem_singleton.1 hk]
        exact accepts_of_placeFor hown _
  | writing report text =>
    simp only [leftAt, left] at hk
    split at hk
    · cases hk
    · next l hown =>
      rw [List.mem_singleton.1 hk]
      exact accepts_of_placeFor hown _
  | finished result => cases hk

/-- Writing takes no file away. -/
theorem exists_fileAt_putAll (hfile : d.fileAt path = .ok (l, c)) (writes : List (Location × Content)) :
    ∃ l c, (d.putAll writes).fileAt path = .ok (l, c) := by
  induction writes generalizing d c with
  | nil => exact ⟨l, c, hfile⟩
  | cons k writes ih =>
    obtain ⟨c', hfile'⟩ := exists_fileAt_put hfile k.1 k.2
    exact ih hfile'

/-- The worker can go on, whatever others do elsewhere. -/
structure Able (options : Options) (d : Directory) (a : Text × Worker) : Prop where
  /-- The stylesheet is there. -/
  file : ∃ l c, d.fileAt a.1 = .ok (l, c)
  /-- The place of its copy depends on the directories only. -/
  steady : Steady d options a.1
  /-- A copy is written only if copies are wanted. -/
  keeps : a.2.Keeps options

theorem Able.putAll {a : Text × Worker} (h : Able options d a) (writes : List (Location × Content)) :
    Able options (d.putAll writes) a where
  file := by
    obtain ⟨l, c, hfile⟩ := h.file
    exact exists_fileAt_putAll hfile writes
  steady := h.steady.of_frame (frame_putAll d writes)
  keeps := h.keeps

/-- What is left to do with a stylesheet changes only if it is written to. -/
theorem Able.leftAt_of_frame {touched : Location → Prop} {a : Text × Worker} (ha : Able options d a)
    (h : Frame touched d d') (hl : ∀ l, d.locate a.1 = .ok l → ¬touched l) :
    leftAt usage options d' a = leftAt usage options d a := by
  obtain ⟨path, w⟩ := a
  obtain ⟨l, c, hfile⟩ := ha.file
  have hl := hl l (fileAt_eq_ok_iff.1 hfile).1
  have hfile' := fileAt_of_frame h hfile hl
  simp only [leftAt, placeFor_of_fileAt hfile, placeFor_of_fileAt hfile', hfile, hfile']
  cases hbackup : options.backup with
  | true => rw [ha.steady.placeFor_eq hbackup h hfile hl]
  | false =>
    cases w with
    | waiting => rw [left, left, effect_of_not_backup hbackup]
    | copying report former text =>
      have hkeeps : options.backup = true := ha.keeps
      simp [hbackup] at hkeeps
    | writing report text => rfl
    | finished result => rfl

end Worker

/-! ### Turns -/

namespace Pool

open Directory Worker

variable {usage : Usage} {options : Options} {pool : Pool} {d : Directory} {before after : List (Text × Worker)}
  {path : Text} {w : Worker} {log : List Log}

/-- All workers have finished. -/
def IsDone (pool : Pool) : Prop := ∀ a ∈ pool.workers, ∃ result, a.2 = .finished result

/-- What the workers will come to and what they will write. -/
def outlook (usage : Usage) (options : Options) (pool : Pool) :
    List (Except Failure Report × List (Location × Content)) :=
  pool.workers.map (leftAt usage options pool.directory)

/-- The directory after all that is left to do. -/
def final (usage : Usage) (options : Options) (pool : Pool) : Directory :=
  pool.directory.putAll ((pool.outlook usage options).map Prod.snd).flatten

/-- The turn of the worker behind some others. -/
theorem turn_middle (usage : Usage) (options : Options) (d : Directory) (before : List (Text × Worker)) (path : Text)
    (w : Worker) (after : List (Text × Worker)) (log : List Log) :
    turn usage options ⟨d, before ++ (path, w) :: after, log⟩ before.length =
      ⟨(w.advance usage options path d).2.2, before ++ (path, (w.advance usage options path d).1) :: after,
        log ++ (w.advance usage options path d).2.1⟩ := by
  simp [turn]

/-- Three turns without a break do what pruning the file does. -/
theorem run_three_turns (usage : Usage) (options : Options) (d : Directory) (before : List (Text × Worker))
    (path : Text) (after : List (Text × Worker)) (log : List Log) :
    run usage options ⟨d, before ++ (path, .waiting) :: after, log⟩ [before.length, before.length, before.length] =
      ⟨(d.pruneFile usage options path).directory,
        before ++ (path, .finished (d.pruneFile usage options path).result) :: after,
        log ++ (d.pruneFile usage options path).log⟩ := by
  simp only [run, List.foldl_cons, List.foldl_nil, turn_middle, List.append_assoc]
  rw [pruneFile, advance.eq_1]
  cases d.readText path with
  | error fault => rfl
  | ok former =>
    dsimp only
    cases prune former usage with
    | unchanged => rfl
    | changed text removed =>
      dsimp only [store]
      by_cases hdry : options.dryRun = true
      · simp [hdry, advance]
      by_cases hbackup : options.backup = true
      · simp only [hdry, hbackup, if_true, Bool.false_eq_true, if_false, advance]
        cases d.writeText (backupPath path options.backupSuffix) former with
        | error failure => simp
        | ok after =>
          dsimp only [advance]
          cases after.writeText path text <;> simp
      · simp only [hdry, hbackup, Bool.false_eq_true, if_false, advance]
        cases d.writeText path text <;> simp

/-- What the one worker has left does not write to the stylesheet of the other. -/
def Clear (usage : Usage) (options : Options) (d : Directory) (a b : Text × Worker) : Prop :=
  ∀ m, d.locate b.1 = .ok m → m ∉ (leftAt usage options d a).2.map Prod.fst

/-- Neither of two workers has something left that gets in the way of the other. -/
structure Parted (usage : Usage) (options : Options) (d : Directory) (a b : Text × Worker) : Prop where
  /-- The first does not write to the stylesheet of the second. -/
  clear : Clear usage options d a b
  /-- Nor the second to that of the first. -/
  cleared : Clear usage options d b a
  /-- Nothing is written by both. -/
  apart : Apart (leftAt usage options d a).2 (leftAt usage options d b).2

theorem Parted.symm {a b : Text × Worker} (h : Parted usage options d a b) : Parted usage options d b a :=
  ⟨h.cleared, h.clear, h.apart.symm⟩

/-- Workers that have carried out a part of what they had left are as little in the way as before. -/
theorem Parted.of_frame {touched : Location → Prop} {d' : Directory} {a b : Text × Worker} {w w' : Worker}
    (h : Parted usage options d a b) (hframe : Frame touched d d')
    (ha : (leftAt usage options d' (a.1, w)).2 ⊆ (leftAt usage options d a).2)
    (hb : (leftAt usage options d' (b.1, w')).2 ⊆ (leftAt usage options d b).2) :
    Parted usage options d' (a.1, w) (b.1, w') where
  clear m hm hmem := h.clear m (hframe.locate.1 hm) (List.map_subset _ ha hmem)
  cleared m hm hmem := h.cleared m (hframe.locate.1 hm) (List.map_subset _ hb hmem)
  apart k hk k' hk' := h.apart k (ha hk) k' (hb hk')

/-- No worker gets in the way of another. -/
structure Underway (usage : Usage) (options : Options) (pool : Pool) : Prop where
  /-- Every worker can go on. -/
  able : ∀ a ∈ pool.workers, Able options pool.directory a
  /-- None is in the way of another. -/
  parted : pool.workers.Pairwise (Parted usage options pool.directory)

theorem underway_iff : Underway usage options ⟨d, before ++ (path, w) :: after, log⟩ ↔
    Able options d (path, w) ∧ (∀ b ∈ before ++ after, Parted usage options d (path, w) b) ∧
      Underway usage options ⟨d, before ++ after, log⟩ := by
  constructor
  · rintro ⟨hable, hparted⟩
    obtain ⟨hfirst, hothers⟩ := List.pairwise_cons.1 ((List.pairwise_middle Parted.symm).1 hparted)
    exact ⟨hable (path, w) (by simp), hfirst,
      ⟨fun b hb => hable b (List.perm_middle.mem_iff.2 (.tail _ hb)), hothers⟩⟩
  · rintro ⟨hown, hfirst, ⟨hable, hothers⟩⟩
    refine ⟨fun b hb => ?_, (List.pairwise_middle Parted.symm).2 (List.pairwise_cons.2 ⟨hfirst, hothers⟩)⟩
    rcases List.mem_cons.1 (List.perm_middle.mem_iff.1 hb) with rfl | hb
    · exact hown
    · exact hable b hb

/-- What a worker writes of what it has left does not change what the others have to do. -/
theorem Underway.leftAt_putAll (h : Underway usage options ⟨d, before ++ (path, w) :: after, log⟩)
    {now : List (Location × Content)} (hnow : now ⊆ (leftAt usage options d (path, w)).2) :
    ∀ b ∈ before ++ after, leftAt usage options (d.putAll now) b = leftAt usage options d b := by
  obtain ⟨-, hfirst, hothers⟩ := underway_iff.1 h
  intro b hb
  refine (hothers.able b hb).leftAt_of_frame (frame_putAll d now) fun m hm hmem => ?_
  exact (hfirst b hb).clear m hm (List.map_subset _ hnow hmem)

theorem mem_flatten_outlook {workers : List (Text × Worker)} {k : Location × Content} :
    k ∈ ((workers.map (leftAt usage options d)).map Prod.snd).flatten ↔
      ∃ a ∈ workers, k ∈ (leftAt usage options d a).2 := by
  simp only [List.map_map, ← List.flatMap_def, List.mem_flatMap, Function.comp_apply]

/-- A worker that has carried out a part of what it had left is as little in the way as before. -/
theorem Underway.perform (h : Underway usage options ⟨d, before ++ (path, w) :: after, log⟩) {w' : Worker}
    (hkeeps : w'.Keeps options) {now : List (Location × Content)}
    (hleft : (leftAt usage options d (path, w)).2 = now ++ (leftAt usage options (d.putAll now) (path, w')).2)
    (log' : List Log) : Underway usage options ⟨d.putAll now, before ++ (path, w') :: after, log'⟩ := by
  obtain ⟨hown, hfirst, hothers⟩ := underway_iff.1 h
  have hframe := frame_putAll d now
  have hsame := h.leftAt_putAll (by simp [hleft] : now ⊆ (leftAt usage options d (path, w)).2)
  have hable := hown.putAll now
  refine underway_iff.2 ⟨⟨hable.file, hable.steady, hkeeps⟩, fun b hb => ?_, fun b hb => ?_, ?_⟩
  · exact (hfirst b hb).of_frame hframe (by simp [hleft]) (by simp [hsame b hb])
  · exact (hothers.able b hb).putAll now
  · refine hothers.parted.imp_of_mem fun ha hb h => ?_
    exact h.of_frame hframe (by simp [hsame _ ha]) (by simp [hsame _ hb])

/-- It makes no difference for the end that a worker writes before those in front of it. -/
theorem Underway.get?_final (h : Underway usage options ⟨d, before ++ (path, w) :: after, log⟩)
    {now rest : List (Location × Content)} (hleft : (leftAt usage options d (path, w)).2 = now ++ rest) (l : Location) :
    (final usage options ⟨d, before ++ (path, w) :: after, log⟩).get? l =
      ((d.putAll now).putAll (((before.map (leftAt usage options d)).map Prod.snd).flatten ++
        (rest ++ ((after.map (leftAt usage options d)).map Prod.snd).flatten))).get? l := by
  have hall : ((outlook usage options ⟨d, before ++ (path, w) :: after, log⟩).map Prod.snd).flatten =
      ((before.map (leftAt usage options d)).map Prod.snd).flatten ++ now ++
        (rest ++ ((after.map (leftAt usage options d)).map Prod.snd).flatten) := by
    simp only [outlook, List.map_append, List.map_cons, List.flatten_append, List.flatten_cons, hleft,
      List.append_assoc]
  have htakes : d.Takes ((outlook usage options ⟨d, before ++ (path, w) :: after, log⟩).map Prod.snd).flatten := by
    intro k hk
    obtain ⟨a, -, hk⟩ := mem_flatten_outlook.1 hk
    exact takes_leftAt d a k hk
  have hapart : Apart ((before.map (leftAt usage options d)).map Prod.snd).flatten now := by
    intro k hk k' hk'
    obtain ⟨b, hb, hk⟩ := mem_flatten_outlook.1 hk
    have hparted := (underway_iff.1 h).2.1 b (List.mem_append_left after hb)
    exact hparted.symm.apart k hk k' (by simp [hleft, hk'])
  rw [hall] at htakes
  rw [final, hall, get?_putAll_comm htakes hapart, List.append_assoc, putAll_append]

/-- A step changes nothing of what the workers will come to. -/
theorem Underway.advance (h : Underway usage options ⟨d, before ++ (path, w) :: after, log⟩) {w' : Worker}
    {d' : Directory} {said : List Log} (hstep : w.advance usage options path d = (w', said, d')) (log' : List Log) :
    Underway usage options ⟨d', before ++ (path, w') :: after, log'⟩ ∧
      (outlook usage options ⟨d', before ++ (path, w') :: after, log'⟩).map Prod.fst =
        (outlook usage options ⟨d, before ++ (path, w) :: after, log⟩).map Prod.fst ∧
      ∀ l, (final usage options ⟨d', before ++ (path, w') :: after, log'⟩).get? l =
        (final usage options ⟨d, before ++ (path, w) :: after, log⟩).get? l := by
  obtain ⟨hown, -, -⟩ := underway_iff.1 h
  obtain ⟨l, c, hfile⟩ := hown.file
  obtain ⟨now, rfl, hleft, hresult⟩ := leftAt_advance usage options hfile w hstep
  have hkeeps : w'.Keeps options := by
    have hkeeps := keeps_advance usage options path d w
    rwa [hstep] at hkeeps
  have hsame := h.leftAt_putAll (by simp [hleft] : now ⊆ (leftAt usage options d (path, w)).2)
  have hbefore : before.map (leftAt usage options (d.putAll now)) = before.map (leftAt usage options d) :=
    List.map_congr_left fun b hb => hsame b (List.mem_append_left after hb)
  have hafter : after.map (leftAt usage options (d.putAll now)) = after.map (leftAt usage options d) :=
    List.map_congr_left fun b hb => hsame b (List.mem_append_right before hb)
  refine ⟨h.perform hkeeps hleft log', ?_, fun k => ?_⟩
  · simp only [outlook, List.map_append, List.map_cons, hbefore, hafter, hresult]
  · rw [h.get?_final hleft]
    simp only [final, outlook, List.map_append, List.map_cons, List.flatten_append, List.flatten_cons, hbefore, hafter]

/-- A turn of a worker, with those before and behind it. -/
theorem exists_turn (pool : Pool) (i : Nat) : pool.turn usage options i = pool ∨
    ∃ before path w after, pool.workers = before ++ (path, w) :: after ∧ before.length = i ∧
      pool.turn usage options i = ⟨(w.advance usage options path pool.directory).2.2,
        before ++ (path, (w.advance usage options path pool.directory).1) :: after,
        pool.log ++ (w.advance usage options path pool.directory).2.1⟩ := by
  obtain ⟨d, workers, log⟩ := pool
  cases hi : workers[i]? with
  | none =>
    left
    rw [turn, hi]
  | some a =>
    obtain ⟨path, w⟩ := a
    obtain ⟨hlt, hget⟩ := List.getElem?_eq_some_iff.1 hi
    have hsplit : workers = workers.take i ++ (path, w) :: workers.drop (i + 1) := by
      rw [← hget, List.getElem_cons_drop, List.take_append_drop]
    have hlength : (workers.take i).length = i := List.length_take_of_le (Nat.le_of_lt hlt)
    refine .inr ⟨workers.take i, path, w, workers.drop (i + 1), hsplit, hlength, ?_⟩
    have hturn := turn_middle usage options d (workers.take i) path w (workers.drop (i + 1)) log
    rwa [← hsplit, hlength] at hturn

/-- A turn changes nothing of what the workers will come to. -/
theorem Underway.turn (h : Underway usage options pool) (i : Nat) :
    Underway usage options (pool.turn usage options i) ∧
      ((pool.turn usage options i).outlook usage options).map Prod.fst = (pool.outlook usage options).map Prod.fst ∧
      ∀ l, ((pool.turn usage options i).final usage options).get? l = (pool.final usage options).get? l := by
  obtain ⟨d, workers, log⟩ := pool
  rcases exists_turn ⟨d, workers, log⟩ i with hturn | ⟨before, path, w, after, rfl, -, hturn⟩
  · rw [hturn]
    exact ⟨h, rfl, fun _ => rfl⟩
  · rw [hturn]
    exact h.advance rfl _

/-- Any number of turns change nothing of what the workers will come to. -/
theorem Underway.run (h : Underway usage options pool) (schedule : List Nat) :
    ((pool.run usage options schedule).outlook usage options).map Prod.fst = (pool.outlook usage options).map Prod.fst ∧
      ∀ l, ((pool.run usage options schedule).final usage options).get? l = (pool.final usage options).get? l := by
  induction schedule generalizing pool with
  | nil => exact ⟨rfl, fun _ => rfl⟩
  | cons i schedule ih =>
    obtain ⟨hnext, hresults, hfinal⟩ := h.turn i
    obtain ⟨hresults', hfinal'⟩ := ih hnext
    exact ⟨hresults'.trans hresults, fun l => (hfinal' l).trans (hfinal l)⟩

/-! ### The end -/

theorem getElem?_turn (i j : Nat) :
    (pool.turn usage options i).workers[j]? =
      if i = j then pool.workers[j]?.map fun a => (a.1, (a.2.advance usage options a.1 pool.directory).1)
      else pool.workers[j]? := by
  unfold Pool.turn
  split
  · grind
  · grind

/-- With each turn a worker has one step less to take. -/
theorem rank_run {a : Text × Worker} {i : Nat} (h : pool.workers[i]? = some a) (schedule : List Nat) :
    ∃ b, (pool.run usage options schedule).workers[i]? = some b ∧ b.2.rank ≤ a.2.rank - schedule.count i := by
  induction schedule generalizing pool a with
  | nil => exact ⟨a, h, Nat.le_refl _⟩
  | cons j schedule ih =>
    by_cases hj : j = i
    · subst hj
      have hnext : (pool.turn usage options j).workers[j]? =
          some (a.1, (a.2.advance usage options a.1 pool.directory).1) := by
        rw [getElem?_turn, if_pos rfl, h, Option.map_some]
      obtain ⟨b, hb, hrank⟩ := ih hnext
      have hstep := rank_advance usage options a.1 pool.directory a.2
      refine ⟨b, hb, ?_⟩
      rw [List.count_cons_self]
      simp only at hrank hstep
      omega
    · have hnext : (pool.turn usage options j).workers[i]? = some a := by rw [getElem?_turn, if_neg hj, h]
      obtain ⟨b, hb, hrank⟩ := ih hnext
      exact ⟨b, hb, by rwa [List.count_cons_of_ne hj]⟩

theorem leftAt_finished (d : Directory) {a : Text × Worker} {result : Except Failure Report}
    (h : a.2 = .finished result) :
    leftAt usage options d a = (result, []) := by
  rw [leftAt, h, left]

/-- When all have finished, nothing is left to do. -/
theorem IsDone.outcome (usage : Usage) (options : Options) (h : pool.IsDone) :
    pool.workers.map Prod.snd = ((pool.outlook usage options).map Prod.fst).map .finished ∧
      pool.final usage options = pool.directory := by
  constructor
  · rw [Pool.outlook, List.map_map, List.map_map]
    refine List.map_congr_left fun a ha => ?_
    obtain ⟨result, hresult⟩ := h a ha
    rw [Function.comp_apply, Function.comp_apply, leftAt_finished _ hresult, hresult]
  · have hnone : ((pool.outlook usage options).map Prod.snd).flatten = [] := by
      refine List.eq_nil_iff_forall_not_mem.2 fun k hk => ?_
      obtain ⟨a, ha, hk⟩ := mem_flatten_outlook.1 hk
      obtain ⟨result, hresult⟩ := h a ha
      rw [leftAt_finished _ hresult] at hk
      cases hk
    rw [final, hnone]
    rfl

theorem length_run (schedule : List Nat) : (pool.run usage options schedule).workers.length = pool.workers.length := by
  induction schedule generalizing pool with
  | nil => rfl
  | cons i schedule ih =>
    have hturn : (pool.turn usage options i).workers.length = pool.workers.length := by
      unfold Pool.turn
      split
      · rfl
      · exact List.length_set
    exact ih.trans hturn

/-- Three turns are enough for each worker. -/
theorem isDone_run {paths : List Text} {schedule : List Nat} (h : ∀ i < paths.length, 3 ≤ schedule.count i) :
    ((start d paths).run usage options schedule).IsDone := by
  intro a ha
  obtain ⟨i, hi⟩ := List.mem_iff_getElem?.1 ha
  have hlt : i < paths.length := by
    obtain ⟨hlt, -⟩ := List.getElem?_eq_some_iff.1 hi
    rwa [length_run, start, List.length_map] at hlt
  have hstart : (start d paths).workers[i]? = some (paths[i], .waiting) := by simp [start, hlt]
  obtain ⟨b, hb, hrank⟩ := rank_run hstart schedule
  cases hi.symm.trans hb
  have hturns := h i hlt
  have hrank' : a.2.rank ≤ 3 - schedule.count i := hrank
  exact Worker.exists_of_rank_eq_zero (by omega)

theorem underway_start {paths : List Text} (hfiles : ∀ p ∈ paths, d.isFile p = true ∧ Steady d options p)
    (hseparate : paths.Pairwise (Separate d usage options)) : Underway usage options (start d paths) where
  able := by
    intro a ha
    obtain ⟨p, hp, rfl⟩ := List.mem_map.1 ha
    exact ⟨exists_fileAt_of_isFile (hfiles p hp).1, (hfiles p hp).2, trivial⟩
  parted := by
    refine List.pairwise_map.2 (hseparate.imp fun h => ?_)
    exact ⟨fun m hm => h.spares.not_mem hm, fun m hm => h.spared.not_mem hm, h.apart⟩

/-- At the start there is as much to do as for pruning one stylesheet after the other. -/
theorem outlook_start {paths : List Text} (hfiles : ∀ p ∈ paths, d.isFile p = true ∧ Steady d options p)
    (hseparate : paths.Pairwise (Separate d usage options)) :
    ((start d paths).outlook usage options).map Prod.fst = (d.pruneFiles usage options paths).1 ∧
      (start d paths).final usage options = (d.pruneFiles usage options paths).2.2 := by
  obtain ⟨hresults, hdirectory⟩ := pruneFiles_eq hfiles hseparate
  simp only [final, outlook, start, List.map_map, hresults, hdirectory]
  exact ⟨rfl, rfl⟩

end Pool

namespace Directory

/-- A worker that is left alone does what `pruneFile` does. If no stylesheet is written to when another
is pruned and no two copies are made in the same place, all orders have the same outcome, and so has every
schedule; three turns for each are enough. The copies are never in the way if the suffix has no slash. Two
stylesheets of which one is written to when the other is pruned do not have the same outcome in both
orders, unless a copy cannot be made. -/
theorem stylesheets_are_independent (d : Directory) (usage : Usage) (options : Options) :
    (∀ path : Text, (Pool.start d [path]).run usage options [0, 0, 0] =
      ⟨(d.pruneFile usage options path).directory, [(path, .finished (d.pruneFile usage options path).result)],
        (d.pruneFile usage options path).log⟩) ∧
    (∀ paths : List Text, (∀ p ∈ paths, d.isFile p = true ∧ Steady d options p) →
      paths.Pairwise (Separate d usage options) →
        (∀ order : List Text, order.Perm paths → Agree d usage options order paths) ∧
        ∀ schedule : List Nat,
          ((∀ i < paths.length, 3 ≤ schedule.count i) →
            ((Pool.start d paths).run usage options schedule).IsDone) ∧
          (((Pool.start d paths).run usage options schedule).IsDone →
            ((Pool.start d paths).run usage options schedule).workers.map Prod.snd =
                (d.pruneFiles usage options paths).1.map .finished ∧
              ∀ l, ((Pool.start d paths).run usage options schedule).directory.get? l =
                (d.pruneFiles usage options paths).2.2.get? l)) ∧
    ('/' ∉ options.backupSuffix → ∀ p q : Text, Spares d usage options p q → Spares d usage options q p →
      Steady d options p ∧ Separate d usage options p q) ∧
    ∀ p q : Text, p ≠ q → (∀ r ∈ (d.pruneFiles usage options [p, q]).1, r.isOk = true) →
      Agree d usage options [q, p] [p, q] → Spares d usage options p q ∧ Spares d usage options q p := by
  refine ⟨fun path => ?_, ?_, ?_, ?_⟩
  · exact Pool.run_three_turns usage options d [] path [] []
  · intro paths hfiles hseparate
    refine ⟨fun order hperm => agree_of_perm hfiles hseparate hperm, fun schedule => ⟨Pool.isDone_run, ?_⟩⟩
    intro hdone
    obtain ⟨hresults, hfinal⟩ := (Pool.underway_start hfiles hseparate).run schedule
    obtain ⟨hworkers, hdirectory⟩ := hdone.outcome usage options
    obtain ⟨hresults', hfinal'⟩ := Pool.outlook_start hfiles hseparate
    rw [hdirectory, hfinal'] at hfinal
    exact ⟨by rw [hworkers, hresults, hresults'], hfinal⟩
  · intro hsuffix p q h h'
    exact ⟨.inr (.inl hsuffix), separate_of_spares hsuffix h h'⟩
  · intro p q hne hok hagree
    refine ⟨spares_of_agree hne hok hagree, spares_of_agree hne.symm ?_ hagree.symm⟩
    exact fun r hr => hok r (hagree.results.mem_iff.1 hr)

/-- Two stylesheets, one of them outside the current directory and with a copy from an earlier run. -/
def pair : Directory :=
  (empty.enter ["w".toList]).fill
    [(["w".toList, "a.css".toList], .file (.text ".x{a:1}.k{b:2}".toList)), (["d".toList], .directory),
      (["d".toList, "a.css".toList], .file (.text ".y{c:3}".toList)),
      (["d".toList, "a.css.backup".toList], .file (.text ".z{e:5}".toList))]

/-- They are independent, and one of the schedules comes to an end. -/
theorem stylesheets_are_independent_pair :
    Agree pair (.ofList [".k".toList]) .default ["/d/a.css".toList, "a.css".toList]
        ["a.css".toList, "/d/a.css".toList] ∧
      ((Pool.start pair ["a.css".toList, "/d/a.css".toList]).run (.ofList [".k".toList]) .default
        [0, 1, 1, 0, 0, 1]).workers.map Prod.snd =
          (pair.pruneFiles (.ofList [".k".toList]) .default ["a.css".toList, "/d/a.css".toList]).1.map .finished := by
  obtain ⟨-, hpaths, hpairs, -⟩ := stylesheets_are_independent pair (.ofList [".k".toList]) .default
  have hsuffix : '/' ∉ Options.default.backupSuffix := by decide +kernel
  have hisFile : ∀ p ∈ ["a.css".toList, "/d/a.css".toList], pair.isFile p = true := by decide +kernel
  have hfiles : ∀ p ∈ ["a.css".toList, "/d/a.css".toList], pair.isFile p = true ∧ Steady pair .default p :=
    fun p hp => ⟨hisFile p hp, .inr (.inl hsuffix)⟩
  have hseparate : ["a.css".toList, "/d/a.css".toList].Pairwise (Separate pair (.ofList [".k".toList]) .default) :=
    List.pairwise_pair.2 (hpairs hsuffix _ _ (.inr (by decide +kernel)) (.inr (by decide +kernel))).2
  obtain ⟨horders, hschedules⟩ := hpaths _ hfiles hseparate
  obtain ⟨hdone, houtcome⟩ := hschedules [0, 1, 1, 0, 0, 1]
  exact ⟨horders _ (.swap _ _ _), (houtcome (hdone (by decide))).1⟩

/-- A stylesheet and another one that has the name of its copy. -/
def namesakes : Directory :=
  empty.fill [(["a.css".toList], .file (.text ".x{a:1}.k{b:2}".toList)),
    (["a.css.backup".toList], .file (.text ".k{d:4}".toList))]

/-- Two stylesheets, with directories through which a suffix can lead back. -/
def detours : Directory :=
  (empty.enter ["w".toList]).fill
    [(["w".toList, "a.css".toList], .file (.text ".x{a:1}".toList)),
      (["w".toList, "b.css".toList], .file (.text ".y{b:2}".toList)),
      (["w".toList, "a.cssd".toList], .directory), (["w".toList, "b.cssd".toList], .directory)]

/-- The order matters if one stylesheet has the name of the other's copy, if there are two paths to
the same one, and if the copies of both are made in the same place. -/
theorem pruning_order_matters :
    ((namesakes.resolve ["a.css".toList, "a.css.backup".toList]).1 = .ok ["a.css".toList, "a.css.backup".toList] ∧
      ¬Agree namesakes (.ofList [".k".toList]) .default ["a.css.backup".toList, "a.css".toList]
        ["a.css".toList, "a.css.backup".toList]) ∧
    (∀ other ∈ ["./a.css".toList, "/w/a.css".toList, "../w/a.css".toList],
      (detours.resolve ["a.css".toList, other]).1 = .ok ["a.css".toList, other] ∧
        ¬Agree detours .empty ⟨false, [], false⟩ [other, "a.css".toList] ["a.css".toList, other]) ∧
    ((detours.resolve ["a.css".toList, "b.css".toList]).1 = .ok ["a.css".toList, "b.css".toList] ∧
      ¬Agree detours .empty ⟨true, "d/../x".toList, false⟩ ["b.css".toList, "a.css".toList]
        ["a.css".toList, "b.css".toList]) := by
  refine ⟨⟨by decide +kernel, fun h => ?_⟩, ?_, by decide +kernel, fun h => ?_⟩
  · exact absurd (h.2 ["a.css.backup".toList]) (by decide +kernel)
  · simp only [List.forall_mem_cons]
    refine ⟨⟨by decide +kernel, fun h => ?_⟩, ⟨by decide +kernel, fun h => ?_⟩,
      ⟨by decide +kernel, fun h => ?_⟩, by simp⟩
    all_goals exact absurd h.1 (by decide +kernel)
  · exact absurd (h.2 ["w".toList, "x".toList]) (by decide +kernel)

end Directory

end Cull
