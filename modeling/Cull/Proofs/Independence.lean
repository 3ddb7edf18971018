import Cull.Proofs.Backup

/-!
# Stylesheets that do not get in each other's way

Pruning a stylesheet writes to it and to its copy, and what it comes to depends on its text and on
where directories stand (`effectAt_of_frame`). So if no stylesheet is written to when another is
pruned, and no two copies are made in the same place, each is pruned as if it were the only one
(`pruneFiles_eq`), in every order with the same outcome (`agree_of_perm`). Copies that are made beside
their stylesheets are never made in the same place (`separate_of_spares`). If one stylesheet is
written to when another is pruned, the order matters (`spares_of_agree`).
-/

namespace Cull.Directory

variable {d d' : Directory} {usage : Usage} {options : Options} {path p q : Text} {l m : Location} {c : Content}
  {touched : Location → Prop}

/-! ### The order of writing -/

theorem putAll_append (a b : List (Location × Content)) : d.putAll (a ++ b) = (d.putAll a).putAll b := List.foldl_append

/-- What is written can be put where it is written. -/
def Takes (d : Directory) (writes : List (Location × Content)) : Prop := ∀ w ∈ writes, d.Accepts w.1 (.file w.2)

theorem Frame.takes {writes : List (Location × Content)} (h : Frame touched d d') (ht : d.Takes writes) :
    d'.Takes writes :=
  fun w hw => (accepts_congr h.directories _ _).2 (ht w hw)

/-- A location holds what was written to it last, or what it held. -/
theorem get?_putAll {writes : List (Location × Content)} (h : d.Takes writes) (l : Location) :
    (d.putAll writes).get? l = ((writes.reverse.lookup l).map Entry.file).or (d.get? l) := by
  induction writes generalizing d with
  | nil => rfl
  | cons w writes ih =>
    obtain ⟨hw, hwrites⟩ := List.forall_mem_cons.1 h
    obtain ⟨k, c⟩ := w
    rw [List.reverse_cons, List.lookup_append]
    have hput : (d.putAll ((k, c) :: writes)).get? l = ((d.put k (.file c)).putAll writes).get? l := rfl
    rw [hput, ih ((frame_put d k c).takes hwrites), get?_put hw]
    by_cases hl : l = k
    · cases writes.reverse.lookup l <;> simp [hl]
    · cases writes.reverse.lookup l <;> simp [hl, List.lookup_cons, beq_eq_false_iff_ne.2 hl]

/-- Nothing is written by both. -/
def Apart (a b : List (Location × Content)) : Prop := ∀ w ∈ a, ∀ w' ∈ b, w.1 ≠ w'.1

theorem Apart.symm {a b : List (Location × Content)} (h : Apart a b) : Apart b a :=
  fun w hw w' hw' heq => h w' hw' w hw heq.symm

theorem get?_putAll_comm {a b rest : List (Location × Content)} (h : d.Takes (a ++ b ++ rest))
    (hapart : Apart a b) (l : Location) :
    (d.putAll (a ++ b ++ rest)).get? l = (d.putAll (b ++ a ++ rest)).get? l := by
  have h' : d.Takes (b ++ a ++ rest) := fun w hw => h w (by simp_all [or_left_comm])
  rw [get?_putAll h, get?_putAll h']
  congr 2
  simp only [List.reverse_append, List.lookup_append]
  congr 1
  -- one of the two has nothing for the location
  by_cases ha : ∀ w ∈ a, l ≠ w.1
  · have hnone : a.reverse.lookup l = none := List.lookup_eq_none_iff.2 (by simpa using ha)
    rw [hnone, Option.or_none, Option.none_or]
  · have hnone : b.reverse.lookup l = none := by
      simp only [ne_eq, not_forall, not_not] at ha
      obtain ⟨w, hw, rfl⟩ := ha
      exact List.lookup_eq_none_iff.2 (by simpa using hapart w hw)
    rw [hnone, Option.or_none, Option.none_or]

theorem get?_putAll_perm {chunks chunks' : List (List (Location × Content))} (hperm : chunks.Perm chunks')
    (h : d.Takes chunks.flatten) (hapart : chunks.Pairwise Apart) (l : Location) :
    (d.putAll chunks.flatten).get? l = (d.putAll chunks'.flatten).get? l := by
  induction hperm generalizing d with
  | nil => rfl
  | cons a _ ih =>
    rw [List.flatten_cons] at h
    rw [List.flatten_cons, List.flatten_cons, putAll_append, putAll_append]
    refine ih ((frame_putAll d a).takes fun w hw => h w ?_) (List.pairwise_cons.1 hapart).2
    exact List.mem_append_right a hw
  | swap a b rest =>
    have hba : Apart b a := (List.pairwise_cons.1 hapart).1 a (by simp)
    simp only [List.flatten_cons, ← List.append_assoc] at h ⊢
    exact get?_putAll_comm h hba l
  | trans hperm _ ih ih' =>
    rw [ih h hapart, ih' (fun w hw => h w (hperm.flatten.mem_iff.2 hw)) ((hperm.pairwise_iff Apart.symm).1 hapart)]

/-! ### What pruning the others leaves as it is -/

theorem fileAt_of_frame (h : Frame touched d d') (hfile : d.fileAt path = .ok (l, c)) (hl : ¬touched l) :
    d'.fileAt path = .ok (l, c) := by
  obtain ⟨hlocate, hget⟩ := fileAt_eq_ok_iff.1 hfile
  exact fileAt_eq_ok_iff.2 ⟨h.locate.2 hlocate, (h.elsewhere l hl).trans hget⟩

/-- Where the copy is made depends on the directories only: no copy is wanted, it is beside the stylesheet, or
there is a place for it. Where there is none, another file on the way can change the reason. -/
def Steady (d : Directory) (options : Options) (path : Text) : Prop :=
  options.backup = false ∨ '/' ∉ options.backupSuffix ∨
    ∃ copy, d.placeFor (backupPath path options.backupSuffix) = .ok copy

theorem placeFor_of_frame (h : Frame touched d d') (hplace : d.placeFor p = .ok m) : d'.placeFor p = .ok m := by
  obtain ⟨hlocate, hdir⟩ := placeFor_eq_ok_iff.1 hplace
  exact placeFor_eq_ok_iff.2 ⟨h.locate.2 hlocate, (h.directories m).trans hdir⟩

theorem Steady.of_frame (hs : Steady d options path) (h : Frame touched d d') : Steady d' options path := by
  obtain hs | hs | ⟨copy, hcopy⟩ := hs
  · exact .inl hs
  · exact .inr (.inl hs)
  · exact .inr (.inr ⟨copy, placeFor_of_frame h hcopy⟩)

theorem Steady.placeFor_eq (hs : Steady d options path) (hbackup : options.backup = true) (h : Frame touched d d')
    (hfile : d.fileAt path = .ok (l, c)) (hl : ¬touched l) :
    d'.placeFor (backupPath path options.backupSuffix) = d.placeFor (backupPath path options.backupSuffix) := by
  obtain hs | hsuffix | ⟨copy, hcopy⟩ := hs
  · simp [hbackup] at hs
  · rw [placeFor_backupPath hfile hsuffix, placeFor_backupPath (fileAt_of_frame h hfile hl) hsuffix, h.directories]
  · rw [hcopy, placeFor_of_frame h hcopy]

theorem effect_of_not_backup (hbackup : options.backup = false) (file : Except Fault (Location × Content))
    (place place' : Except Fault Location) :
    effect usage options path file place = effect usage options path file place' := by
  unfold effect
  simp only [hbackup, Bool.false_eq_true, if_false]

/-- What pruning a stylesheet comes to changes only if it is written to. -/
theorem effectAt_of_frame (hs : Steady d options path) (h : Frame touched d d') (hfile : d.fileAt path = .ok (l, c))
    (hl : ¬touched l) : d'.effectAt usage options path = d.effectAt usage options path := by
  rw [effectAt, effectAt, fileAt_of_frame h hfile hl, hfile]
  cases hbackup : options.backup with
  | false => exact effect_of_not_backup hbackup _ _ _
  | true => rw [hs.placeFor_eq hbackup h hfile hl]

/-- Pruning the one stylesheet does not write to the other: it writes nothing, or neither it nor its
copy is the other. -/
def Spares (d : Directory) (usage : Usage) (options : Options) (p q : Text) : Prop :=
  Idle options (d.pruneFile usage options p).result ∨
    d.locate p ≠ d.locate q ∧ (options.backup = true → d.locate (backupPath p options.backupSuffix) ≠ d.locate q)

/-- Neither of two stylesheets is written to when the other is pruned, and their copies are not made in
the same place. -/
structure Separate (d : Directory) (usage : Usage) (options : Options) (p q : Text) : Prop where
  /-- The first does not get in the way of the second. -/
  spares : Spares d usage options p q
  /-- Nor the second in that of the first. -/
  spared : Spares d usage options q p
  /-- If copies of both are made, they are different files. -/
  copies : Idle options (d.pruneFile usage options p).result ∨ Idle options (d.pruneFile usage options q).result ∨
    (options.backup = true →
      d.locate (backupPath p options.backupSuffix) ≠ d.locate (backupPath q options.backupSuffix))

theorem Separate.symm (h : Separate d usage options p q) : Separate d usage options q p :=
  ⟨h.spared, h.spares, or_left_comm.1 (h.copies.imp_right fun h => h.imp_right fun h hbackup => (h hbackup).symm)⟩

theorem Spares.not_mem (h : Spares d usage options p q) (hq : d.locate q = .ok m) :
    m ∉ (d.effectAt usage options p).writes.map Prod.fst := by
  intro hm
  obtain ⟨w, hw, rfl⟩ := List.mem_map.1 hm
  rcases h with hidle | ⟨hfile, hcopy⟩
  · rw [writes_eq_nil_of_idle hidle] at hw
    cases hw
  · rcases (concerns_of_mem_writes hw).1 with hp | ⟨hbackup, hp⟩
    · exact hfile (hp.trans hq.symm)
    · exact hcopy hbackup (hp.trans hq.symm)

/-- Pruning the one of two separate stylesheets writes elsewhere than pruning the other. -/
theorem Separate.apart (h : Separate d usage options p q) :
    Apart (d.effectAt usage options p).writes (d.effectAt usage options q).writes := by
  intro w hw w' hw' heq
  have hkey : w.1 ∈ (d.effectAt usage options q).writes.map Prod.fst := heq ▸ List.mem_map_of_mem hw'
  have hkey' : w.1 ∈ (d.effectAt usage options p).writes.map Prod.fst := List.mem_map_of_mem hw
  obtain hp | ⟨hbackup, hp⟩ := (concerns_of_mem_writes hw).1
  · exact h.spared.not_mem hp hkey
  obtain hq | ⟨-, hq⟩ := (concerns_of_mem_writes hw').1
  · exact h.spares.not_mem (heq ▸ hq) hkey'
  -- both are written to copies
  rcases h.copies with hidle | hidle | hcopies
  · rw [writes_eq_nil_of_idle hidle] at hw
    cases hw
  · rw [writes_eq_nil_of_idle hidle] at hw'
    cases hw'
  · exact hcopies hbackup (by rw [hp, hq, heq])

theorem exists_fileAt_of_isFile (h : d.isFile path = true) : ∃ l c, d.fileAt path = .ok (l, c) := by
  unfold isFile at h
  split at h
  · next c hread =>
    obtain ⟨l, hl, hget⟩ := read_eq_ok_iff.1 hread
    exact ⟨l, c, fileAt_eq_ok_iff.2 ⟨hl, hget⟩⟩
  · cases h

/-- With a suffix that has no slash, the copies are beside the stylesheets, and then those of two
stylesheets are different. -/
theorem separate_of_spares (hsuffix : '/' ∉ options.backupSuffix) (h : Spares d usage options p q)
    (h' : Spares d usage options q p) : Separate d usage options p q := by
  refine ⟨h, h', ?_⟩
  by_cases hp : Idle options (d.pruneFile usage options p).result
  · exact .inl hp
  by_cases hq : Idle options (d.pruneFile usage options q).result
  · exact .inr (.inl hq)
  refine .inr (.inr fun hbackup hsame => ?_)
  obtain ⟨l, _, _, _, _, hfile, -, -, -, -, hwrites⟩ := exists_of_not_idle hp
  obtain ⟨m, _, _, _, _, hfile', -, -, -, -, hwrites'⟩ := exists_of_not_idle hq
  obtain ⟨hnone, -⟩ | ⟨-, copy, hcopy, -⟩ := hwrites
  · simp [hbackup] at hnone
  obtain ⟨hnone, -⟩ | ⟨-, copy', hcopy', -⟩ := hwrites'
  · simp [hbackup] at hnone
  have hequal : copy = copy' := by
    rw [(placeFor_eq_ok_iff.1 hcopy).1, (placeFor_eq_ok_iff.1 hcopy').1] at hsame
    exact Except.ok.inj hsame
  rw [eq_beside_of_placeFor hfile hsuffix hcopy, eq_beside_of_placeFor hfile' hsuffix hcopy'] at hequal
  obtain rfl := beside_inj (ne_nil_of_fileAt hfile) (ne_nil_of_fileAt hfile') hequal
  obtain hidle | ⟨hother, -⟩ := h
  · exact hp hidle
  · exact hother ((fileAt_eq_ok_iff.1 hfile).1.trans (fileAt_eq_ok_iff.1 hfile').1.symm)

/-! ### One after the other -/

theorem pruneFiles_eq_of_not_mem {paths : List Text} (hsteady : ∀ p ∈ paths, Steady d options p)
    (hfiles : ∀ p ∈ paths, ∃ l c, d.fileAt p = .ok (l, c))
    (hclear : paths.Pairwise fun p q =>
      ∀ m, d.locate q = .ok m → m ∉ (d.effectAt usage options p).writes.map Prod.fst) :
    (d.pruneFiles usage options paths).1 = paths.map (fun p => (d.effectAt usage options p).result) ∧
      (d.pruneFiles usage options paths).2.2 =
        d.putAll (paths.map fun p => (d.effectAt usage options p).writes).flatten := by
  induction paths generalizing d with
  | nil => exact ⟨rfl, rfl⟩
  | cons p rest ih =>
    obtain ⟨-, hrest⟩ := List.forall_mem_cons.1 hfiles
    obtain ⟨-, hsteadyRest⟩ := List.forall_mem_cons.1 hsteady
    obtain ⟨hfirst, hothers⟩ := List.pairwise_cons.1 hclear
    have hframe := frame_putAll d (d.effectAt usage options p).writes
    generalize hafter : d.putAll (d.effectAt usage options p).writes = after at hframe
    have heffect : ∀ q ∈ rest, after.effectAt usage options q = d.effectAt usage options q := by
      intro q hq
      obtain ⟨m, c, hm⟩ := hrest q hq
      exact effectAt_of_frame (hsteadyRest q hq) hframe hm (hfirst q hq m (fileAt_eq_ok_iff.1 hm).1)
    have hfiles' : ∀ q ∈ rest, ∃ m c, after.fileAt q = .ok (m, c) := by
      intro q hq
      obtain ⟨m, c, hm⟩ := hrest q hq
      exact ⟨m, c, fileAt_of_frame hframe hm (hfirst q hq m (fileAt_eq_ok_iff.1 hm).1)⟩
    have hclear' : rest.Pairwise fun q r =>
        ∀ m, after.locate r = .ok m → m ∉ (after.effectAt usage options q).writes.map Prod.fst :=
      hothers.imp_of_mem fun hq _ h m hm => by
        rw [heffect _ hq]
        exact h m (hframe.locate.1 hm)
    obtain ⟨hresults, hdirectory⟩ := ih (fun q hq => (hsteadyRest q hq).of_frame hframe) hfiles' hclear'
    simp only [pruneFiles, pruneFile_eq, hafter, hresults, hdirectory]
    rw [List.map_cons, List.map_cons, List.flatten_cons, putAll_append, hafter]
    constructor
    · rw [List.map_congr_left fun q hq => by rw [heffect q hq]]
    · rw [List.map_congr_left fun q hq => by rw [heffect q hq]]

/-- Each stylesheet is pruned as if it were the only one. -/
theorem pruneFiles_eq {paths : List Text} (hfiles : ∀ p ∈ paths, d.isFile p = true ∧ Steady d options p)
    (hseparate : paths.Pairwise (Separate d usage options)) :
    (d.pruneFiles usage options paths).1 = paths.map (fun p => (d.effectAt usage options p).result) ∧
      (d.pruneFiles usage options paths).2.2 =
        d.putAll (paths.map fun p => (d.effectAt usage options p).writes).flatten := by
  refine pruneFiles_eq_of_not_mem (fun p hp => (hfiles p hp).2)
    (fun p hp => exists_fileAt_of_isFile (hfiles p hp).1) (hseparate.imp ?_)
  exact fun h m hm => h.spares.not_mem hm

/-! ### Orders -/

/-- In both orders the same comes of each stylesheet, and in the end the same stands everywhere. -/
def Agree (d : Directory) (usage : Usage) (options : Options) (order paths : List Text) : Prop :=
  (order.zip (d.pruneFiles usage options order).1).Perm (paths.zip (d.pruneFiles usage options paths).1) ∧
    ∀ l, (d.pruneFiles usage options order).2.2.get? l = (d.pruneFiles usage options paths).2.2.get? l

theorem agree_of_perm {order paths : List Text} (hfiles : ∀ p ∈ paths, d.isFile p = true ∧ Steady d options p)
    (hseparate : paths.Pairwise (Separate d usage options)) (hperm : order.Perm paths) :
    Agree d usage options order paths := by
  have hzip : ∀ ps : List Text, ps.zip (ps.map fun p => (d.effectAt usage options p).result) =
      ps.map fun p => (p, (d.effectAt usage options p).result) := by
    intro ps
    rw [← List.zip_map', List.map_id']
  obtain ⟨hresults, hdirectory⟩ := pruneFiles_eq (fun p hp => hfiles p (hperm.mem_iff.1 hp))
    ((hperm.pairwise_iff Separate.symm).2 hseparate)
  obtain ⟨hresults', hdirectory'⟩ := pruneFiles_eq hfiles hseparate
  constructor
  · rw [hresults, hresults', hzip, hzip]
    exact hperm.map _
  · intro l
    rw [hdirectory, hdirectory']
    refine (get?_putAll_perm (hperm.symm.map _) ?_ ?_ l).symm
    · intro w hw
      obtain ⟨ws, hws, hw⟩ := List.mem_flatten.1 hw
      obtain ⟨p, -, rfl⟩ := List.mem_map.1 hws
      exact (concerns_of_mem_writes hw).2
    · exact List.pairwise_map.2 (hseparate.imp fun h => h.apart)

/-! ### When the order matters -/

/-- What a report says about the text that was read. -/
theorem exists_of_report {report : Report} (h : (d.pruneFile usage options path).result = .ok report) :
    ∃ l t, d.fileAt path = .ok (l, .text t) ∧ report.formerBytes = t.byteLength ∧
      ∀ text n, prune t usage = .changed text n → report.removed = n := by
  rw [pruneFile_eq] at h
  dsimp only [effectAt] at h
  generalize d.fileAt path = file at h ⊢
  generalize d.placeFor (backupPath path options.backupSuffix) = place at h
  have hcount : ∀ {t text n}, prune t usage = .changed text n →
      ∀ text' n', prune t usage = .changed text' n' → n = n' :=
    fun h _ _ h' => (Pruned.changed.inj (h.symm.trans h')).2
  revert h
  fun_cases effect usage options path file place with
  | case1 => rintro ⟨⟩
  | case2 => rintro ⟨⟩
  | case3 _ l former size hprune =>
    intro h
    rw [← Except.ok.inj h]
    exact ⟨l, former, rfl, rfl, fun text n hn => Pruned.noConfusion (hprune.symm.trans hn)⟩
  | case4 _ l former size text removed hprune =>
    intro h
    rw [← Except.ok.inj h]
    exact ⟨l, former, rfl, rfl, hcount hprune⟩
  | case5 => rintro ⟨⟩
  | case6 l former size text removed hprune =>
    intro h
    rw [← Except.ok.inj h]
    exact ⟨l, former, rfl, rfl, hcount hprune⟩
  | case7 _ l former size text removed hprune =>
    intro h
    rw [← Except.ok.inj h]
    exact ⟨l, former, rfl, rfl, hcount hprune⟩

/-- A stylesheet that is pruned a second time, under another path, is reported smaller. -/
theorem report_ne_of_same_file {report : Report} (hbusy : ¬Idle options (d.pruneFile usage options p).result)
    (hsame : d.locate p = d.locate q)
    (hok : ((d.pruneFile usage options p).directory.pruneFile usage options q).result = .ok report) :
    (d.pruneFile usage options q).result ≠ .ok report := by
  intro hok'
  obtain ⟨l, former, text, n, hfile, hprune, hafter⟩ := get?_of_not_idle hbusy
  obtain ⟨hl, hget⟩ := fileAt_eq_ok_iff.1 hfile
  have hframe := pruneFile_frame d usage options p
  have hfile := fileAt_eq_ok_iff.2 ⟨hsame ▸ hl, hget⟩
  have hfile' := fileAt_eq_ok_iff.2 ⟨hframe.locate.2 (hsame ▸ hl), hafter⟩
  obtain ⟨k, t, hk, hsize, -⟩ := exists_of_report hok'
  obtain ⟨k', t', hk', hsize', -⟩ := exists_of_report hok
  cases hk.symm.trans hfile
  cases hk'.symm.trans hfile'
  exact absurd (hsize'.symm.trans hsize) (Nat.ne_of_lt (byteLength_lt_of_prune hprune))

/-- A stylesheet holds its pruned text if that was reported. -/
theorem get?_of_report {former text : Text} {n : Nat} {report : Report}
    (hok : (d.pruneFile usage options path).result = .ok report) (hfile : d.fileAt path = .ok (l, .text former))
    (hprune : prune former usage = .changed text n) (hdry : options.dryRun = false) :
    (d.pruneFile usage options path).directory.get? l = some (.file (.text text)) := by
  obtain ⟨k, t, hk, -, hremoved⟩ := exists_of_report hok
  cases hk.symm.trans hfile
  have hpos : 0 < report.removed := hremoved text n hprune ▸ removed_pos_of_prune hprune
  obtain ⟨l', former', text', n', hfile', hprune', hget⟩ := get?_of_not_idle (not_idle_of_removed hdry hok hpos)
  cases hfile'.symm.trans hfile
  cases hprune'.symm.trans hprune
  exact hget

/-- What stands in the end at the place of the copy, if that is not the stylesheet itself. -/
theorem get?_copy_of_not_idle (hbusy : ¬Idle options (d.pruneFile usage options path).result)
    (hbackup : options.backup = true) (hcopy : d.locate (backupPath path options.backupSuffix) = .ok m)
    (hother : d.locate path ≠ .ok m) :
    ∃ l former text n, d.fileAt path = .ok (l, .text former) ∧ prune former usage = .changed text n ∧
      (d.pruneFile usage options path).directory.get? m = some (.file (.text former)) := by
  obtain ⟨l, former, text, n, report, hfile, hprune, -, -, -, hwrites⟩ := exists_of_not_idle hbusy
  obtain ⟨hnone, -⟩ | ⟨-, copy, hplace, hafter⟩ := hwrites
  · simp [hbackup] at hnone
  obtain rfl : copy = m := Except.ok.inj ((placeFor_eq_ok_iff.1 hplace).1.symm.trans hcopy)
  have hne : copy ≠ l := fun h => hother (h ▸ (fileAt_eq_ok_iff.1 hfile).1)
  refine ⟨l, former, text, n, hfile, hprune, ?_⟩
  rw [hafter, get?_put_of_ne hne, get?_put (accepts_of_placeFor hplace _), if_pos rfl]

/-- If the copy of one stylesheet is written over the other, and its report is the same in both orders, then there
stands its pruned text if the other was pruned last, and its former text if it was pruned last itself. -/
theorem get?_ne_of_copy {report report' : Report} (hbusy : ¬Idle options (d.pruneFile usage options p).result)
    (hbackup : options.backup = true) (hother : d.locate p ≠ d.locate q)
    (hcopy : d.locate (backupPath p options.backupSuffix) = d.locate q)
    (hp : (d.pruneFile usage options p).result = .ok report)
    (hp' : ((d.pruneFile usage options q).directory.pruneFile usage options p).result = .ok report)
    (hq : ((d.pruneFile usage options p).directory.pruneFile usage options q).result = .ok report') :
    ∃ m, ((d.pruneFile usage options p).directory.pruneFile usage options q).directory.get? m ≠
      ((d.pruneFile usage options q).directory.pruneFile usage options p).directory.get? m := by
  have hdry : options.dryRun = false := Bool.eq_false_iff.2 fun hdry => hbusy (.inr (.inr hdry))
  obtain ⟨-, -, -, -, -, -, -, -, -, -, ⟨hnone, -⟩ | ⟨-, m, hplace, -⟩⟩ := exists_of_not_idle hbusy
  · simp [hbackup] at hnone
  obtain ⟨hm, -⟩ := placeFor_eq_ok_iff.1 hplace
  have hqm : d.locate q = .ok m := hcopy ▸ hm
  have hpm : d.locate p ≠ .ok m := hqm ▸ hother
  have hframe := pruneFile_frame d usage options p
  have hframe' := pruneFile_frame d usage options q
  obtain ⟨l, former, text, n, hfile, hprune, hcopied⟩ := get?_copy_of_not_idle hbusy hbackup hm hpm
  -- the copy is pruned in its turn
  have hpruned := get?_of_report hq (fileAt_eq_ok_iff.2 ⟨hframe.locate.2 hqm, hcopied⟩) hprune hdry
  -- the stylesheet is copied last
  obtain ⟨k, t, hk, hsize, hremoved⟩ := exists_of_report hp
  cases hk.symm.trans hfile
  have hpos : 0 < report.removed := hremoved text n hprune ▸ removed_pos_of_prune hprune
  obtain ⟨l', former', -, -, hfile', -, hcopied'⟩ := get?_copy_of_not_idle (not_idle_of_removed hdry hp' hpos) hbackup
    (hframe'.locate.2 hm) (mt hframe'.locate.1 hpm)
  obtain ⟨k', t', hk', hsize', -⟩ := exists_of_report hp'
  cases hk'.symm.trans hfile'
  refine ⟨m, ?_⟩
  rw [hpruned, hcopied']
  intro heq
  obtain rfl : text = former' := by simpa using heq
  exact absurd (hsize'.symm.trans hsize) (Nat.ne_of_lt (byteLength_lt_of_prune hprune))

theorem length_pruneFiles (d : Directory) (usage : Usage) (options : Options) (paths : List Text) :
    (d.pruneFiles usage options paths).1.length = paths.length := by
  induction paths generalizing d with
  | nil => rfl
  | cons path rest ih => exact congrArg Nat.succ (ih _)

theorem Agree.symm {order paths : List Text} (h : Agree d usage options order paths) :
    Agree d usage options paths order :=
  ⟨h.1.symm, fun l => (h.2 l).symm⟩

theorem Agree.results {order paths : List Text} (h : Agree d usage options order paths) :
    (d.pruneFiles usage options order).1.Perm (d.pruneFiles usage options paths).1 := by
  have hsnd := h.1.map Prod.snd
  rwa [List.map_snd_zip (Nat.le_of_eq (length_pruneFiles d usage options order)),
    List.map_snd_zip (Nat.le_of_eq (length_pruneFiles d usage options paths))] at hsnd

/-- If two stylesheets can be pruned in either order, the second is not written to when the first is pruned. -/
theorem spares_of_agree (hne : p ≠ q) (hok : ∀ r ∈ (d.pruneFiles usage options [p, q]).1, r.isOk = true)
    (hagree : Agree d usage options [q, p] [p, q]) : Spares d usage options p q := by
  obtain ⟨hresults, hfiles⟩ := hagree
  simp only [pruneFiles, List.zip_cons_cons, List.zip_nil_right] at hresults hfiles hok
  have exists_report : ∀ {r : Except Failure Report}, r.isOk = true → ∃ report, r = .ok report := by
    rintro (failure | report) hr
    · cases hr
    · exact ⟨report, rfl⟩
  obtain ⟨report, hfirst⟩ := exists_report (hok _ (.head _))
  obtain ⟨report', hlater⟩ := exists_report (hok _ (.tail _ (.head _)))
  -- in the other order there are the same reports
  have hearlier : (d.pruneFile usage options q).result = .ok report' := by
    have hmem := hresults.mem_iff.1 (.head _)
    simpa [hne.symm, hlater] using hmem
  have hlast : ((d.pruneFile usage options q).directory.pruneFile usage options p).result = .ok report := by
    have hmem := hresults.mem_iff.1 (.tail _ (.head _))
    simpa [hne, hfirst] using hmem
  by_cases hidle : Idle options (d.pruneFile usage options p).result
  · exact .inl hidle
  have hother : d.locate p ≠ d.locate q := fun hsame => report_ne_of_same_file hidle hsame hlater hearlier
  refine .inr ⟨hother, fun hbackup hcopy => ?_⟩
  obtain ⟨m, hm⟩ := get?_ne_of_copy hidle hbackup hother hcopy hfirst hlast hlater
  exact hm (hfiles m).symm

end Cull.Directory
