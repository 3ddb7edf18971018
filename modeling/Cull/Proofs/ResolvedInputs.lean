import Cull.Proofs.Independence
import Cull.Proofs.WalkRoot
import Mathlib.Data.List.Induction

/-!
# Resolved inputs

Inputs are resolved one after the other, and of all spellings of a path the first that comes up is
kept. So resolving more inputs adds to the paths that were found those of the new inputs that are
not there yet, and leaves the rest as it is (`addNew_eq`). Every path leads to a file: a path that is
given has been looked up, and the search for the files of a pattern puts the names on its way
together (`exists_file_of_mem_standsFor`). Nothing but a pattern that is no glob makes it fail, and
of several such patterns the first is reported.
-/

namespace Cull

namespace Path

variable {p q r : Text}

theorem same_iff : same p q = true ↔ components p = components q := by
  simp [same]

theorem dropIdle_suffix (names : List Text) : dropIdle names <:+ names := by
  induction names with
  | nil => exact List.suffix_refl _
  | cons name names ih =>
    rw [dropIdle]
    split
    · exact ih.trans (List.suffix_cons name names)
    · exact List.suffix_refl _

theorem isIdle_head_dropIdle {names rest : List Text} {name : Text} (h : dropIdle names = name :: rest) :
    isIdle name = false := by
  induction names with
  | nil => cases h
  | cons first names ih =>
    rw [dropIdle] at h
    split at h
    · exact ih h
    · next hidle =>
      obtain ⟨rfl, -⟩ := List.cons.inj h
      exact Bool.eq_false_iff.2 hidle

end Path

namespace Directory

variable {d : Directory} {l m : Location} {p q r : Text}

/-! ### The files that a search finds -/

theorem follow_dropIdle (hl : d.isDirectoryAt l = true) (names : List Text) :
    d.follow l (Path.dropIdle names) = d.follow l names := by
  induction names with
  | nil => rfl
  | cons name names ih =>
    rw [Path.dropIdle]
    split
    · next hidle => rw [ih, follow, isDirectoryAt_iff.1 hl, step, if_pos hidle]
    · rfl

/-- Where a dot in front is taken off a path, the path still leads to the same file. -/
theorem locate_withoutDot {c : Content} (hp : d.locate p = .ok l) (hl : d.get? l = some (.file c)) :
    d.locate (Path.withoutDot p) = .ok l := by
  obtain ⟨first, rest, hparts⟩ := Path.parts_cons p
  by_cases hdot : first = ['.']
  · subst hdot
    have hrest : d.follow d.here (Path.dropIdle rest) = .ok l := by
      obtain ⟨-, hfollow⟩ := locate_eq_ok_iff.1 hp
      rw [start_of_parts hparts (by simp), hparts] at hfollow
      rw [follow_dropIdle d.isDirectoryAt_here]
      exact (follow_cons_eq_ok_iff.1 hfollow).2
    have hpath : Path.withoutDot p = ['/'].intercalate (Path.dropIdle rest) := by
      unfold Path.withoutDot
      rw [hparts]
      rfl
    cases hnames : Path.dropIdle rest with
    | nil =>
      -- the path leads to the working directory, which is no file
      rw [hnames] at hrest
      obtain rfl := Except.ok.inj hrest
      cases hl.symm.trans d.placed
    | cons name names =>
      have hslash : ∀ part ∈ name :: names, '/' ∉ part := by
        intro part hpart
        have hmem : part ∈ rest := (Path.dropIdle_suffix rest).subset (hnames ▸ hpart)
        exact Path.not_mem_of_mem_parts (hparts ▸ List.mem_cons_of_mem _ hmem)
      have hwithout := Path.parts_intercalate (List.cons_ne_nil name names) hslash
      have hname : name ≠ [] := by
        rintro rfl
        exact absurd (Path.isIdle_head_dropIdle hnames) (by simp [Path.isIdle])
      rw [hnames] at hrest hpath
      rw [hpath, locate_eq_ok_iff, start_of_parts hwithout hname, hwithout]
      exact ⟨((Path.first_ne_nil_iff hwithout).1 hname).1, hrest⟩
  · rwa [Path.withoutDot_of_name hparts hdot]

/-- Visible names lead to a file. -/
theorem Visible.follow {names : List Text} (h : d.Visible l names) (hl : d.isDirectoryAt l = true) :
    ∃ c, d.follow l names = .ok (l ++ names) ∧ d.get? (l ++ names) = some (.file c) := by
  induction h with
  | @file l name c hname _ hfile =>
    refine ⟨c, ?_, hfile⟩
    rw [follow_name hl (isName_of_mem_names hname)]
    rfl
  | @deeper l name rest hname _ hdir _ ih =>
    obtain ⟨c, hfollow, hfile⟩ := ih hdir
    rw [List.append_assoc, List.singleton_append] at hfollow hfile
    exact ⟨c, by rw [follow_name hl (isName_of_mem_names hname), hfollow], hfile⟩

/-- What stands in a directory begins where the path of the directory begins. -/
theorem start_join (hr : r ≠ []) (y : Text) : d.start (Path.join r y) = d.start r := by
  obtain ⟨c, r, rfl⟩ := List.exists_cons_of_ne_nil hr
  unfold Path.join
  split <;> rfl

/-- Every path that a search finds leads to a file. -/
theorem exists_file_of_mem_filesUnder (h : q ∈ d.filesUnder r) :
    ∃ l c, d.locate q = .ok l ∧ d.get? l = some (.file c) := by
  cases hr : d.locate r with
  | error fault =>
    rw [filesUnder, hr] at h
    cases h
  | ok l =>
    by_cases hdir : d.isDirectoryAt l = true
    · obtain ⟨names, hnames, rfl⟩ := (mem_filesUnder_of_locate hr hdir).1 h
      obtain ⟨c, hfollow, hfile⟩ := hnames.follow hdir
      obtain ⟨hne, -⟩ := locate_eq_ok_iff.1 hr
      -- the path is that of the directory, a slash and the names
      obtain ⟨x, hx, hrx⟩ := Path.exists_slash_join r
      have hlead := (locate_eq_ok_iff_of_join hrx hne hdir).1 hr
      refine ⟨l ++ names, c, ?_, hfile⟩
      rw [locate_eq_ok_iff, start_join hne, Path.parts_join hx, hnames.parts_eq]
      exact ⟨(Path.prefix_join r _).ne_nil hne, follow_append_eq_ok_iff.2 ⟨l, hlead, hfollow⟩⟩
    · rw [filesUnder, hr] at h
      dsimp only at h
      split at h
      · cases h
      · next c hget =>
        obtain rfl := List.mem_singleton.1 h
        exact ⟨l, c, hr, hget⟩
      · next hget => exact absurd (isDirectoryAt_iff.2 hget) hdir

/-! ### New paths -/

section

variable {found paths : List Text}

theorem addNew_append (found paths more : List Text) :
    addNew found (paths ++ more) = addNew (addNew found paths) more := by
  rw [addNew, List.foldl_append]
  rfl

theorem addNew_cons (found : List Text) (p : Text) (paths : List Text) :
    addNew found (p :: paths) = addNew (if found.any (Path.same p) then found else found ++ [p]) paths := rfl

theorem addNew_singleton (found : List Text) (p : Text) :
    addNew found [p] = if found.any (Path.same p) then found else found ++ [p] := rfl

theorem any_same_iff : found.any (Path.same p) = true ↔ ∃ q ∈ found, Path.components p = Path.components q := by
  simp [Path.same_iff]

/-- A path that is not there in any spelling. -/
theorem any_same_eq_false_iff :
    found.any (Path.same p) = false ↔ ∀ q ∈ found, Path.components p ≠ Path.components q := by
  rw [Bool.eq_false_iff, ne_eq, any_same_iff]
  simp

/-- Leaving out paths that are there does not leave out one that is not. -/
theorem any_same_filter (hp : found.any (Path.same p) = false) :
    (paths.filter fun q => !found.any (Path.same q)).any (Path.same p) = paths.any (Path.same p) := by
  rw [Bool.eq_iff_iff, any_same_iff, any_same_iff]
  constructor
  · rintro ⟨q, hq, hsame⟩
    exact ⟨q, (List.mem_filter.1 hq).1, hsame⟩
  · rintro ⟨q, hq, hsame⟩
    have hnew : found.any (Path.same q) = false := by
      rw [any_same_eq_false_iff] at hp ⊢
      rwa [← hsame]
    exact ⟨q, List.mem_filter.2 ⟨hq, by rw [hnew]; rfl⟩, hsame⟩

/-- What is added to the paths that have been found is what would be found without them, less what is there in some
spelling. -/
theorem addNew_eq (found paths : List Text) :
    addNew found paths = found ++ (addNew [] paths).filter fun p => !found.any (Path.same p) := by
  -- the induction is on the last path, because the paths are added from the front
  induction paths using List.reverseRecOn with
  | nil => exact (List.append_nil found).symm
  | append_singleton paths p ih =>
    rw [addNew_append, addNew_append, addNew_singleton, addNew_singleton, ih, List.any_append]
    cases hp : found.any (Path.same p) with
    | true =>
      rw [Bool.true_or, if_pos rfl]
      split
      · rfl
      · rw [List.filter_append, List.filter_cons_of_neg (by simp [hp]), List.filter_nil, List.append_nil]
    | false =>
      rw [Bool.false_or, any_same_filter hp]
      split
      · rfl
      · rw [List.filter_append, List.filter_cons_of_pos (by simp [hp]), List.filter_nil, List.append_assoc]

/-- No path is there in two spellings. -/
theorem pairwise_addNew (h : found.Pairwise fun p q => Path.components p ≠ Path.components q) (paths : List Text) :
    (addNew found paths).Pairwise fun p q => Path.components p ≠ Path.components q := by
  induction paths generalizing found with
  | nil => exact h
  | cons p paths ih =>
    rw [addNew_cons]
    refine ih ?_
    split
    · exact h
    · next hp =>
      rw [Bool.not_eq_true, any_same_eq_false_iff] at hp
      refine List.pairwise_append.2 ⟨h, List.pairwise_singleton _ _, fun q hq r hr => ?_⟩
      rw [List.mem_singleton.1 hr]
      exact (hp q hq).symm

theorem mem_or_mem_of_mem_addNew (h : p ∈ addNew found paths) : p ∈ found ∨ p ∈ paths := by
  induction paths generalizing found with
  | nil => exact .inl h
  | cons q paths ih =>
    rw [addNew_cons] at h
    rcases ih h with h | h
    · split at h
      · exact .inl h
      · rcases List.mem_append.1 h with h | h
        · exact .inl h
        · exact .inr (List.mem_singleton.1 h ▸ .head _)
    · exact .inr (.tail _ h)

/-- What has been found stays. -/
theorem prefix_addNew (found paths : List Text) : found <+: addNew found paths := by
  rw [addNew_eq]
  exact List.prefix_append _ _

/-- Every path is there in some spelling once it has been added. -/
theorem exists_same_of_mem (h : p ∈ paths) : ∃ q ∈ addNew found paths, Path.components p = Path.components q := by
  obtain ⟨front, back, rfl⟩ := List.append_of_mem h
  rw [addNew_append, ← List.singleton_append, addNew_append]
  have hthere : ∃ q ∈ addNew (addNew found front) [p], Path.components p = Path.components q := by
    rw [addNew_singleton]
    split
    · next hsame => exact any_same_iff.1 hsame
    · exact ⟨p, by simp, rfl⟩
  obtain ⟨q, hq, hsame⟩ := hthere
  exact ⟨q, (prefix_addNew _ back).subset hq, hsame⟩

end

end Directory

/-! ### Resolving -/

/-- The input is a pattern, but no glob. -/
def Glob.Faulty (input : Text) (fault : Malformed) : Prop := isPattern input = true ∧ parse input = .error fault

namespace Directory

variable {d : Directory} {input p : Text} {inputs ps qs found more : List Text}

/-- The paths that an input stands for, if it is not faulty. -/
def standsFor (d : Directory) (input : Text) : List Text :=
  match d.matching input with
  | .ok (paths, _) => paths
  | .error _ => []

theorem matching_of_faulty {fault : Glob.Malformed} (h : Glob.Faulty input fault) :
    d.matching input = .error (.glob input fault) := by
  rw [matching, if_pos h.1, expand, h.2]
  rfl

theorem matching_of_not_faulty (h : ∀ fault, ¬Glob.Faulty input fault) :
    ∃ log, d.matching input = .ok (d.standsFor input, log) := by
  have hok : ∃ result, d.matching input = .ok result := by
    rw [matching]
    split
    · next hpattern =>
      cases hparse : Glob.parse input with
      | error fault => exact absurd ⟨hpattern, hparse⟩ (h fault)
      | ok glob =>
        obtain ⟨paths, hpaths, -⟩ := d.expand_eq_ok hparse
        rw [hpaths]
        exact ⟨_, rfl⟩
    · split <;> exact ⟨_, rfl⟩
  obtain ⟨⟨paths, log⟩, hresult⟩ := hok
  exact ⟨log, by rw [standsFor, hresult]⟩

theorem standsFor_of_path (h : Glob.isPattern input = false) :
    d.standsFor input = if d.isFile input then [input] else [] := by
  rw [standsFor, matching, if_neg (by simp [h])]
  cases d.isFile input with
  | true => rfl
  | false => rfl

theorem mem_standsFor_of_pattern {glob : Glob} (h : Glob.isPattern input = true)
    (hparse : Glob.parse input = .ok glob) : p ∈ d.standsFor input ↔
      p ∈ (d.filesUnder (Glob.root input)).map Path.withoutDot ∧ glob.accepts false p = true := by
  obtain ⟨paths, hpaths, hmem⟩ := d.expand_eq_ok hparse
  rw [standsFor, matching, if_pos h, hpaths, ← hmem]
  rfl

/-- Every path that an input stands for leads to a file. -/
theorem exists_file_of_mem_standsFor (h : p ∈ d.standsFor input) :
    ∃ l content, d.locate p = .ok l ∧ d.get? l = some (.file content) := by
  cases hpattern : Glob.isPattern input with
  | false =>
    rw [standsFor_of_path hpattern] at h
    split at h
    · next hfile =>
      obtain rfl := List.mem_singleton.1 h
      obtain ⟨l, content, hfileAt⟩ := exists_fileAt_of_isFile hfile
      exact ⟨l, content, fileAt_eq_ok_iff.1 hfileAt⟩
    · cases h
  | true =>
    cases hparse : Glob.parse input with
    | error fault =>
      rw [standsFor, matching_of_faulty ⟨hpattern, hparse⟩] at h
      cases h
    | ok glob =>
      obtain ⟨q, hq, rfl⟩ := List.mem_map.1 ((mem_standsFor_of_pattern hpattern hparse).1 h).1
      obtain ⟨l, content, hlocate, hfile⟩ := exists_file_of_mem_filesUnder hq
      exact ⟨l, content, locate_withoutDot hlocate hfile, hfile⟩

/-- Inputs that are not faulty are resolved one after the other. -/
theorem resolveFrom_of_not_faulty (h : ∀ input ∈ inputs, ∀ fault, ¬Glob.Faulty input fault) :
    (d.resolveFrom found inputs).1 = .ok (addNew found (inputs.flatMap d.standsFor)) := by
  induction inputs generalizing found with
  | nil => rfl
  | cons input inputs ih =>
    obtain ⟨hinput, hinputs⟩ := List.forall_mem_cons.1 h
    obtain ⟨log, hmatching⟩ := d.matching_of_not_faulty hinput
    rw [resolveFrom, hmatching, List.flatMap_cons, addNew_append]
    exact ih hinputs

/-- The first faulty input is reported. -/
theorem resolveFrom_of_faulty {before after : List Text} {fault : Glob.Malformed}
    (hbefore : ∀ input ∈ before, ∀ fault, ¬Glob.Faulty input fault) (h : Glob.Faulty input fault) :
    (d.resolveFrom found (before ++ input :: after)).1 = .error (.glob input fault) := by
  induction before generalizing found with
  | nil => rw [List.nil_append, resolveFrom, matching_of_faulty h]
  | cons first before ih =>
    obtain ⟨hfirst, hbefore⟩ := List.forall_mem_cons.1 hbefore
    obtain ⟨log, hmatching⟩ := d.matching_of_not_faulty hfirst
    rw [List.cons_append, resolveFrom, hmatching]
    exact ih hbefore

theorem exists_first_faulty (inputs : List Text) : (∀ input ∈ inputs, ∀ fault, ¬Glob.Faulty input fault) ∨
    ∃ before input after fault, inputs = before ++ input :: after ∧
      (∀ input ∈ before, ∀ fault, ¬Glob.Faulty input fault) ∧ Glob.Faulty input fault := by
  induction inputs with
  | nil => exact .inl (by simp)
  | cons first inputs ih =>
    by_cases hfirst : ∃ fault, Glob.Faulty first fault
    · obtain ⟨fault, hfault⟩ := hfirst
      exact .inr ⟨[], first, inputs, fault, rfl, by simp, hfault⟩
    · have hfirst := not_exists.1 hfirst
      rcases ih with hall | ⟨before, input, after, fault, rfl, hbefore, hfault⟩
      · exact .inl (List.forall_mem_cons.2 ⟨hfirst, hall⟩)
      · exact .inr ⟨first :: before, input, after, fault, rfl, List.forall_mem_cons.2 ⟨hfirst, hbefore⟩, hfault⟩

theorem resolve_eq_ok_iff : (d.resolve inputs).1 = .ok found ↔
    (∀ input ∈ inputs, ∀ fault, ¬Glob.Faulty input fault) ∧ found = addNew [] (inputs.flatMap d.standsFor) := by
  rcases exists_first_faulty inputs with hall | ⟨before, input, after, fault, rfl, hbefore, hfault⟩
  · rw [resolve, resolveFrom_of_not_faulty hall, Except.ok.injEq, eq_comm, and_iff_right hall]
  · rw [resolve, resolveFrom_of_faulty hbefore hfault]
    refine iff_of_false (by simp) fun h => ?_
    exact h.1 input (by simp) fault hfault

theorem resolve_eq_error_iff {failure : Failure} : (d.resolve inputs).1 = .error failure ↔
    ∃ before input after fault, inputs = before ++ input :: after ∧
      (∀ input ∈ before, ∀ fault, ¬Glob.Faulty input fault) ∧ Glob.Faulty input fault ∧
      failure = .glob input fault := by
  constructor
  · intro h
    rcases exists_first_faulty inputs with hall | ⟨before, input, after, fault, rfl, hbefore, hfault⟩
    · rw [resolve, resolveFrom_of_not_faulty hall] at h
      cases h
    · rw [resolve, resolveFrom_of_faulty hbefore hfault] at h
      exact ⟨before, input, after, fault, rfl, hbefore, hfault, (Except.error.inj h).symm⟩
  · rintro ⟨before, input, after, fault, rfl, hbefore, hfault, rfl⟩
    exact resolveFrom_of_faulty hbefore hfault

/-- Inputs resolve to the files that they stand for, each once and in the order in which they come up.
More inputs add the paths that are not there in any spelling. Every path leads to a file, no two paths have
the same components, and every path that an input stands for is there in some spelling. Resolving fails
exactly if a pattern is no glob, and reports the first one that is not. -/
theorem inputs_resolve_in_order (d : Directory) :
    (∀ ps qs found more, (d.resolve ps).1 = .ok found → (d.resolve qs).1 = .ok more →
      (d.resolve (ps ++ qs)).1 = .ok (found ++ more.filter fun q => !found.any (Path.same q))) ∧
    (∀ ps found, (d.resolve ps).1 = .ok found →
      (∀ p ∈ found, ∃ l content, d.locate p = .ok l ∧ d.get? l = some (.file content)) ∧
      found.Pairwise (fun p q => Path.components p ≠ Path.components q) ∧
      (∀ p ∈ found, ∃ input ∈ ps, p ∈ d.standsFor input) ∧
      ∀ input ∈ ps, ∀ p ∈ d.standsFor input, ∃ q ∈ found, Path.components p = Path.components q) ∧
    ∀ ps failure, (d.resolve ps).1 = .error failure ↔
      ∃ before input after fault, ps = before ++ input :: after ∧
        (∀ input ∈ before, ∀ fault, ¬Glob.Faulty input fault) ∧ Glob.Faulty input fault ∧
        failure = .glob input fault := by
  refine ⟨fun ps qs found more hps hqs => ?_, fun ps found hps => ?_, fun ps failure => resolve_eq_error_iff⟩
  · obtain ⟨hfirst, rfl⟩ := resolve_eq_ok_iff.1 hps
    obtain ⟨hsecond, rfl⟩ := resolve_eq_ok_iff.1 hqs
    refine resolve_eq_ok_iff.2 ⟨List.forall_mem_append.2 ⟨hfirst, hsecond⟩, ?_⟩
    rw [List.flatMap_append, addNew_append, ← addNew_eq]
  · obtain ⟨-, rfl⟩ := resolve_eq_ok_iff.1 hps
    have hfrom : ∀ p ∈ addNew [] (ps.flatMap d.standsFor), ∃ input ∈ ps, p ∈ d.standsFor input := by
      intro p hp
      rcases mem_or_mem_of_mem_addNew hp with hp | hp
      · cases hp
      · exact List.mem_flatMap.1 hp
    refine ⟨fun p hp => ?_, pairwise_addNew .nil _, hfrom, fun input hinput p hp => ?_⟩
    · obtain ⟨input, -, hp⟩ := hfrom p hp
      exact exists_file_of_mem_standsFor hp
    · exact exists_same_of_mem (List.mem_flatMap.2 ⟨input, hinput, hp⟩)

/-- A working directory with a file in it and another one a level below. -/
def shelf : Directory :=
  (empty.enter ["w".toList]).fill
    [(["w".toList, "b.css".toList], .file (.text [])), (["w".toList, "css".toList], .directory),
      (["w".toList, "css".toList, "a.css".toList], .file (.text []))]

/-- Inputs that come up twice, in two spellings, one that is missing, and a pattern from the root on; behind a pattern
that is no glob nothing is looked at. -/
theorem inputs_resolve_in_order_shelf :
    (shelf.resolve ["b.css".toList, "css//a.css".toList]).1 = .ok ["b.css".toList, "css//a.css".toList] ∧
      (shelf.resolve ["./c?s/*".toList, "css/*".toList, "c.css".toList, "/w/css/*.css".toList, "b.css".toList]).1 =
        .ok ["css/a.css".toList, "/w/css/a.css".toList, "b.css".toList] ∧
      (shelf.resolve (["b.css".toList, "css//a.css".toList] ++
        ["./c?s/*".toList, "css/*".toList, "c.css".toList, "/w/css/*.css".toList, "b.css".toList])).1 =
          .ok ["b.css".toList, "css//a.css".toList, "/w/css/a.css".toList] ∧
      (∃ l content, shelf.locate "/w/css/a.css".toList = .ok l ∧ shelf.get? l = some (.file content)) ∧
      (shelf.resolve ["b.css".toList, "[a".toList, "\x7b".toList]).1 = .error (.glob "[a".toList .unclosedClass) := by
  have hfirst : (shelf.resolve ["b.css".toList, "css//a.css".toList]).1 =
      .ok ["b.css".toList, "css//a.css".toList] := by decide +kernel
  have hsecond :
      (shelf.resolve ["./c?s/*".toList, "css/*".toList, "c.css".toList, "/w/css/*.css".toList, "b.css".toList]).1 =
        .ok ["css/a.css".toList, "/w/css/a.css".toList, "b.css".toList] := by decide +kernel
  obtain ⟨happend, hfound, hfails⟩ := inputs_resolve_in_order shelf
  refine ⟨hfirst, hsecond, ?_, (hfound _ _ hsecond).1 _ (by decide), ?_⟩
  · exact happend _ _ _ _ hfirst hsecond
  · refine (hfails _ _).2 ⟨["b.css".toList], _, ["\x7b".toList], _, rfl, ?_, ⟨rfl, rfl⟩, rfl⟩
    rintro input hinput fault ⟨hpattern, -⟩
    obtain rfl := List.mem_singleton.1 hinput
    exact absurd hpattern (by decide)

end Directory

end Cull
