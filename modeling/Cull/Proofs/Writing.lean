import Cull.Files.Directory
import Cull.Proofs.Pieces

/-!
# Reading after writing

Whether a path leads somewhere depends only on where directories stand, and
putting a file somewhere neither makes nor replaces one (`isDirectoryAt_put`). So
every path leads afterwards where it led before. A file can be written under a
path exactly if the path leads to a location at which there is no directory
(`placeFor_eq_ok_iff`): such a path ends in a name, because two dots lead from a
directory to a directory.
-/

namespace Cull

namespace Path

variable {p part : Text}

theorem isName_iff : isName part = true ↔ isIdle part = false ∧ part ≠ ['.', '.'] ∧ '/' ∉ part := by
  simp [isName, and_assoc]

theorem ne_nil_of_isName (h : isName part = true) : part ≠ [] := by
  rintro rfl
  cases h

/-- A name with something behind it is a name, if no slash is in it. -/
theorem isName_append {suffix : Text} (h : isName part = true) (hsuffix : '/' ∉ suffix) :
    isName (part ++ suffix) = true := by
  obtain ⟨hidle, hup, hslash⟩ := isName_iff.1 h
  have hdots : ∀ dots : Text, dots <+: ['.', '.'] → part ++ suffix ≠ dots := by
    rintro dots hdots rfl
    -- the part would be empty, one dot or two dots
    have hpart := (List.prefix_append part suffix).trans hdots
    simp only [List.prefix_cons_iff, List.prefix_nil] at hpart
    rcases hpart with rfl | ⟨t, rfl, rfl | ⟨t, rfl, rfl⟩⟩
    · cases hidle
    · cases hidle
    · exact hup rfl
  refine isName_iff.2 ⟨?_, hdots _ (List.prefix_refl _), by simp [hslash, hsuffix]⟩
  rw [isIdle, Bool.or_eq_false_iff, List.isEmpty_eq_false_iff, decide_eq_false_iff_not]
  exact ⟨hdots [] List.nil_prefix, hdots ['.'] (List.prefix_append ['.'] ['.'])⟩

/-- A part holds no slash. -/
theorem not_mem_of_mem_parts (h : part ∈ parts p) : '/' ∉ part := by
  intro hmem
  exact absurd (Text.sep_eq_false_of_mem_splitOn h '/' hmem) (by simp)

end Path

namespace Directory

variable {d d' : Directory} {l m k : Location} {p q : Text} {c : Content} {e : Entry}

/-! ### What stands where -/

theorem isDirectoryAt_nil (d : Directory) : d.isDirectoryAt [] = true := rfl

theorem isDirectoryAt_here (d : Directory) : d.isDirectoryAt d.here = true := isDirectoryAt_iff.2 d.placed

theorem isDirectoryAt_of_file (h : d.get? l = some (.file c)) : d.isDirectoryAt l = false := by
  simp [isDirectoryAt, h]

theorem ne_nil_of_isDirectoryAt (h : d.isDirectoryAt l = false) : l ≠ [] := by
  rintro rfl
  exact absurd h (by simp [isDirectoryAt_nil])

theorem mem_entries_of_get? (hl : l ≠ []) (h : d.get? l = some e) : (l, e) ∈ d.entries := by
  rw [get?, Listing.get?, if_neg (by simpa using hl), List.lookup_eq_some_iff] at h
  obtain ⟨before, after, heq, -⟩ := h
  rw [heq]
  simp

/-- What stands somewhere stands in a directory. -/
theorem isDirectoryAt_dropLast (h : d.get? l = some e) : d.isDirectoryAt l.dropLast = true := by
  by_cases hl : l = []
  · rw [hl]
    rfl
  · exact isDirectoryAt_iff.2 (d.grounded _ (mem_entries_of_get? hl h))

theorem get?_put (h : d.Accepts l e) (k : Location) : (d.put l e).get? k = if k = l then some e else d.get? k := by
  rw [put, dif_pos h]
  exact Listing.get?_put h.ne_nil k e d.entries

theorem here_put (d : Directory) (l : Location) (e : Entry) : (d.put l e).here = d.here := by
  rw [put]
  split <;> rfl

/-- Elsewhere there is what there was. -/
theorem get?_put_of_ne (hk : k ≠ l) (e : Entry) : (d.put l e).get? k = d.get? k := by
  by_cases h : d.Accepts l e
  · rw [get?_put h, if_neg hk]
  · rw [put, dif_neg h]

/-- A file that is put somewhere leaves all directories where they are. -/
theorem isDirectoryAt_put (d : Directory) (l : Location) (c : Content) (k : Location) :
    (d.put l (.file c)).isDirectoryAt k = d.isDirectoryAt k := by
  by_cases h : d.Accepts l (.file c)
  · by_cases hk : k = l
    · have hnone : d.isDirectoryAt l = false := Bool.eq_false_iff.2 fun hl => Entry.noConfusion (h.kept hl)
      rw [hk, hnone]
      exact isDirectoryAt_of_file (by rw [get?_put h, if_pos rfl])
    · rw [isDirectoryAt, get?_put_of_ne hk, isDirectoryAt]
  · rw [put, dif_neg h]

/-- Only the directories matter for what can be put where. -/
theorem accepts_congr (h : ∀ k, d'.isDirectoryAt k = d.isDirectoryAt k) (l : Location) (e : Entry) :
    d'.Accepts l e ↔ d.Accepts l e := by
  constructor
  · rintro ⟨hnamed, hgrounded, hkept⟩
    exact ⟨hnamed, h _ ▸ hgrounded, h _ ▸ hkept⟩
  · rintro ⟨hnamed, hgrounded, hkept⟩
    exact ⟨hnamed, (h _).symm ▸ hgrounded, (h _).symm ▸ hkept⟩

/-! ### Where paths lead -/

theorem step_name {part : Text} (h : Path.isName part = true) (l : Location) : step l part = l ++ [part] := by
  obtain ⟨hidle, hup, -⟩ := Path.isName_iff.1 h
  rw [step, hidle, if_neg Bool.false_ne_true, if_neg hup]

theorem follow_cons_eq_ok_iff {part : Text} {rest : List Text} :
    d.follow l (part :: rest) = .ok m ↔ d.isDirectoryAt l = true ∧ d.follow (step l part) rest = .ok m := by
  rw [follow, isDirectoryAt_iff]
  split
  · next h => simp [h]
  · next h => simp [h]
  · next h => simp [h]

theorem follow_append_eq_ok_iff {front rest : List Text} :
    d.follow l (front ++ rest) = .ok m ↔ ∃ k, d.follow l front = .ok k ∧ d.follow k rest = .ok m := by
  induction front generalizing l with
  | nil => simp [follow]
  | cons part front ih =>
    rw [List.cons_append, follow_cons_eq_ok_iff, ih]
    simp only [follow_cons_eq_ok_iff, and_assoc, exists_and_left]

/-- Only the directories matter for where parts lead. -/
theorem follow_eq_ok_congr (h : ∀ k, d'.isDirectoryAt k = d.isDirectoryAt k) {parts : List Text} :
    d'.follow l parts = .ok m ↔ d.follow l parts = .ok m := by
  induction parts generalizing l with
  | nil => rfl
  | cons part rest ih => rw [follow_cons_eq_ok_iff, follow_cons_eq_ok_iff, h, ih]

theorem locate_eq_ok_iff : d.locate p = .ok l ↔ p ≠ [] ∧ d.follow (d.start p) (Path.parts p) = .ok l := by
  rw [locate]
  split
  · next h => simp [List.isEmpty_iff.1 h]
  · next h => rw [and_iff_right (by simpa using h)]

theorem locate_eq_ok_congr (h : ∀ k, d'.isDirectoryAt k = d.isDirectoryAt k) (hhere : d'.here = d.here) :
    d'.locate p = .ok l ↔ d.locate p = .ok l := by
  rw [locate_eq_ok_iff, locate_eq_ok_iff, follow_eq_ok_congr h, start, hhere, start]

/-- A path that does not lead to a directory ends in a name, and what stands before leads to the
directory in which that name stands. -/
theorem exists_name_of_locate (h : d.locate p = .ok l) (hl : d.isDirectoryAt l = false) {front : List Text}
    {name : Text} (hparts : Path.parts p = front ++ [name]) :
    Path.isName name = true ∧ ∃ k, d.follow (d.start p) front = .ok k ∧ d.isDirectoryAt k = true ∧ l = k ++ [name] := by
  obtain ⟨-, hfollow⟩ := locate_eq_ok_iff.1 h
  rw [hparts] at hfollow
  obtain ⟨k, hk, hlast⟩ := follow_append_eq_ok_iff.1 hfollow
  obtain ⟨hdir, hstep⟩ := follow_cons_eq_ok_iff.1 hlast
  obtain rfl : step k name = l := Except.ok.inj hstep
  have hslash : '/' ∉ name := Path.not_mem_of_mem_parts (p := p) (by simp [hparts])
  -- with any other part the path would lead to a directory
  have hidle : Path.isIdle name = false := by
    refine Bool.eq_false_iff.2 fun hidle => ?_
    rw [step, if_pos hidle, hdir] at hl
    cases hl
  have hup : name ≠ ['.', '.'] := by
    intro hup
    rw [step, hidle, if_neg Bool.false_ne_true, if_pos hup, isDirectoryAt_dropLast (isDirectoryAt_iff.1 hdir)] at hl
    cases hl
  have hname := Path.isName_iff.2 ⟨hidle, hup, hslash⟩
  exact ⟨hname, k, hk, hdir, step_name hname k⟩

/-! ### Where a file can be written -/

theorem parts_eq_concat (p : Text) : ∃ front name, Path.parts p = front ++ [name] :=
  ⟨_, _, (List.dropLast_concat_getLast (Text.splitOn_ne_nil (· = '/') p)).symm⟩

/-- A file is written to where its path leads. -/
theorem locate_of_target (h : d.target p = .ok l) : d.locate p = .ok l := by
  unfold target at h
  dsimp only at h
  split at h
  · exact h
  · next name above hdrop =>
    split at h
    · exact h
    · next hdots =>
      have hname : name.isEmpty = false := by
        have hfirst := List.head?_dropWhile_not List.isEmpty (Path.parts p).reverse
        rwa [hdrop] at hfirst
      cases hfollow : d.follow (d.start p) above.reverse with
      | error fault => simp [hfollow, bind, Except.bind] at h
      | ok k =>
        simp only [hfollow, bind, Except.bind] at h
        split at h
        · cases h
        · cases h
        · next hk =>
          split at h
          · next hlast =>
            -- nothing was dropped behind the name, so it is the last part of the path
            have hparts : Path.parts p = above.reverse ++ [name] := by
              obtain ⟨rest, hrest⟩ := List.head?_eq_some_iff.1 hlast
              rw [hrest, List.dropWhile_cons_of_neg (by simp [hname])] at hdrop
              rw [← List.reverse_reverse (Path.parts p), hrest, hdrop, List.reverse_cons]
            have hstep : step k name = k ++ [name] := by
              simp only [Bool.or_eq_true, decide_eq_true_eq, not_or] at hdots
              rw [step, Path.isIdle, hname, if_neg (by simp [hdots.1]), if_neg hdots.2]
            have hnil : p ≠ [] := by
              rintro rfl
              cases hdrop
            rw [locate_eq_ok_iff, hparts]
            refine ⟨hnil, follow_append_eq_ok_iff.2 ⟨k, hfollow, ?_⟩⟩
            exact follow_cons_eq_ok_iff.2 ⟨isDirectoryAt_iff.2 hk, hstep ▸ h⟩
          · cases h

/-- A path that ends in a name is written where that name stands. -/
theorem target_of_name {front : List Text} {name : Text} (hparts : Path.parts p = front ++ [name])
    (hname : Path.isName name = true) (hfront : d.follow (d.start p) front = .ok k) (hk : d.isDirectoryAt k = true) :
    d.target p = .ok (k ++ [name]) := by
  obtain ⟨hidle, hup, -⟩ := Path.isName_iff.1 hname
  obtain ⟨hempty, hdot⟩ : name.isEmpty = false ∧ name ≠ ['.'] := by simpa [Path.isIdle] using hidle
  have hreverse : (Path.parts p).reverse = name :: front.reverse := by simp [hparts]
  simp [target, hreverse, hempty, hdot, hup, hfront, isDirectoryAt_iff.1 hk, bind, Except.bind]

/-- Where there is no directory at the end of a path, a file can be written under it. -/
theorem target_of_locate (h : d.locate p = .ok l) (hl : d.isDirectoryAt l = false) : d.target p = .ok l := by
  obtain ⟨front, name, hparts⟩ := parts_eq_concat p
  obtain ⟨hname, k, hk, hdir, rfl⟩ := exists_name_of_locate h hl hparts
  exact target_of_name hparts hname hk hdir

/-- The location at which a file can be written under a path. -/
def placeFor (d : Directory) (path : Text) : Except Fault Location := do
  let l ← d.target path
  if d.isDirectoryAt l then .error .isDirectory else .ok l

theorem placeFor_eq_ok_iff : d.placeFor p = .ok l ↔ d.locate p = .ok l ∧ d.isDirectoryAt l = false := by
  constructor
  · intro h
    unfold placeFor at h
    cases htarget : d.target p with
    | error fault => simp [htarget, bind, Except.bind] at h
    | ok k =>
      simp only [htarget, bind, Except.bind] at h
      split at h
      · cases h
      · next hdir =>
        cases h
        exact ⟨locate_of_target htarget, by simpa using hdir⟩
  · rintro ⟨hl, hdir⟩
    simp [placeFor, target_of_locate hl hdir, hdir, bind, Except.bind]

/-- What can be written under a path can be put where the path leads. -/
theorem accepts_of_placeFor (h : d.placeFor p = .ok l) (c : Content) : d.Accepts l (.file c) := by
  obtain ⟨hl, hdir⟩ := placeFor_eq_ok_iff.1 h
  obtain ⟨front, name, hparts⟩ := parts_eq_concat p
  obtain ⟨hname, k, -, hk, rfl⟩ := exists_name_of_locate hl hdir hparts
  refine ⟨by simpa using hname, by simpa using hk, fun htrue => ?_⟩
  rw [hdir] at htrue
  cases htrue

theorem write_eq (d : Directory) (p : Text) (c : Content) :
    d.write p c = (d.placeFor p).map fun l => d.put l (.file c) := by
  unfold write placeFor
  cases d.target p with
  | error fault => rfl
  | ok l =>
    simp only [bind, Except.bind]
    split <;> rfl

theorem read_eq_ok_iff : d.read p = .ok c ↔ ∃ l, d.locate p = .ok l ∧ d.get? l = some (.file c) := by
  unfold read
  cases hlocate : d.locate p with
  | error fault => simp [bind, Except.bind]
  | ok l =>
    simp only [bind, Except.bind, Except.ok.injEq, exists_eq_left']
    split <;> simp_all

end Directory

end Cull
