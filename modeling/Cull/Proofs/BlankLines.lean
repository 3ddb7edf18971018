import Cull.Pruning.Cut

/-!
# Blank lines, character by character

`Pruned.collapseBlankLines` searches for a pattern and replaces its matches.
`squeeze` says the same one character at a time: a character is left out if it
stands strictly between the first and the last newline of a run of blanks that
holds at least three (`collapseBlankLines_eq_squeeze`). What stands around a
piece of text matters only through two numbers, the newlines of the run of blanks
that the piece begins in and of the run that it ends in, so that `squeeze` can be
taken apart at any place (`squeeze_append`).
-/

namespace Cull.Text

/-! ### Newlines in a run of blanks -/

/-- One for a newline, nothing for any other character. -/
def newline (c : Char) : Nat := if c = '\n' then 1 else 0

/-- The newlines of the run of blanks that a text begins with, if `j` more follow behind the text. -/
def newlinesAhead (j : Nat) : Text → Nat
  | [] => j
  | c :: t => if isBlank c then newline c + newlinesAhead j t else 0

/-- The newlines of a run of blanks, one character later. -/
def runAfter (k : Nat) (c : Char) : Nat := if isBlank c then k + newline c else 0

/-- The newlines of the run of blanks that a text ends with, if `k` more stand in front of the text. -/
def newlinesBehind (k : Nat) (t : Text) : Nat := t.foldl runAfter k

@[simp]
theorem newlinesAhead_nil (j : Nat) : newlinesAhead j [] = j := rfl

theorem newlinesAhead_blank {c : Char} (hc : isBlank c = true) (j : Nat) (t : Text) :
    newlinesAhead j (c :: t) = newline c + newlinesAhead j t := by
  rw [newlinesAhead, if_pos hc]

theorem newlinesAhead_solid {c : Char} (hc : isBlank c = false) (j : Nat) (t : Text) :
    newlinesAhead j (c :: t) = 0 := by
  rw [newlinesAhead, if_neg (by simp [hc])]

theorem newlinesAhead_append (j : Nat) (x y : Text) :
    newlinesAhead j (x ++ y) = newlinesAhead (newlinesAhead j y) x := by
  induction x with
  | nil => rfl
  | cons c x ih => simp only [List.cons_append, newlinesAhead, ih]

@[simp]
theorem newlinesBehind_nil (k : Nat) : newlinesBehind k [] = k := rfl

@[simp]
theorem newlinesBehind_cons (k : Nat) (c : Char) (t : Text) :
    newlinesBehind k (c :: t) = newlinesBehind (runAfter k c) t := by
  rw [newlinesBehind, List.foldl_cons, ← newlinesBehind]

theorem newlinesBehind_append (k : Nat) (x y : Text) :
    newlinesBehind k (x ++ y) = newlinesBehind (newlinesBehind k x) y :=
  List.foldl_append

theorem runAfter_blank {c : Char} (hc : isBlank c = true) (k : Nat) : runAfter k c = k + newline c := by
  rw [runAfter, if_pos hc]

theorem runAfter_solid {c : Char} (hc : isBlank c = false) (k : Nat) : runAfter k c = 0 := by
  rw [runAfter, if_neg (by simp [hc])]

theorem newline_le_one (c : Char) : newline c ≤ 1 := by
  unfold newline
  split
  · exact Nat.le_refl 1
  · exact Nat.zero_le 1

theorem newline_eq_zero {c : Char} (hc : c ≠ '\n') : newline c = 0 := if_neg hc

/-! ### Characters that are left out -/

/-- A character with `k` newlines before it and `j` behind it in its run of blanks stands between
the first and the last of at least three. -/
def isSpare (k j : Nat) (c : Char) : Bool := isBlank c && 1 ≤ k && 1 ≤ j && 3 ≤ k + newline c + j

/-- The text without its spare characters, if `k` newlines stand in front of it and `j` behind it. -/
def squeeze (k j : Nat) : Text → Text
  | [] => []
  | c :: t =>
    if isSpare k (newlinesAhead j t) c then squeeze (runAfter k c) j t else c :: squeeze (runAfter k c) j t

theorem isSpare_iff {k j : Nat} {c : Char} :
    isSpare k j c = true ↔ isBlank c = true ∧ 1 ≤ k ∧ 1 ≤ j ∧ 3 ≤ k + newline c + j := by
  simp [isSpare, and_assoc]

theorem ne_of_isSpare {k j : Nat} {c m : Char} (h : isSpare k j c = true) (hm : isBlank m = false) : c ≠ m := by
  rintro rfl
  rw [(isSpare_iff.1 h).1] at hm
  cases hm

@[simp]
theorem squeeze_nil (k j : Nat) : squeeze k j [] = [] := rfl

theorem squeeze_spare {k j : Nat} {c : Char} {t : Text} (h : isSpare k (newlinesAhead j t) c = true) :
    squeeze k j (c :: t) = squeeze (runAfter k c) j t := by
  rw [squeeze, if_pos h]

theorem squeeze_kept {k j : Nat} {c : Char} {t : Text} (h : isSpare k (newlinesAhead j t) c = false) :
    squeeze k j (c :: t) = c :: squeeze (runAfter k c) j t := by
  rw [squeeze, if_neg (by simp [h])]

/-- What is not blank stays, and the blanks behind it are a new run. -/
theorem squeeze_solid {k j : Nat} {c : Char} (hc : isBlank c = false) (t : Text) :
    squeeze k j (c :: t) = c :: squeeze 0 j t := by
  rw [squeeze_kept (by simp [isSpare, hc]), runAfter_solid hc]

/-- The first character of a run stays. -/
theorem squeeze_zero_cons (j : Nat) (c : Char) (t : Text) :
    squeeze 0 j (c :: t) = c :: squeeze (runAfter 0 c) j t :=
  squeeze_kept (by simp [isSpare])

theorem head?_squeeze_zero (j : Nat) (t : Text) : (squeeze 0 j t).head? = t.head? := by
  cases t with
  | nil => rfl
  | cons c t =>
    rw [squeeze_zero_cons]
    rfl

theorem squeeze_sublist (k j : Nat) (t : Text) : List.Sublist (squeeze k j t) t := by
  induction t generalizing k with
  | nil => exact .slnil
  | cons c t ih =>
    rw [squeeze]
    split
    · exact (ih (runAfter k c)).cons c
    · exact (ih (runAfter k c)).cons_cons c

/-- Two pieces are squeezed one by one, each with the newlines of the other next to it. -/
theorem squeeze_append (k j : Nat) (x y : Text) :
    squeeze k j (x ++ y) = squeeze k (newlinesAhead j y) x ++ squeeze (newlinesBehind k x) j y := by
  induction x generalizing k with
  | nil => rfl
  | cons c x ih =>
    simp only [List.cons_append, squeeze, newlinesAhead_append, newlinesBehind_cons, ih]
    split
    · rfl
    · rfl

/-! ### Within a line -/

theorem runAfter_zero {c : Char} (hc : c ≠ '\n') : runAfter 0 c = 0 := by
  simp [runAfter, newline_eq_zero hc]

theorem newlinesBehind_line {w : Text} (hw : ∀ c ∈ w, c ≠ '\n') : newlinesBehind 0 w = 0 := by
  induction w with
  | nil => rfl
  | cons c w ih => rw [newlinesBehind_cons, runAfter_zero (hw c (.head _)), ih fun d hd => hw d (.tail _ hd)]

theorem squeeze_line {w : Text} (hw : ∀ c ∈ w, c ≠ '\n') (j : Nat) : squeeze 0 j w = w := by
  induction w with
  | nil => rfl
  | cons c w ih => rw [squeeze_zero_cons, runAfter_zero (hw c (.head _)), ih fun d hd => hw d (.tail _ hd)]

/-- What a text begins with, up to a newline at most, is not squeezed. -/
theorem takeWhile_squeeze {p : Char → Bool} (hp : p '\n' = false) (j : Nat) (t : Text) :
    (squeeze 0 j t).takeWhile p = t.takeWhile p := by
  induction t with
  | nil => rfl
  | cons c t ih =>
    rw [squeeze_zero_cons]
    by_cases hc : p c = true
    · have hline : c ≠ '\n' := by
        rintro rfl
        rw [hp] at hc
        cases hc
      rw [List.takeWhile_cons_of_pos hc, List.takeWhile_cons_of_pos hc, runAfter_zero hline, ih]
    · rw [List.takeWhile_cons_of_neg hc, List.takeWhile_cons_of_neg hc]

theorem dropWhile_squeeze {p : Char → Bool} (hp : p '\n' = false) (j : Nat) (t : Text) :
    (squeeze 0 j t).dropWhile p = squeeze 0 j (t.dropWhile p) := by
  induction t with
  | nil => rfl
  | cons c t ih =>
    by_cases hc : p c = true
    · have hline : c ≠ '\n' := by
        rintro rfl
        rw [hp] at hc
        cases hc
      rw [squeeze_zero_cons, List.dropWhile_cons_of_pos hc, List.dropWhile_cons_of_pos hc, runAfter_zero hline, ih]
    · rw [List.dropWhile_cons_of_neg hc, squeeze_zero_cons, List.dropWhile_cons_of_neg hc]

/-! ### Text that ends with no blank -/

/-- The last character of the text is not blank. -/
def EndsSolid (w : Text) : Prop := ∃ x c, w = x ++ [c] ∧ isBlank c = false

theorem EndsSolid.squeeze_eq {w : Text} (h : EndsSolid w) (k j : Nat) : squeeze k j w = squeeze k 0 w := by
  obtain ⟨x, c, rfl, hc⟩ := h
  rw [squeeze_append, squeeze_append, newlinesAhead_solid hc, newlinesAhead_solid hc, squeeze_solid hc,
    squeeze_solid hc]
  rfl

theorem EndsSolid.newlinesBehind_eq {w : Text} (h : EndsSolid w) (k : Nat) : newlinesBehind k w = 0 := by
  obtain ⟨x, c, rfl, hc⟩ := h
  rw [newlinesBehind_append, newlinesBehind_cons, runAfter_solid hc, newlinesBehind_nil]

theorem EndsSolid.newlinesAhead_eq {w : Text} (h : EndsSolid w) (j : Nat) : newlinesAhead j w = newlinesAhead 0 w := by
  obtain ⟨x, c, rfl, hc⟩ := h
  rw [newlinesAhead_append, newlinesAhead_append, newlinesAhead_solid hc, newlinesAhead_solid hc]

theorem endsSolid_singleton {c : Char} (hc : isBlank c = false) : EndsSolid [c] := ⟨[], c, rfl, hc⟩

theorem EndsSolid.cons {a : Text} (ha : EndsSolid a) (c : Char) : EndsSolid (c :: a) := by
  obtain ⟨x, d, rfl, hd⟩ := ha
  exact ⟨c :: x, d, rfl, hd⟩

/-- In front of a piece that ends with no blank, what follows the piece does not count. -/
theorem EndsSolid.isSpare_eq {a : Text} (ha : EndsSolid a) (k j : Nat) (c : Char) (rest : Text) :
    isSpare k (newlinesAhead j (a ++ rest)) c = isSpare k (newlinesAhead 0 a) c := by
  rw [newlinesAhead_append, ha.newlinesAhead_eq]

/-- The newlines in front of a run make no difference if the run has none, or if there are at most
two in all. -/
theorem squeeze_congr {k k' j : Nat} {t : Text}
    (h : newlinesAhead j t = 0 ∨ k + newlinesAhead j t ≤ 2 ∧ k' + newlinesAhead j t ≤ 2) :
    squeeze k j t = squeeze k' j t := by
  induction t generalizing k k' with
  | nil => rfl
  | cons c t ih =>
    cases hc : isBlank c with
    | false => rw [squeeze_solid hc, squeeze_solid hc]
    | true =>
      rw [newlinesAhead_blank hc] at h
      have hkept : ∀ i, i = k ∨ i = k' → isSpare i (newlinesAhead j t) c = false := by
        intro i hi
        rw [Bool.eq_false_iff]
        intro hspare
        have := isSpare_iff.1 hspare
        omega
      rw [squeeze_kept (hkept k (.inl rfl)), squeeze_kept (hkept k' (.inr rfl)), runAfter_blank hc, runAfter_blank hc]
      congr 1
      exact ih (by omega)

/-! ### The pattern -/

/-- What follows the last newline of the run of blanks that a text begins with. -/
def behindRun : Text → Text
  | [] => []
  | c :: t => if newlinesAhead 0 (c :: t) = 0 then c :: t else behindRun t

theorem behindRun_eq_self {t : Text} (h : newlinesAhead 0 t = 0) : behindRun t = t := by
  cases t with
  | nil => rfl
  | cons c t => rw [behindRun, if_pos h]

theorem behindRun_cons {c : Char} {t : Text} (h : newlinesAhead 0 (c :: t) ≠ 0) : behindRun (c :: t) = behindRun t := by
  rw [behindRun, if_neg h]

/-- Inside a run that is being squeezed only its last newline stays. -/
theorem squeeze_eq_behindRun {k : Nat} {t : Text} (hk : 1 ≤ k) (ht : 1 ≤ newlinesAhead 0 t)
    (h : 3 ≤ k + newlinesAhead 0 t) : squeeze k 0 t = '\n' :: squeeze 0 0 (behindRun t) := by
  induction t generalizing k with
  | nil => simp at ht
  | cons c t ih =>
    cases hc : isBlank c with
    | false => simp [newlinesAhead_solid hc] at ht
    | true =>
      rw [behindRun_cons (by omega)]
      rw [newlinesAhead_blank hc] at ht h
      by_cases hlast : newlinesAhead 0 t = 0
      · -- the last newline of the run
        have hnewline : c = '\n' := by
          by_cases hne : c = '\n'
          · exact hne
          · rw [newline_eq_zero hne, hlast] at ht
            omega
        rw [squeeze_kept (by simp [isSpare, hlast]), behindRun_eq_self hlast, hnewline, squeeze_congr (.inl hlast)]
      · rw [squeeze_spare (isSpare_iff.2 ⟨hc, hk, by omega, by omega⟩), runAfter_blank hc]
        exact ih (by omega) (by omega) (by omega)

end Cull.Text

namespace Cull.Pruned

open Text Pattern

/-- At a character that is no newline there are no newlines to take. -/
theorem run_newlines_ne {c : Char} (hc : c ≠ '\n') (t : Text) : (oneOrMore (· = '\n')).run (c :: t) some = none := by
  simp [oneOrMore, run, hc]

/-- At the last newline of a run, that newline is taken. -/
theorem run_newlines_last {t : Text} (h : newlinesAhead 0 t = 0) :
    (oneOrMore (· = '\n')).run ('\n' :: t) some = some t := by
  cases t with
  | nil => rfl
  | cons c t =>
    have hc : c ≠ '\n' := by
      rintro rfl
      rw [newlinesAhead_blank (by decide)] at h
      simp [newline] at h
    simp [oneOrMore, run, runMany, hc]

theorem newlinesAhead_newline (j : Nat) (t : Text) : newlinesAhead j ('\n' :: t) = 1 + newlinesAhead j t :=
  newlinesAhead_blank (by decide) j t

/-- As many blanks as possible, and then what takes a newline and needs `n` more behind it: taken is
all up to the last newline of the run. -/
theorem runMany_blanks (n : Nat) {k : Text → Option Text} (hnil : k [] = none)
    (hnewline : ∀ t, newlinesAhead 0 t ≤ n →
      k ('\n' :: t) = if n ≤ newlinesAhead 0 t then some (behindRun t) else none)
    (hother : ∀ c t, c ≠ '\n' → k (c :: t) = none) (t : Text) :
    runMany isBlank k t = if n + 1 ≤ newlinesAhead 0 t then some (behindRun t) else none := by
  induction t with
  | nil => exact hnil
  | cons c t ih =>
    cases hc : isBlank c with
    | false =>
      have hne : c ≠ '\n' := by
        rintro rfl
        cases hc
      rw [runMany, if_neg (by simp [hc]), hother c t hne, newlinesAhead_solid hc, if_neg (by omega)]
    | true =>
      rw [runMany, if_pos hc, ih]
      by_cases hmore : n + 1 ≤ newlinesAhead 0 t
      · have hahead : n + 1 ≤ newlinesAhead 0 (c :: t) := by
          rw [newlinesAhead_blank hc]
          omega
        rw [if_pos hmore, if_pos hahead, behindRun_cons (by omega)]
        rfl
      · -- the blanks behind this one do not do, so it is tried itself
        rw [if_neg hmore]
        show k (c :: t) = _
        by_cases hne : c = '\n'
        · subst hne
          rw [hnewline t (by omega), behindRun_cons (by rw [newlinesAhead_newline]; omega), newlinesAhead_newline,
            Nat.add_comm 1]
          simp only [Nat.add_le_add_iff_right]
        · rw [hother c t hne, newlinesAhead_blank hc, newline_eq_zero hne, if_neg (by omega)]

theorem runMany_one_newline (t : Text) :
    runMany isBlank (fun t => (oneOrMore (· = '\n')).run t some) t =
      if 1 ≤ newlinesAhead 0 t then some (behindRun t) else none := by
  refine runMany_blanks 0 rfl (fun t h => ?_) (fun c t hc => run_newlines_ne hc t) t
  have hlast : newlinesAhead 0 t = 0 := by omega
  rw [run_newlines_last hlast, behindRun_eq_self hlast]
  rfl

theorem runMany_two_newlines (t : Text) :
    runMany isBlank (fun t => (Pattern.all [.char '\n', .many isBlank, .oneOrMore (· = '\n')]).run t some) t =
      if 2 ≤ newlinesAhead 0 t then some (behindRun t) else none := by
  refine runMany_blanks 1 rfl (fun t _ => ?_) (fun c t hc => ?_) t
  · simp only [Pattern.all, run, Pattern.char, decide_true, if_true]
    exact runMany_one_newline t
  · simp [Pattern.all, run, Pattern.char, hc]

/-- The pattern matches at the first of at least three newlines, and takes all up to the last. -/
theorem rest?_blankLines (t : Text) :
    blankLines.rest? ('\n' :: t) = if 2 ≤ newlinesAhead 0 t then some (behindRun t) else none := by
  simp only [blankLines, rest?, Pattern.all, run, Pattern.char, decide_true, if_true]
  exact runMany_two_newlines t

theorem rest?_blankLines_ne {c : Char} (hc : c ≠ '\n') (t : Text) : blankLines.rest? (c :: t) = none := by
  simp [blankLines, rest?, Pattern.all, run, Pattern.char, hc]

theorem replaceFrom_eq_drop (p : Pattern) (new : Text) (n : Nat) (t : Text) :
    p.replaceFrom new n t = p.replaceFrom new 0 (t.drop n) := by
  induction t generalizing n with
  | nil => cases n <;> simp [replaceFrom]
  | cons c t ih =>
    cases n with
    | zero => rfl
    | succ n => rw [replaceFrom, ih, List.drop_succ_cons]

theorem exists_append_behindRun (t : Text) : ∃ x, t = x ++ behindRun t := by
  induction t with
  | nil => exact ⟨[], rfl⟩
  | cons c t ih =>
    obtain ⟨x, hx⟩ := ih
    by_cases h : newlinesAhead 0 (c :: t) = 0
    · exact ⟨[], by rw [behindRun_eq_self h, List.nil_append]⟩
    · exact ⟨c :: x, by rw [behindRun_cons h, List.cons_append, ← hx]⟩

/-- A match is replaced by two newlines, and the search goes on behind it. -/
theorem collapseBlankLines_newline (t : Text) :
    collapseBlankLines ('\n' :: t) =
      if 2 ≤ newlinesAhead 0 t then '\n' :: '\n' :: collapseBlankLines (behindRun t)
      else '\n' :: collapseBlankLines t := by
  unfold collapseBlankLines replaceAll
  rw [replaceFrom, rest?_blankLines]
  by_cases h : 2 ≤ newlinesAhead 0 t
  · obtain ⟨x, hx⟩ := exists_append_behindRun t
    have hdrop : t.drop (t.length - (behindRun t).length) = behindRun t := by
      have hlength := congrArg List.length hx
      rw [List.length_append] at hlength
      rw [hlength, Nat.add_sub_cancel]
      exact (congrArg (List.drop x.length) hx).trans List.drop_left
    rw [if_pos h, if_pos h]
    show ['\n', '\n'] ++ blankLines.replaceFrom ['\n', '\n'] (t.length - (behindRun t).length) t = _
    rw [replaceFrom_eq_drop, hdrop]
    rfl
  · rw [if_neg h, if_neg h]

theorem collapseBlankLines_ne {c : Char} (hc : c ≠ '\n') (t : Text) :
    collapseBlankLines (c :: t) = c :: collapseBlankLines t := by
  unfold collapseBlankLines replaceAll
  rw [replaceFrom, rest?_blankLines_ne hc]

/-- Reducing blank lines leaves out the spare characters, and no others. -/
theorem collapseBlankLines_eq_squeeze (t : Text) : collapseBlankLines t = squeeze 0 0 t := by
  induction hn : t.length using Nat.strongRecOn generalizing t with
  | ind n ih =>
    subst hn
    cases t with
    | nil => rfl
    | cons c t =>
      have iht := ih t.length (by simp) t rfl
      rw [squeeze_zero_cons]
      by_cases hc : c = '\n'
      · subst hc
        have hafter : runAfter 0 '\n' = 1 := rfl
        rw [collapseBlankLines_newline, hafter]
        by_cases h : 2 ≤ newlinesAhead 0 t
        · obtain ⟨x, hx⟩ := exists_append_behindRun t
          have hlength := congrArg List.length hx
          rw [List.length_append] at hlength
          rw [if_pos h, squeeze_eq_behindRun (by omega) (by omega) (by omega),
            ih (behindRun t).length (by rw [List.length_cons]; omega) (behindRun t) rfl]
        · have hcongr : squeeze 1 0 t = squeeze 0 0 t := squeeze_congr (.inr ⟨by omega, by omega⟩)
          rw [if_neg h, iht, hcongr]
      · rw [collapseBlankLines_ne hc, iht, runAfter_zero hc]

end Cull.Pruned
