import Cull.Text.Blank

/-!
# Pieces of a text

A text is cut at every separator. So the pieces of two texts with a separator
between them are those of the one and then those of the other (`splitOn_append`),
and text without a separator that is put behind another makes the last piece
longer (`exists_splitOn_append`). The words of a text are its pieces between
blanks, less the empty ones, and blanks around it change none of them.
-/

namespace Cull.Text

variable {sep : Char → Bool}

theorem splitOn_ne_nil (sep : Char → Bool) (t : Text) : splitOn sep t ≠ [] := by
  cases t with
  | nil => simp [splitOn]
  | cons c t =>
    rw [splitOn]
    split
    · simp
    · split <;> simp

theorem splitOn_append {c : Char} (hc : sep c = true) (x y : Text) :
    splitOn sep (x ++ c :: y) = splitOn sep x ++ splitOn sep y := by
  induction x with
  | nil => simp [splitOn, hc]
  | cons d x ih =>
    rw [List.cons_append, splitOn, splitOn, ih]
    split
    · rfl
    · cases hx : splitOn sep x with
      | nil => exact absurd hx (splitOn_ne_nil sep x)
      | cons piece pieces => rfl

theorem splitOn_eq_singleton {t : Text} (h : ∀ c ∈ t, sep c = false) : splitOn sep t = [t] := by
  induction t with
  | nil => rfl
  | cons c t ih =>
    obtain ⟨hc, ht⟩ := List.forall_mem_cons.1 h
    rw [splitOn, if_neg (by simp [hc]), ih ht]

/-- A text without a separator that is put behind another makes the last piece longer. -/
theorem exists_splitOn_append (t : Text) {s : Text} (h : ∀ c ∈ s, sep c = false) :
    ∃ front last, splitOn sep t = front ++ [last] ∧ splitOn sep (t ++ s) = front ++ [last ++ s] := by
  induction t with
  | nil => exact ⟨[], [], rfl, splitOn_eq_singleton h⟩
  | cons c t ih =>
    obtain ⟨front, last, ht, hts⟩ := ih
    rw [List.cons_append, splitOn, splitOn, ht, hts]
    split
    · exact ⟨[] :: front, last, rfl, rfl⟩
    · cases front with
      | nil => exact ⟨[], c :: last, rfl, rfl⟩
      | cons piece front => exact ⟨(c :: piece) :: front, last, rfl, rfl⟩

/-- No piece holds a separator. -/
theorem sep_eq_false_of_mem_splitOn {t piece : Text} (h : piece ∈ splitOn sep t) :
    ∀ c ∈ piece, sep c = false := by
  induction t generalizing piece with
  | nil =>
    rw [splitOn, List.mem_singleton] at h
    simp [h]
  | cons c t ih =>
    rw [splitOn] at h
    split at h
    · rcases List.mem_cons.1 h with rfl | h
      · simp
      · exact ih h
    · next hc =>
      split at h
      · next hnil => exact absurd hnil (splitOn_ne_nil sep t)
      · next first pieces hs =>
        rw [hs] at ih
        rcases List.mem_cons.1 h with rfl | h
        · exact List.forall_mem_cons.2 ⟨by simpa using hc, ih (.head _)⟩
        · exact ih (.tail _ h)

/-! ### Words -/

/-- The words of a text with a blank in it are those before the blank and those behind it. -/
theorem words_append {c : Char} (hc : isBlank c = true) (x y : Text) : words (x ++ c :: y) = words x ++ words y := by
  rw [words, splitOn_append hc, List.filter_append, words, words]

theorem words_blanks {b : Text} (hb : ∀ c ∈ b, isBlank c = true) : words b = [] := by
  induction b with
  | nil => rfl
  | cons c b ih =>
    obtain ⟨hc, hb⟩ := List.forall_mem_cons.1 hb
    exact (words_append hc [] b).trans (ih hb)

theorem words_blanks_append {b : Text} (hb : ∀ c ∈ b, isBlank c = true) (t : Text) : words (b ++ t) = words t := by
  induction b with
  | nil => rfl
  | cons c b ih =>
    obtain ⟨hc, hb⟩ := List.forall_mem_cons.1 hb
    exact (words_append hc [] (b ++ t)).trans (ih hb)

theorem words_append_blanks {b : Text} (hb : ∀ c ∈ b, isBlank c = true) (t : Text) : words (t ++ b) = words t := by
  cases b with
  | nil => rw [List.append_nil]
  | cons c b =>
    obtain ⟨hc, hb⟩ := List.forall_mem_cons.1 hb
    rw [words_append hc, words_blanks hb, List.append_nil]

end Cull.Text
