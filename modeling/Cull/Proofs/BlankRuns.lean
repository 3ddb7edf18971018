import Cull.Proofs.KeptText
import Mathlib.Data.List.DropRight
import Mathlib.Data.List.SplitBy

/-!
# Runs of blanks

A text falls into runs, by turns of blanks and of other characters. Reducing
blank lines works on each run by itself: in a run of blanks with at least three
newlines, all from the first newline to the last becomes two newlines, and every
other run stays as it is (`blank_lines_collapse`). The search for the
pattern knows nothing of runs. What ties the two is `squeeze`, which takes a text
apart at any place: at the border of two runs no newline of the one counts for the
other.
-/

namespace Cull

open Text

namespace Text

/-! ### Runs -/

/-- Both characters are blank, or neither is. -/
def sameKind (c d : Char) : Bool := isBlank c == isBlank d

/-- The longest stretches of blanks and of other characters, in order. -/
def runs (t : Text) : List Text := t.splitBy sameKind

/-- A run with all from its first to its last newline reduced to two newlines, if it has at least three. -/
def reduceRun (w : Text) : Text :=
  if 3 ≤ w.count '\n' then w.takeWhile (· ≠ '\n') ++ '\n' :: '\n' :: w.rtakeWhile (· ≠ '\n') else w

theorem sameKind_iff {c d : Char} : sameKind c d = true ↔ isBlank c = isBlank d := beq_iff_eq

theorem count_newline_cons (c : Char) (w : Text) : (c :: w).count '\n' = newline c + w.count '\n' := by
  rw [List.count_cons, newline, Nat.add_comm]
  simp

/-- A text with two newlines or more, taken apart at the first and the last. -/
theorem exists_newline_ends {w : Text} (h : 2 ≤ w.count '\n') :
    ∃ p m q, w = p ++ '\n' :: (m ++ '\n' :: q) ∧ '\n' ∉ p ∧ '\n' ∉ q := by
  obtain ⟨p, rest, rfl, hp⟩ := List.eq_append_cons_of_mem (List.count_pos_iff.1 (by omega : 0 < w.count '\n'))
  have hrest : '\n' ∈ rest.reverse := by
    rw [List.count_append, List.count_eq_zero_of_not_mem hp, count_newline_cons] at h
    rw [List.mem_reverse, ← List.count_pos_iff]
    have := newline_le_one '\n'
    omega
  obtain ⟨q, m, hq, hlast⟩ := List.eq_append_cons_of_mem hrest
  refine ⟨p, m.reverse, q.reverse, ?_, hp, by simpa using hlast⟩
  have hsplit := congrArg List.reverse hq
  simp only [List.reverse_reverse, List.reverse_append, List.reverse_cons, List.append_assoc,
    List.singleton_append] at hsplit
  rw [hsplit]

theorem takeWhile_newline {p : Text} (hp : '\n' ∉ p) (w : Text) : (p ++ '\n' :: w).takeWhile (· ≠ '\n') = p := by
  have hline : ∀ c ∈ p, decide (c ≠ '\n') = true := fun c hc => decide_eq_true fun h => hp (h ▸ hc)
  rw [List.takeWhile_append_of_pos hline, List.takeWhile_cons_of_neg (by simp), List.append_nil]

theorem rtakeWhile_newline (w : Text) {q : Text} (hq : '\n' ∉ q) : (w ++ '\n' :: q).rtakeWhile (· ≠ '\n') = q := by
  rw [List.rtakeWhile, List.reverse_append, List.reverse_cons, List.append_assoc, List.singleton_append,
    takeWhile_newline (by simpa using hq), List.reverse_reverse]

/-! ### One run -/

theorem newlinesAhead_blanks {w : Text} (hw : ∀ c ∈ w, isBlank c = true) : newlinesAhead 0 w = w.count '\n' := by
  induction w with
  | nil => rfl
  | cons c w ih =>
    obtain ⟨hc, hw⟩ := List.forall_mem_cons.1 hw
    rw [newlinesAhead_blank hc, ih hw, count_newline_cons]

theorem newlinesBehind_blanks {w : Text} (hw : ∀ c ∈ w, isBlank c = true) (k : Nat) :
    newlinesBehind k w = k + w.count '\n' := by
  induction w generalizing k with
  | nil => rfl
  | cons c w ih =>
    obtain ⟨hc, hw⟩ := List.forall_mem_cons.1 hw
    rw [newlinesBehind_cons, runAfter_blank hc, ih hw, count_newline_cons, Nat.add_assoc]

/-- A run of blanks is crowded if it has at least three newlines. -/
theorem crowdedFrom_blanks_iff {w : Text} (hw : ∀ c ∈ w, isBlank c = true) : CrowdedFrom 0 w ↔ 3 ≤ w.count '\n' := by
  constructor
  · rintro ⟨x, y, rfl, hx⟩
    rw [newlinesBehind_blanks fun c hc => hw c (List.mem_append_left _ hc)] at hx
    rw [List.count_append, List.count_cons_self]
    omega
  · intro h
    obtain ⟨p, m, q, rfl, -, hq⟩ := exists_newline_ends (by omega : 2 ≤ w.count '\n')
    have hsplit : p ++ '\n' :: (m ++ '\n' :: q) = (p ++ '\n' :: m) ++ '\n' :: q := by simp
    rw [hsplit] at hw h ⊢
    refine ⟨_, q, rfl, ?_⟩
    rw [newlinesBehind_blanks fun c hc => hw c (List.mem_append_left _ hc)]
    rw [List.count_append, List.count_cons_self, List.count_eq_zero_of_not_mem hq] at h
    omega

theorem newlinesAhead_ne_zero {w : Text} (hw : ∀ c ∈ w, isBlank c = true) (h : '\n' ∈ w) : newlinesAhead 0 w ≠ 0 := by
  rw [newlinesAhead_blanks hw]
  exact Nat.ne_of_gt (List.count_pos_iff.2 h)

/-- What stands behind the last newline of a run. -/
theorem behindRun_newline {m q : Text} (hw : ∀ c ∈ m ++ '\n' :: q, isBlank c = true) (hq : '\n' ∉ q) :
    behindRun (m ++ '\n' :: q) = q := by
  induction m with
  | nil =>
    have hnone : newlinesAhead 0 q = 0 := by
      rw [newlinesAhead_blanks fun c hc => hw c (.tail _ hc), List.count_eq_zero_of_not_mem hq]
    rw [List.nil_append, behindRun_cons (newlinesAhead_ne_zero hw (.head _)), behindRun_eq_self hnone]
  | cons c m ih =>
    rw [List.cons_append] at hw ⊢
    rw [behindRun_cons (newlinesAhead_ne_zero hw (by simp))]
    exact ih fun d hd => hw d (.tail _ hd)

/-- A run of blanks by itself is reduced. -/
theorem squeeze_blanks {w : Text} (hw : ∀ c ∈ w, isBlank c = true) : squeeze 0 0 w = reduceRun w := by
  rw [reduceRun]
  split
  · next hthree =>
    obtain ⟨p, m, q, rfl, hp, hq⟩ := exists_newline_ends (by omega : 2 ≤ w.count '\n')
    have hrest : ∀ c ∈ m ++ '\n' :: q, isBlank c = true := fun c hc => hw c (by simp [hc])
    have hline : ∀ x : Text, '\n' ∉ x → ∀ c ∈ x, c ≠ '\n' := fun x hx c hc h => hx (h ▸ hc)
    have hahead : 2 ≤ newlinesAhead 0 (m ++ '\n' :: q) := by
      rw [newlinesAhead_blanks hrest]
      rw [List.count_append, List.count_eq_zero_of_not_mem hp, List.count_cons_self] at hthree
      omega
    have htake := takeWhile_newline hp (m ++ '\n' :: q)
    have hback : (p ++ '\n' :: (m ++ '\n' :: q)).rtakeWhile (· ≠ '\n') = q := by
      have hlast := rtakeWhile_newline (p ++ '\n' :: m) hq
      rwa [List.append_assoc, List.cons_append] at hlast
    have hfirst : runAfter 0 '\n' = 1 := rfl
    rw [htake, hback, squeeze_append, squeeze_line (hline p hp), newlinesBehind_line (hline p hp), squeeze_zero_cons,
      hfirst, squeeze_eq_behindRun (Nat.le_refl 1) (by omega) (by omega), behindRun_newline hrest hq,
      squeeze_line (hline q hq)]
  · next hfew => exact squeeze_eq_self (mt (crowdedFrom_blanks_iff hw).1 hfew)

/-- A run of other characters has no newline. -/
theorem reduceRun_solid {w : Text} (hw : ∀ c ∈ w, isBlank c = false) : reduceRun w = w := by
  have hnone : w.count '\n' = 0 := List.count_eq_zero_of_not_mem fun h => absurd (hw _ h) (by decide)
  rw [reduceRun, if_neg (by omega)]

/-! ### All runs -/

theorem forall_of_isChain {c : Char} {w : Text} (h : (c :: w).IsChain fun c d => sameKind c d = true) :
    ∀ d ∈ w, isBlank d = isBlank c := by
  induction w generalizing c with
  | nil => simp
  | cons d w ih =>
    obtain ⟨hcd, hw⟩ := List.isChain_cons_cons.1 h
    have hd : isBlank d = isBlank c := (sameKind_iff.1 hcd).symm
    refine List.forall_mem_cons.2 ⟨hd, fun e he => ?_⟩
    rw [ih hw e he, hd]

/-- If a run ends with a blank, the text behind it begins with none. -/
theorem newlinesAhead_flatten {w : Text} {ws : List Text} (hw : ∀ c ∈ w, isBlank c = true)
    (hturn : (w :: ws).IsChain fun a b => ∃ ha hb, sameKind (a.getLast ha) (b.head hb) = false) :
    newlinesAhead 0 ws.flatten = 0 := by
  cases ws with
  | nil => rfl
  | cons v ws =>
    obtain ⟨hlast, hhead, hdiff⟩ := (List.isChain_cons_cons.1 hturn).1
    cases v with
    | nil => exact absurd rfl hhead
    | cons d v =>
      have hd : isBlank d = false := by
        rw [sameKind, hw _ (List.getLast_mem hlast), List.head_cons] at hdiff
        simpa using hdiff
      rw [List.flatten_cons, List.cons_append, newlinesAhead_solid hd]

/-- Runs that are by turns of blanks and of other characters are squeezed one by one. -/
theorem squeeze_flatten {ws : List Text} (hne : [] ∉ ws) (hkind : ∀ w ∈ ws, w.IsChain fun c d => sameKind c d = true)
    (hturn : ws.IsChain fun a b => ∃ ha hb, sameKind (a.getLast ha) (b.head hb) = false) :
    squeeze 0 0 ws.flatten = ws.flatMap reduceRun := by
  induction ws with
  | nil => rfl
  | cons w ws ih =>
    have hrest := ih (List.not_mem_of_not_mem_cons hne) (fun v hv => hkind v (.tail _ hv)) hturn.tail
    rw [List.flatten_cons, List.flatMap_cons, squeeze_append]
    cases w with
    | nil => exact absurd (.head _) hne
    | cons c w =>
      have hsame := forall_of_isChain (hkind _ (.head _))
      cases hc : isBlank c with
      | true =>
        -- no newline of the text behind belongs to this run
        have hw : ∀ d ∈ c :: w, isBlank d = true :=
          List.forall_mem_cons.2 ⟨hc, fun d hd => (hsame d hd).trans hc⟩
        have hnone := newlinesAhead_flatten hw hturn
        rw [hnone, squeeze_blanks hw, squeeze_congr (.inl hnone), hrest]
      | false =>
        have hw : ∀ d ∈ c :: w, isBlank d = false :=
          List.forall_mem_cons.2 ⟨hc, fun d hd => (hsame d hd).trans hc⟩
        have hline : ∀ d ∈ c :: w, d ≠ '\n' := fun d hd h => absurd (hw d hd) (by rw [h]; decide)
        rw [squeeze_line hline, newlinesBehind_line hline, reduceRun_solid hw, hrest]

/-- Squeezing is reducing every run. -/
theorem squeeze_eq_reduceRuns (t : Text) : squeeze 0 0 t = (runs t).flatMap reduceRun := by
  have h := squeeze_flatten (List.nil_notMem_splitBy sameKind t) (fun w hw => List.isChain_of_mem_splitBy hw)
    (List.isChain_getLast_head_splitBy sameKind t)
  rwa [List.flatten_splitBy] at h

/-! ### What stays -/

/-- Only blanks are left out. -/
theorem filter_squeeze (k j : Nat) (t : Text) : (squeeze k j t).filter (!isBlank ·) = t.filter (!isBlank ·) := by
  induction t generalizing k with
  | nil => rfl
  | cons c t ih =>
    rw [squeeze]
    split
    · next hspare =>
      have hc : isBlank c = true := (isSpare_iff.1 hspare).1
      rw [ih, List.filter_cons_of_neg (by simp [hc])]
    · rw [List.filter_cons, List.filter_cons, ih]

theorem squeeze_squeeze (t : Text) : squeeze 0 0 (squeeze 0 0 t) = squeeze 0 0 t :=
  squeeze_eq_self fun h => not_infix_squeeze h (List.infix_refl _)

end Text

namespace Pruned

/-- Reducing blank lines puts two newlines for all that stands from the first to the last newline of a
run of blanks, in each run with at least three, and leaves all else as it is. So no run of blanks has
more than two newlines afterwards, reducing once more changes nothing, the characters that are not
blank stay in their order, and the text gets no longer. -/
theorem blank_lines_collapse (t : Text) :
    collapseBlankLines t = (runs t).flatMap reduceRun ∧
    (∀ w, w <:+: collapseBlankLines t → (∀ c ∈ w, isBlank c = true) → w.count '\n' ≤ 2) ∧
    collapseBlankLines (collapseBlankLines t) = collapseBlankLines t ∧
    (collapseBlankLines t).filter (!isBlank ·) = t.filter (!isBlank ·) ∧
    byteLength (collapseBlankLines t) ≤ byteLength t := by
  simp only [collapseBlankLines_eq_squeeze]
  refine ⟨squeeze_eq_reduceRuns t, fun w hw hblank => ?_, squeeze_squeeze t, filter_squeeze 0 0 t,
    byteLength_le_of_sublist (squeeze_sublist 0 0 t)⟩
  have hfree : ¬ 3 ≤ w.count '\n' := fun h => not_infix_squeeze ((crowdedFrom_blanks_iff hblank).2 h) hw
  omega

example : collapseBlankLines "a \n\r\n\t\n b\n\nc".toList = "a \n\n b\n\nc".toList := by decide +kernel

end Pruned

end Cull
