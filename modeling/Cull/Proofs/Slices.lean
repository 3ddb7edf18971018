import Cull.Span

/-!
# Cutting a text at a place

A text is cut at a byte offset by `splitAtByte?`. The offsets that matter are
the lengths of the texts it is put together from: there the cut succeeds and
gives back the two texts.
-/

namespace Cull

namespace Text

theorem byteLength_eq_zero_iff {t : Text} : byteLength t = 0 ↔ t = [] := by
  cases t with
  | nil => simp
  | cons c t =>
    have := Char.utf8Size_pos c
    simp only [byteLength_cons, reduceCtorEq, iff_false]
    omega

theorem byteLength_pos {t : Text} (h : t ≠ []) : 0 < byteLength t := by
  have := mt byteLength_eq_zero_iff.1 h
  omega

/-- A text put together from two parts is cut where they meet. -/
@[simp]
theorem splitAtByte?_append (a b : Text) : splitAtByte? (byteLength a) (a ++ b) = some (a, b) := by
  induction a with
  | nil => simp [splitAtByte?]
  | cons c a ih =>
    obtain ⟨n, hn⟩ : ∃ n, byteLength (c :: a) = n + 1 :=
      Nat.exists_eq_add_of_lt (byteLength_pos (List.cons_ne_nil c a)) |>.imp fun n hn => by omega
    have hle : c.utf8Size ≤ n + 1 := by rw [← hn, byteLength_cons]; omega
    have hsub : n + 1 - c.utf8Size = byteLength a := by rw [← hn, byteLength_cons]; omega
    rw [hn, List.cons_append, splitAtByte?, if_pos hle, hsub, ih]
    rfl

/-- What is cut off and what is left make up the text, and the first is as long as it should be. -/
theorem splitAtByte?_eq_some {n : Nat} {t a b : Text} (h : splitAtByte? n t = some (a, b)) :
    t = a ++ b ∧ n = byteLength a := by
  fun_induction splitAtByte? n t generalizing a b with
  | case1 t =>
    cases h
    exact ⟨rfl, rfl⟩
  | case2 n => cases h
  | case3 n c t hle ih =>
    obtain ⟨⟨a', b'⟩, h', he⟩ := Option.map_eq_some_iff.1 h
    cases he
    obtain ⟨rfl, hn⟩ := ih h'
    refine ⟨rfl, ?_⟩
    rw [byteLength_cons]
    omega
  | case4 n c t hlt => cases h

/-- Of two ways to cut a text in two, the one that cuts later leaves the earlier cut in its first part. -/
theorem append_eq_append_of_le {a b c d : Text} (h : a ++ b = c ++ d) (hle : byteLength a ≤ byteLength c) :
    ∃ g, c = a ++ g ∧ b = g ++ d := by
  rcases List.append_eq_append_iff.1 h with ⟨g, hc, hb⟩ | ⟨g, ha, hd⟩
  · exact ⟨g, hc, hb⟩
  · have hg : g = [] := by
      rw [← byteLength_eq_zero_iff]
      rw [ha, byteLength_append] at hle
      omega
    subst hg
    exact ⟨[], by simpa using ha.symm, by simpa using hd.symm⟩

/-- The middle of three texts is the slice between its ends. -/
theorem slice?_append (a w b : Text) :
    slice? (a ++ (w ++ b)) (byteLength a) (byteLength a + byteLength w) = some w := by
  simp [slice?]

/-- A slice is the middle of three texts. -/
theorem slice?_eq_some {t w : Text} {start stop : Nat} (hle : start ≤ stop) (h : slice? t start stop = some w) :
    ∃ a b, t = a ++ (w ++ b) ∧ byteLength a = start ∧ byteLength a + byteLength w = stop := by
  simp only [slice?, bind, Option.bind_eq_some_iff, pure, Option.some.injEq, Prod.exists] at h
  obtain ⟨a, rest, ha, w', b, hw, rfl⟩ := h
  obtain ⟨rfl, hstart⟩ := splitAtByte?_eq_some ha
  obtain ⟨rfl, hlen⟩ := splitAtByte?_eq_some hw
  exact ⟨a, b, rfl, hstart.symm, by omega⟩

end Text

namespace Span

@[simp]
theorem ofText_start (pos : Nat) (t : Text) : (ofText pos t).start = pos := rfl

@[simp]
theorem ofText_stop (pos : Nat) (t : Text) : (ofText pos t).stop = pos + t.byteLength := rfl

theorem eq_ofText {s : Span} {pos : Nat} {t : Text} (hstart : pos = s.start) (hstop : pos + t.byteLength = s.stop) :
    s = ofText pos t := by
  obtain ⟨start, stop, hordered⟩ := s
  subst hstart hstop
  rfl

/-- The span of a text marks that text, wherever it stands. -/
theorem slice?_ofText (a w b : Text) : (ofText a.byteLength w).slice? (a ++ (w ++ b)) = some w :=
  Text.slice?_append a w b

theorem contains_iff {s t : Span} : s.contains t = true ↔ s.start ≤ t.start ∧ t.stop ≤ s.stop := by
  simp [contains]

end Span

end Cull
