import Cull.Proofs.Bytes
import Cull.Proofs.CutText

/-!
# Cutting as a filter on bytes

A plan can hold any spans, in any order, inside one another or next to one
another, with ends inside a character or past the end of the text. They are
merged, and the text is cut at the ends of the merged spans. `sieveBytes` says
what should be left offset by offset, with no regard to characters: the bytes
that lie in none of the spans. Carrying out a plan fails exactly if an end of a
merged span is no boundary of a character, and otherwise leaves the text with
these bytes, blank lines reduced (`cutting_filters_bytes`). Ends that vanish in
merging do not count.
-/

namespace Cull

open Text

namespace Text

/-! ### Boundaries of characters -/

/-- The offset is the end of the text, or that of the first byte of a character. -/
def IsBoundary (t : Text) (i : Nat) : Prop := i = byteLength t ∨ ∃ b ∈ (bytes t)[i]?, b.IsUTF8FirstByte

instance (t : Text) (i : Nat) : Decidable (IsBoundary t i) :=
  inferInstanceAs (Decidable (i = byteLength t ∨ ∃ b ∈ (bytes t)[i]?, b.IsUTF8FirstByte))

/-- The bytes of a character in its place. -/
theorem getElem?_bytes_char (pre : Text) (c : Char) (rest : Text) {j : Nat} (hj : j < c.utf8Size) :
    (bytes (pre ++ c :: rest))[byteLength pre + j]? = (String.utf8EncodeChar c)[j]? := by
  rw [bytes_append, bytes_cons, List.getElem?_append_right (by simp), length_bytes, Nat.add_sub_cancel_left,
    List.getElem?_append_left (by simpa using hj)]

/-- Only the first byte of a character begins one. -/
theorem isUTF8FirstByte_char_iff {c : Char} {j : Nat} (hj : j < c.utf8Size) :
    (∃ b ∈ (String.utf8EncodeChar c)[j]?, b.IsUTF8FirstByte) ↔ j = 0 := by
  have hlength : j < (String.utf8EncodeChar c).length := by simpa using hj
  simp [List.getElem?_eq_getElem hlength]

/-- Every offset of a text lies in one of its characters. -/
theorem exists_char_at {t : Text} {i : Nat} (h : i < byteLength t) :
    ∃ pre c rest j, t = pre ++ c :: rest ∧ i = byteLength pre + j ∧ j < c.utf8Size := by
  induction t generalizing i with
  | nil => cases h
  | cons c t ih =>
    rw [byteLength_cons] at h
    by_cases hi : i < c.utf8Size
    · exact ⟨[], c, t, i, rfl, (Nat.zero_add i).symm, hi⟩
    · obtain ⟨pre, d, rest, j, rfl, hj, hlt⟩ := ih (i := i - c.utf8Size) (by omega)
      refine ⟨c :: pre, d, rest, j, rfl, ?_, hlt⟩
      rw [byteLength_cons]
      omega

/-- A text can be cut only before and behind a character. -/
theorem IsPosition.le_or_le {pre rest : Text} {c : Char} {i : Nat} (h : IsPosition (pre ++ c :: rest) i) :
    i ≤ byteLength pre ∨ byteLength pre + c.utf8Size ≤ i := by
  obtain ⟨x, y, hxy, rfl⟩ := h
  by_cases hle : byteLength x ≤ byteLength pre
  · exact .inl hle
  · obtain ⟨g, rfl, hg⟩ := append_eq_append_of_le hxy (Nat.le_of_not_le hle)
    cases g with
    | nil => simp at hle
    | cons d g =>
      obtain ⟨rfl, -⟩ := List.cons.inj hg
      simp only [byteLength_append, byteLength_cons]
      omega

/-- The offsets where a text can be cut are told by its bytes. -/
theorem isPosition_iff_isBoundary {t : Text} {i : Nat} : IsPosition t i ↔ IsBoundary t i := by
  constructor
  · rintro ⟨x, y, rfl, rfl⟩
    cases y with
    | nil => exact .inl (by rw [List.append_nil])
    | cons c y =>
      refine .inr ?_
      have hbyte := getElem?_bytes_char x c y c.utf8Size_pos
      rw [Nat.add_zero] at hbyte
      rw [hbyte, isUTF8FirstByte_char_iff c.utf8Size_pos]
  · rintro (rfl | ⟨b, hb, hfirst⟩)
    · exact ⟨t, [], (List.append_nil t).symm, rfl⟩
    · have hlt : i < byteLength t := by
        rw [← length_bytes]
        exact (List.getElem?_eq_some_iff.1 hb).1
      obtain ⟨pre, c, rest, j, rfl, rfl, hj⟩ := exists_char_at hlt
      rw [getElem?_bytes_char pre c rest hj] at hb
      obtain rfl := (isUTF8FirstByte_char_iff hj).1 ⟨b, hb, hfirst⟩
      exact ⟨pre, c :: rest, rfl, rfl⟩

/-- A text is told by its bytes. -/
theorem bytes_inj {s t : Text} : bytes s = bytes t ↔ s = t := by
  constructor
  · intro h
    have hencode : s.utf8Encode = t.utf8Encode := congrArg List.toByteArray h
    have hdecode := congrArg ByteArray.utf8Decode? hencode
    rw [List.utf8Decode?_utf8Encode, List.utf8Decode?_utf8Encode] at hdecode
    simpa using hdecode
  · exact congrArg bytes

/-! ### Bytes that are not struck out -/

/-- The bytes, of which the first has the offset `pos`, whose offsets are not struck out. -/
def sieveBytes (out : Nat → Bool) (pos : Nat) (bs : List UInt8) : List UInt8 :=
  ((bs.zipIdx pos).filter fun p => !out p.2).map Prod.fst

variable {out : Nat → Bool} {pos : Nat}

theorem sieveBytes_append (x y : List UInt8) :
    sieveBytes out pos (x ++ y) = sieveBytes out pos x ++ sieveBytes out (pos + x.length) y := by
  rw [sieveBytes, List.zipIdx_append, List.filter_append, List.map_append, sieveBytes, sieveBytes]

/-- Bytes that share one fate stay together or go together. -/
theorem sieveBytes_of_forall {bs : List UInt8} {gone : Bool} (h : ∀ j < bs.length, out (pos + j) = gone) :
    sieveBytes out pos bs = if gone then [] else bs := by
  have hout : ∀ p ∈ bs.zipIdx pos, out p.2 = gone := by
    intro p hp
    obtain ⟨hle, hlt, -⟩ := List.mem_zipIdx hp
    have hj := h (p.2 - pos) (by omega)
    rwa [Nat.add_sub_cancel' hle] at hj
  cases gone with
  | true =>
    have hnone : (bs.zipIdx pos).filter (fun p => !out p.2) = [] :=
      List.filter_eq_nil_iff.2 fun p hp => by simp [hout p hp]
    rw [sieveBytes, hnone]
    rfl
  | false =>
    have hall : (bs.zipIdx pos).filter (fun p => !out p.2) = bs.zipIdx pos :=
      List.filter_eq_self.2 fun p hp => by simp [hout p hp]
    rw [sieveBytes, hall, List.zipIdx_map_fst]
    rfl

/-- Where all bytes of a character share one fate, sieving characters is sieving bytes. -/
theorem bytes_sieve {t : Text} (h : ∀ pre c rest, t = pre ++ c :: rest → ∀ j < c.utf8Size,
      out (pos + byteLength pre + j) = out (pos + byteLength pre)) :
    bytes (sieve out pos t) = sieveBytes out pos (bytes t) := by
  induction t generalizing pos with
  | nil => rfl
  | cons c t ih =>
    have hchar : sieveBytes out pos (String.utf8EncodeChar c) = if out pos then [] else String.utf8EncodeChar c := by
      refine sieveBytes_of_forall fun j hj => ?_
      exact h [] c t rfl j (by simpa using hj)
    have hrest : bytes (sieve out (pos + c.utf8Size) t) = sieveBytes out (pos + c.utf8Size) (bytes t) := by
      refine ih fun pre d rest ht j hj => ?_
      have hd := h (c :: pre) d rest (by rw [ht, List.cons_append]) j hj
      rwa [byteLength_cons, ← Nat.add_assoc] at hd
    rw [bytes_cons, sieveBytes_append, hchar, String.length_utf8EncodeChar, ← hrest, sieve]
    cases out pos with
    | true => rfl
    | false => exact bytes_cons c _

end Text

/-! ### Spans that can be cut out -/

namespace Span

/-- Spans whose ends are positions of a text hit all bytes of a character or none. -/
theorem hits_char {spans : List Span} {pre rest : Text} {c : Char}
    (hends : ∀ s ∈ spans, IsPosition (pre ++ c :: rest) s.start ∧ IsPosition (pre ++ c :: rest) s.stop)
    {j : Nat} (hj : j < c.utf8Size) : hits spans (byteLength pre + j) = hits spans (byteLength pre) := by
  rw [Bool.eq_iff_iff, hits_iff, hits_iff]
  refine exists_congr fun s => and_congr_right fun hs => ?_
  have hstart := (hends s hs).1.le_or_le
  have hstop := (hends s hs).2.le_or_le
  omega

end Span

namespace Pruned

/-- Only spans whose ends are positions of the text can be cut out of it. -/
theorem isPosition_of_cutSpans {pre t kept : Text} {spans : List Span}
    (h : cutSpans (byteLength pre) t spans = some kept) :
    ∀ s ∈ spans, IsPosition (pre ++ t) s.start ∧ IsPosition (pre ++ t) s.stop := by
  induction spans generalizing pre t kept with
  | nil => simp
  | cons s spans ih =>
    rw [cutSpans] at h
    split at h
    · cases h
    · next hstart =>
      simp only [bind, Option.bind_eq_some_iff, Prod.exists] at h
      obtain ⟨x, t₁, hx, w, t₂, hw, later, hlater, -⟩ := h
      obtain ⟨rfl, hxlen⟩ := splitAtByte?_eq_some hx
      obtain ⟨rfl, hwlen⟩ := splitAtByte?_eq_some hw
      have hordered := s.ordered
      have hstop : s.stop = byteLength (pre ++ x ++ w) := by
        simp only [byteLength_append]
        omega
      rw [hstop] at hlater
      refine List.forall_mem_cons.2 ⟨⟨⟨pre ++ x, w ++ t₂, by simp, ?_⟩, ⟨pre ++ x ++ w, t₂, by simp, hstop.symm⟩⟩, ?_⟩
      · rw [byteLength_append]
        omega
      · simpa using ih hlater

/-- Merged spans can be cut out exactly if all their ends are positions of the text. -/
theorem cutSpans_merge_eq_none_iff {t : Text} {spans : List Span} :
    cutSpans 0 t (Span.merge spans) = none ↔
      ¬ ∀ m ∈ Span.merge spans, IsPosition t m.start ∧ IsPosition t m.stop := by
  constructor
  · intro hnone hends
    rw [cutSpans_merge_of_ends hends] at hnone
    cases hnone
  · intro hends
    cases hcut : cutSpans 0 t (Span.merge spans) with
    | none => rfl
    | some kept =>
      have hcut : cutSpans (byteLength []) t (Span.merge spans) = some kept := hcut
      exact absurd (isPosition_of_cutSpans hcut) hends

/-- What is left has the bytes outside the spans. -/
theorem bytes_sieve_hits {t : Text} {spans : List Span}
    (hends : ∀ m ∈ Span.merge spans, IsPosition t m.start ∧ IsPosition t m.stop) :
    bytes (sieve (Span.hits spans) 0 t) = sieveBytes (Span.hits spans) 0 (bytes t) := by
  refine bytes_sieve fun pre c rest ht j hj => ?_
  subst ht
  have hmerged := Span.hits_char hends hj
  rwa [Span.hits_merge, Span.hits_merge, ← Nat.zero_add (byteLength pre)] at hmerged

end Pruned

/-! ### Carrying out a plan -/

theorem Plan.cut?_of_count_pos {p : Plan} (h : 0 < p.count) (source : Text) :
    p.cut? source = (Pruned.cutSpans 0 source (Span.merge p.removed)).map fun t =>
      .changed (Pruned.collapseBlankLines t) p.count := by
  have hne : ¬ p.isEmpty = true := by
    rw [isEmpty, decide_eq_true_eq]
    omega
  rw [cut?, if_neg hne]
  cases Pruned.cutSpans 0 source (Span.merge p.removed) with
  | none => rfl
  | some t => rfl

/-- A plan that was made for a stylesheet can be carried out. -/
theorem Stylesheet.cut?_plan_ne_none (css : Text) (u : Usage) : ((parse css).plan u).cut? css ≠ none := by
  rcases Nat.eq_zero_or_pos ((parse css).plan u).count with hzero | hpos
  · have hempty : ((parse css).plan u).isEmpty = true := decide_eq_true hzero
    rw [Plan.cut?, if_pos hempty]
    exact Option.some_ne_none _
  · rw [Plan.cut?_of_count_pos hpos, Pruned.cutSpans_merge_eq_sieve fun s hs => isPosition_of_mem_removed hs]
    exact Option.some_ne_none _

/-- A plan that counts something fails exactly if an end of a merged span is not the boundary of a
character. Otherwise it leaves the one text whose bytes are those of the source outside the planned
spans, blank lines reduced. A plan that was made for the source never fails. -/
theorem cutting_filters_bytes (css : Text) {p : Plan} (hcount : 0 < p.count) :
    (p.cut? css = none ↔ ∃ m ∈ Span.merge p.removed, ¬ css.IsBoundary m.start ∨ ¬ css.IsBoundary m.stop) ∧
    ((∀ m ∈ Span.merge p.removed, css.IsBoundary m.start ∧ css.IsBoundary m.stop) →
      ∃ t, (∀ t', bytes t' = sieveBytes (Span.hits p.removed) 0 (bytes css) ↔ t' = t) ∧
        p.cut? css = some (.changed (Pruned.collapseBlankLines t) p.count)) ∧
    ∀ u, ((Stylesheet.parse css).plan u).cut? css ≠ none := by
  simp only [← isPosition_iff_isBoundary]
  rw [Plan.cut?_of_count_pos hcount]
  refine ⟨?_, fun hends => ?_, Stylesheet.cut?_plan_ne_none css⟩
  · rw [Option.map_eq_none_iff, Pruned.cutSpans_merge_eq_none_iff]
    simp only [Classical.not_forall, exists_prop, Classical.not_and_iff_not_or_not]
  · refine ⟨sieve (Span.hits p.removed) 0 css, fun t' => ?_, ?_⟩
    · rw [← Pruned.bytes_sieve_hits hends, bytes_inj]
    · rw [Pruned.cutSpans_merge_of_ends hends]
      rfl

/-- Two spans out of order, of which one ends inside a character: merged, they end between characters. The
one alone cannot be cut out. -/
theorem cutting_filters_bytes_overlap :
    (⟨[⟨3, 6, by decide⟩, ⟨1, 4, by decide⟩], 2⟩ : Plan).cut? "aé€b".toList = some (.changed "ab".toList 2) ∧
    (⟨[⟨1, 4, by decide⟩], 1⟩ : Plan).cut? "aé€b".toList = none := by
  constructor
  · have hmerge : Span.merge [⟨3, 6, by decide⟩, ⟨1, 4, by decide⟩] = [⟨1, 6, by decide⟩] := by
      have hperm : [(⟨1, 4, by decide⟩ : Span), ⟨3, 6, by decide⟩].Perm [⟨3, 6, by decide⟩, ⟨1, 4, by decide⟩] :=
        .swap _ _ _
      exact Span.merge_eq_of_perm hperm (by decide)
    have hplan := cutting_filters_bytes "aé€b".toList (p := ⟨[⟨3, 6, by decide⟩, ⟨1, 4, by decide⟩], 2⟩) (by decide)
    obtain ⟨t, ht, hcut⟩ := hplan.2.1 (by rw [hmerge]; decide +kernel)
    obtain rfl := (ht "ab".toList).1 (by decide +kernel)
    rw [hcut]
    rfl
  · have hplan := cutting_filters_bytes "aé€b".toList (p := ⟨[⟨1, 4, by decide⟩], 1⟩) (by decide)
    have hmerge : Span.merge [⟨1, 4, by decide⟩] = [⟨1, 4, by decide⟩] := by decide +kernel
    refine hplan.1.2 ⟨⟨1, 4, by decide⟩, ?_, .inr (by decide +kernel)⟩
    rw [hmerge]
    exact .head _

end Cull
