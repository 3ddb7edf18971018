import Cull.Proofs.CutText

/-!
# Merged spans as a normal form

Merged spans have a gap between one and the next. The bytes that they cover do not tell them
apart: an empty span covers none, and still it is kept, unless it touches another one. But it
touches a position. Spans with gaps are told by the bytes that they cover together with the
positions that they touch (`eq_of_separated`). Merging changes neither, so two lists of spans
are merged alike exactly if they agree in both (`merge_eq_iff`). Hence the order of the spans
does not matter, and merged spans stay as they are.
-/

namespace Cull.Span

/-- The position lies in one of the spans or at an end of it. -/
def touches (spans : List Span) (i : Nat) : Bool := spans.any fun s => s.start ≤ i && i ≤ s.stop

theorem touches_iff {spans : List Span} {i : Nat} :
    touches spans i = true ↔ ∃ s ∈ spans, s.start ≤ i ∧ i ≤ s.stop := by
  simp [touches]

/-- Merging changes no position's membership. -/
theorem touches_merge (spans : List Span) (i : Nat) : touches (merge spans) i = touches spans i := by
  refine any_merge (fun s t _ hle htouch => ?_) spans
  rw [Bool.eq_iff_iff]
  simp only [Bool.and_eq_true, Bool.or_eq_true, decide_eq_true_eq]
  omega

/-! ### Spans with gaps -/

section

variable {s t : Span} {a b : List Span} {i : Nat}

/-- What is so at `i` for a span behind the first is what is so at `i` for any span, if `i` lies behind the first. -/
theorem any_tail {p : Span → Bool} (hp : ∀ s, p s = true → s.start ≤ i ∧ i ≤ s.stop)
    (h : (s :: a).Pairwise fun s t => s.stop < t.start) : a.any p = (decide (s.stop < i) && (s :: a).any p) := by
  rw [Bool.eq_iff_iff, Bool.and_eq_true, decide_eq_true_eq, List.any_eq_true, List.any_eq_true]
  constructor
  · rintro ⟨t, ht, hpt⟩
    have hgap := (List.pairwise_cons.1 h).1 t ht
    have hstart := (hp t hpt).1
    exact ⟨by omega, t, .tail _ ht, hpt⟩
  · rintro ⟨hi, t, ht, hpt⟩
    rcases List.mem_cons.1 ht with rfl | ht
    · have hstop := (hp t hpt).2
      omega
    · exact ⟨t, ht, hpt⟩

theorem hits_tail (h : (s :: a).Pairwise fun s t => s.stop < t.start) :
    hits a i = (decide (s.stop < i) && hits (s :: a) i) := by
  refine any_tail (fun s hs => ?_) h
  simp only [Bool.and_eq_true, decide_eq_true_eq] at hs
  omega

theorem touches_tail (h : (s :: a).Pairwise fun s t => s.stop < t.start) :
    touches a i = (decide (s.stop < i) && touches (s :: a) i) :=
  any_tail (fun s hs => by simpa using hs) h

/-- Spans with gaps touch nothing before the start of the first. -/
theorem start_le_of_touches (hb : (t :: b).Pairwise fun s t => s.stop < t.start)
    (h : ∀ i, touches (s :: a) i = touches (t :: b) i) : t.start ≤ s.start := by
  have htouch : touches (t :: b) s.start = true := by
    rw [← h, touches_iff]
    exact ⟨s, .head _, Nat.le_refl _, s.ordered⟩
  obtain ⟨u, hu, hstart, -⟩ := touches_iff.1 htouch
  rcases List.mem_cons.1 hu with rfl | hu
  · exact hstart
  · have hgap := (List.pairwise_cons.1 hb).1 u hu
    have hordered := t.ordered
    omega

/-- The byte at the end of the first span is covered by none. -/
theorem stop_le_of_hits (ha : (s :: a).Pairwise fun s t => s.stop < t.start) (hstart : t.start = s.start)
    (h : ∀ i, hits (s :: a) i = hits (t :: b) i) : t.stop ≤ s.stop := by
  have hgap : hits (t :: b) s.stop = false := by
    rw [← h, hits_eq_false_iff]
    exact List.forall_mem_cons.2 ⟨.inr (Nat.le_refl _), fun u hu => .inl ((List.pairwise_cons.1 ha).1 u hu)⟩
  have hordered := s.ordered
  have houtside := hits_eq_false_iff.1 hgap t (.head _)
  omega

end

/-- Spans with gaps are told by the bytes that they cover and the positions that they touch. -/
theorem eq_of_separated {a b : List Span} (ha : a.Pairwise fun s t => s.stop < t.start)
    (hb : b.Pairwise fun s t => s.stop < t.start) (hhits : ∀ i, hits a i = hits b i)
    (htouches : ∀ i, touches a i = touches b i) : a = b := by
  have hne : ∀ (s : Span) (spans : List Span), touches (s :: spans) s.start = true := fun s spans =>
    touches_iff.2 ⟨s, .head _, Nat.le_refl _, s.ordered⟩
  induction a generalizing b with
  | nil =>
    cases b with
    | nil => rfl
    | cons t b => exact absurd ((htouches t.start).trans (hne t b)) (by simp [touches])
  | cons s a ih =>
    cases b with
    | nil => exact absurd ((htouches s.start).symm.trans (hne s a)) (by simp [touches])
    | cons t b =>
      have hstart : s.start = t.start :=
        Nat.le_antisymm (start_le_of_touches ha fun i => (htouches i).symm) (start_le_of_touches hb htouches)
      have hstop : s.stop = t.stop :=
        Nat.le_antisymm (stop_le_of_hits hb hstart fun i => (hhits i).symm) (stop_le_of_hits ha hstart.symm hhits)
      have hfirst : s = t := by
        cases s
        cases t
        cases hstart
        cases hstop
        rfl
      subst hfirst
      -- the spans behind the first agree because they begin behind its end
      have hrest : a = b := by
        refine ih (List.pairwise_cons.1 ha).2 (List.pairwise_cons.1 hb).2 (fun i => ?_) fun i => ?_
        · rw [hits_tail ha, hits_tail hb, hhits]
        · rw [touches_tail ha, touches_tail hb, htouches]
      rw [hrest]

/-! ### Merging -/

/-- Two lists of spans are merged alike exactly if they cover the same bytes and touch the same positions. -/
theorem merge_eq_iff {a b : List Span} :
    merge a = merge b ↔ ∀ i, hits a i = hits b i ∧ touches a i = touches b i := by
  constructor
  · intro h i
    rw [← hits_merge a, ← hits_merge b, ← touches_merge a, ← touches_merge b, h]
    exact ⟨rfl, rfl⟩
  · intro h
    refine eq_of_separated (merge_separated a) (merge_separated b) (fun i => ?_) fun i => ?_
    · rw [hits_merge, hits_merge, (h i).1]
    · rw [touches_merge, touches_merge, (h i).2]

/-- Merging brings spans into a normal form: there is a gap between one and the next, the same bytes
are covered, and two lists have the same form exactly if they cover the same bytes and touch the
same positions. So the order of the spans does not matter, and merging again changes nothing. -/
theorem merging_is_canonical (spans : List Span) :
    (merge spans).Pairwise (fun s t => s.stop < t.start) ∧
    (∀ i, hits (merge spans) i = hits spans i) ∧
    (∀ other, merge other = merge spans ↔ ∀ i, hits other i = hits spans i ∧ touches other i = touches spans i) ∧
    (∀ other, other.Perm spans → merge other = merge spans) ∧
    merge (merge spans) = merge spans := by
  refine ⟨merge_separated spans, hits_merge spans, fun other => merge_eq_iff, fun other hperm => ?_, ?_⟩
  · exact merge_eq_iff.2 fun i => ⟨hperm.any_eq, hperm.any_eq⟩
  · exact merge_eq_iff.2 fun i => ⟨hits_merge spans i, touches_merge spans i⟩

/-- Spans inside one another, next to one another and twice, an empty one that touches another and one that is left
alone. -/
def scattered : List Span :=
  [⟨10, 20, by decide⟩, ⟨0, 5, by decide⟩, ⟨5, 8, by decide⟩, ⟨12, 15, by decide⟩, ⟨30, 30, by decide⟩,
    ⟨20, 20, by decide⟩, ⟨0, 5, by decide⟩]

theorem merging_is_canonical_scattered :
    scattered.reverse.Perm scattered ∧ merge scattered.reverse = merge scattered ∧
      merge scattered = [⟨0, 8, by decide⟩, ⟨10, 20, by decide⟩, ⟨30, 30, by decide⟩] := by
  have hperm := scattered.reverse_perm
  obtain ⟨-, -, -, horder, -⟩ := merging_is_canonical scattered
  have hsorted : [⟨0, 5, by decide⟩, ⟨0, 5, by decide⟩, ⟨5, 8, by decide⟩, ⟨10, 20, by decide⟩, ⟨12, 15, by decide⟩,
      ⟨20, 20, by decide⟩, ⟨30, 30, by decide⟩].Perm scattered := by decide
  exact ⟨hperm, horder _ hperm, merge_eq_of_perm hsorted (by decide)⟩

end Cull.Span
