import Cull.Proofs.BlankLines
import Cull.Proofs.PlanExact
import Cull.Pruning.Cut

/-!
# Cutting as sieving

Cutting spans out of a text sorts and merges the spans and then splits the text
at their ends. `sieve` says what is left in one pass: the characters whose offset
is in none of the spans. The two agree when every end of a span is a position of
the text (`cutSpans_merge_eq_sieve`).
-/

namespace Cull

open Text

/-! ### Merged spans -/

namespace Span

/-- The byte lies in one of the spans. -/
def hits (spans : List Span) (i : Nat) : Bool := spans.any fun s => s.start ≤ i && i < s.stop

theorem hits_iff {spans : List Span} {i : Nat} : hits spans i = true ↔ ∃ s ∈ spans, s.start ≤ i ∧ i < s.stop := by
  simp [hits]

theorem hits_eq_false_iff {spans : List Span} {i : Nat} :
    hits spans i = false ↔ ∀ s ∈ spans, i < s.start ∨ s.stop ≤ i := by
  rw [Bool.eq_false_iff, ne_eq, hits_iff]
  constructor
  · intro h s hs
    by_cases hlt : i < s.start
    · exact .inl hlt
    · exact .inr (Nat.le_of_not_lt fun hstop => h ⟨s, hs, Nat.le_of_not_lt hlt, hstop⟩)
  · rintro h ⟨s, hs, hstart, hstop⟩
    have := h s hs
    omega

theorem hits_cons (s : Span) (spans : List Span) (i : Nat) :
    hits (s :: spans) i = (s.start ≤ i && i < s.stop || hits spans i) := rfl

/-- A property that touching spans have together exactly if one of them has it is not changed by merging. -/
theorem any_mergeInto {p : Span → Bool} (hp : ∀ (s t : Span) (h : s.start ≤ max s.stop t.stop),
      s.start ≤ t.start → t.start ≤ s.stop → p ⟨s.start, max s.stop t.stop, h⟩ = (p s || p t))
    {last : Span} {rest : List Span} (hsorted : (last :: rest).Pairwise fun s t => s.start ≤ t.start) :
    (mergeInto last rest).any p = (last :: rest).any p := by
  induction rest generalizing last with
  | nil => rfl
  | cons s rest ih =>
    obtain ⟨hlast, hrest⟩ := List.pairwise_cons.1 hsorted
    rw [mergeInto]
    split
    · next htouch =>
      rw [ih]
      · rw [List.any_cons, hp last s _ (hlast s (.head _)) htouch, List.any_cons, List.any_cons, Bool.or_assoc]
      · exact List.pairwise_cons.2 ⟨fun t ht => hlast t (.tail _ ht), (List.pairwise_cons.1 hrest).2⟩
    · rw [List.any_cons, ih hrest, List.any_cons (a := last)]

/-- Merged spans have a gap between one and the next, and begin no earlier than the first. -/
theorem mergeInto_separated {last : Span} {rest : List Span}
    (hsorted : (last :: rest).Pairwise fun s t => s.start ≤ t.start) :
    (mergeInto last rest).Pairwise (fun s t => s.stop < t.start) ∧ ∀ s ∈ mergeInto last rest, last.start ≤ s.start := by
  induction rest generalizing last with
  | nil => simp [mergeInto]
  | cons s rest ih =>
    obtain ⟨hlast, hrest⟩ := List.pairwise_cons.1 hsorted
    have hle := hlast s (.head _)
    rw [mergeInto]
    split
    · exact ih (List.pairwise_cons.2 ⟨fun t ht => hlast t (.tail _ ht), (List.pairwise_cons.1 hrest).2⟩)
    · next hgap =>
      obtain ⟨hseparated, hstart⟩ := ih hrest
      refine ⟨List.pairwise_cons.2 ⟨fun t ht => ?_, hseparated⟩, List.forall_mem_cons.2 ⟨Nat.le_refl _, fun t ht => ?_⟩⟩
      · have := hstart t ht
        omega
      · have := hstart t ht
        omega

/-- The ends of merged spans are ends of the spans. -/
theorem mergeInto_ends {last : Span} {rest : List Span} {m : Span} (h : m ∈ mergeInto last rest) :
    (∃ s ∈ last :: rest, s.start = m.start) ∧ ∃ s ∈ last :: rest, s.stop = m.stop := by
  induction rest generalizing last with
  | nil =>
    rw [mergeInto, List.mem_singleton] at h
    subst h
    exact ⟨⟨m, .head _, rfl⟩, ⟨m, .head _, rfl⟩⟩
  | cons s rest ih =>
    rw [mergeInto] at h
    split at h
    · obtain ⟨⟨a, ha, hstart⟩, ⟨b, hb, hstop⟩⟩ := ih h
      constructor
      · rcases List.mem_cons.1 ha with rfl | ha
        · exact ⟨last, .head _, hstart⟩
        · exact ⟨a, .tail _ (.tail _ ha), hstart⟩
      · rcases List.mem_cons.1 hb with rfl | hb
        · -- the later of the two ends
          by_cases hle : last.stop ≤ s.stop
          · exact ⟨s, .tail _ (.head _), by simpa [Nat.max_eq_right hle] using hstop⟩
          · exact ⟨last, .head _, by simpa [Nat.max_eq_left (Nat.le_of_not_le hle)] using hstop⟩
        · exact ⟨b, .tail _ (.tail _ hb), hstop⟩
    · rcases List.mem_cons.1 h with rfl | h
      · exact ⟨⟨m, .head _, rfl⟩, ⟨m, .head _, rfl⟩⟩
      · obtain ⟨⟨a, ha, hstart⟩, ⟨b, hb, hstop⟩⟩ := ih h
        exact ⟨⟨a, .tail _ ha, hstart⟩, ⟨b, .tail _ hb, hstop⟩⟩

theorem le_iff {s t : Span} : le s t = true ↔ s.start < t.start ∨ s.start = t.start ∧ s.stop ≤ t.stop := by
  simp [le]

theorem pairwise_le_mergeSort (spans : List Span) : (spans.mergeSort le).Pairwise fun s t => le s t = true := by
  refine List.pairwise_mergeSort ?_ ?_ spans
  · intro a b c hab hbc
    rw [le_iff] at *
    omega
  · intro a b
    rw [Bool.or_eq_true, le_iff, le_iff]
    omega

theorem sorted_mergeSort (spans : List Span) : (spans.mergeSort le).Pairwise fun s t => s.start ≤ t.start := by
  refine (pairwise_le_mergeSort spans).imp fun h => ?_
  rw [le_iff] at h
  omega

/-- However spans are sorted, they are merged in the one order. -/
theorem merge_eq_of_perm {spans sorted : List Span} (hperm : sorted.Perm spans)
    (hsorted : sorted.Pairwise fun s t => le s t = true) : merge spans = mergeSorted sorted := by
  have hsort : spans.mergeSort le = sorted := by
    refine List.Perm.eq_of_pairwise ?_ (pairwise_le_mergeSort spans) hsorted
      ((List.mergeSort_perm spans le).trans hperm.symm)
    intro s t _ _ hst hts
    rw [le_iff] at hst hts
    obtain ⟨hstart, hstop⟩ : s.start = t.start ∧ s.stop = t.stop := by omega
    cases s
    cases t
    cases hstart
    cases hstop
    rfl
  rw [merge, hsort]

theorem any_merge {p : Span → Bool} (hp : ∀ (s t : Span) (h : s.start ≤ max s.stop t.stop),
      s.start ≤ t.start → t.start ≤ s.stop → p ⟨s.start, max s.stop t.stop, h⟩ = (p s || p t)) (spans : List Span) :
    (merge spans).any p = spans.any p := by
  have hsort : (spans.mergeSort le).any p = spans.any p := by
    rw [Bool.eq_iff_iff, List.any_eq_true, List.any_eq_true]
    simp only [List.mem_mergeSort]
  have hsorted := sorted_mergeSort spans
  rw [merge, ← hsort]
  cases hs : spans.mergeSort le with
  | nil => rfl
  | cons last rest =>
    rw [hs] at hsorted
    exact any_mergeInto hp hsorted

/-- Merging changes no byte's membership. -/
theorem hits_merge (spans : List Span) (i : Nat) : hits (merge spans) i = hits spans i := by
  refine any_merge (fun s t _ hle htouch => ?_) spans
  rw [Bool.eq_iff_iff]
  simp only [Bool.and_eq_true, Bool.or_eq_true, decide_eq_true_eq]
  omega

theorem merge_separated (spans : List Span) : (merge spans).Pairwise fun s t => s.stop < t.start := by
  have hsorted := sorted_mergeSort spans
  rw [merge]
  cases hs : spans.mergeSort le with
  | nil => exact .nil
  | cons last rest =>
    rw [hs] at hsorted
    exact (mergeInto_separated hsorted).1

theorem merge_ends {spans : List Span} {m : Span} (h : m ∈ merge spans) :
    (∃ s ∈ spans, s.start = m.start) ∧ ∃ s ∈ spans, s.stop = m.stop := by
  rw [merge] at h
  have hmem : ∀ s, s ∈ spans.mergeSort le ↔ s ∈ spans := fun s => List.mem_mergeSort
  cases hs : spans.mergeSort le with
  | nil =>
    rw [hs] at h
    cases h
  | cons last rest =>
    rw [hs] at h
    simp only [← hmem, hs]
    exact mergeInto_ends h

end Span

/-! ### Sieving -/

namespace Text

/-- The characters of a text that begins at byte `pos` whose offsets are not struck out. -/
def sieve (out : Nat → Bool) (pos : Nat) : Text → Text
  | [] => []
  | c :: t => if out pos then sieve out (pos + c.utf8Size) t else c :: sieve out (pos + c.utf8Size) t

variable {out out' : Nat → Bool} {pos : Nat}

theorem sieve_append (x y : Text) :
    sieve out pos (x ++ y) = sieve out pos x ++ sieve out (pos + byteLength x) y := by
  induction x generalizing pos with
  | nil => rfl
  | cons c x ih =>
    simp only [List.cons_append, sieve, ih, byteLength_cons, Nat.add_assoc]
    split
    · rfl
    · rfl

/-- Only the offsets of the text count. -/
theorem sieve_congr {t : Text} (h : ∀ i, pos ≤ i → i < pos + byteLength t → out i = out' i) :
    sieve out pos t = sieve out' pos t := by
  induction t generalizing pos with
  | nil => rfl
  | cons c t ih =>
    have hc := c.utf8Size_pos
    rw [byteLength_cons] at h
    rw [sieve, sieve, h pos (Nat.le_refl _) (by omega), ih fun i hlo hhi => h i (by omega) (by omega)]

theorem sieve_eq_self {t : Text} (h : ∀ i, pos ≤ i → i < pos + byteLength t → out i = false) : sieve out pos t = t := by
  have hnone : ∀ (t : Text) (pos : Nat), sieve (fun _ => false) pos t = t := by
    intro t
    induction t with
    | nil => intro pos; rfl
    | cons c t ih => intro pos; simp [sieve, ih]
  exact (sieve_congr h).trans (hnone t pos)

theorem sieve_eq_nil {t : Text} (h : ∀ i, pos ≤ i → i < pos + byteLength t → out i = true) : sieve out pos t = [] := by
  have hall : ∀ (t : Text) (pos : Nat), sieve (fun _ => true) pos t = [] := by
    intro t
    induction t with
    | nil => intro pos; rfl
    | cons c t ih => intro pos; simp [sieve, ih]
  exact (sieve_congr h).trans (hall t pos)

theorem sieve_sublist (out : Nat → Bool) (pos : Nat) (t : Text) : List.Sublist (sieve out pos t) t := by
  induction t generalizing pos with
  | nil => exact .slnil
  | cons c t ih =>
    rw [sieve]
    split
    · exact (ih _).cons c
    · exact (ih _).cons_cons c

theorem byteLength_le_of_sublist {s t : Text} (h : List.Sublist s t) : byteLength s ≤ byteLength t := by
  induction h with
  | slnil => exact Nat.le_refl _
  | cons c _ ih =>
    rw [byteLength_cons]
    exact Nat.le_trans ih (Nat.le_add_left _ _)
  | cons_cons c _ ih =>
    rw [byteLength_cons, byteLength_cons]
    exact Nat.add_le_add_left ih _

/-- If a stretch of text is struck out, what is left is shorter. -/
theorem byteLength_sieve_lt {a w b : Text} (hw : w ≠ [])
    (h : ∀ i, pos + byteLength a ≤ i → i < pos + byteLength a + byteLength w → out i = true) :
    byteLength (sieve out pos (a ++ (w ++ b))) < byteLength (a ++ (w ++ b)) := by
  have hfront := byteLength_le_of_sublist (sieve_sublist out pos a)
  have hback := byteLength_le_of_sublist (sieve_sublist out (pos + byteLength a + byteLength w) b)
  have hpos := byteLength_pos hw
  rw [sieve_append, sieve_append, sieve_eq_nil h, List.nil_append]
  simp only [byteLength_append]
  omega

/-- The offset is a position of the text: the end of a text that it begins with. -/
def IsPosition (t : Text) (i : Nat) : Prop := ∃ x y, t = x ++ y ∧ byteLength x = i

end Text

namespace Pruned

open Cull.Span

/-- Spans with gaps between them, whose ends are positions of the text, can be cut out, and what is
left are the characters outside them. -/
theorem cutSpans_eq_sieve {pre t : Text} {spans : List Span} (hseparated : spans.Pairwise fun s t => s.stop < t.start)
    (hpre : ∀ s ∈ spans, byteLength pre ≤ s.start)
    (hends : ∀ s ∈ spans, IsPosition (pre ++ t) s.start ∧ IsPosition (pre ++ t) s.stop) :
    cutSpans (byteLength pre) t spans = some (sieve (hits spans) (byteLength pre) t) := by
  induction spans generalizing pre t with
  | nil =>
    have hself : sieve (hits []) (byteLength pre) t = t := sieve_eq_self fun _ _ _ => rfl
    rw [cutSpans, hself]
  | cons s spans ih =>
    obtain ⟨hs, hspans⟩ := List.pairwise_cons.1 hseparated
    -- the text before the span, in it and behind it
    obtain ⟨⟨a, b, hab, ha⟩, ⟨a', y, hay, ha'⟩⟩ := hends s (.head _)
    obtain ⟨x, rfl, rfl⟩ := append_eq_append_of_le hab (ha ▸ hpre s (.head _))
    have hordered := s.ordered
    obtain ⟨w, rfl, rfl⟩ := append_eq_append_of_le (hab.symm.trans hay) (by omega)
    have hlater : cutSpans (byteLength (pre ++ x ++ w)) y spans =
        some (sieve (hits spans) (byteLength (pre ++ x ++ w)) y) := by
      refine ih hspans (fun r hr => ?_) fun r hr => ?_
      · have := hs r hr
        omega
      · rw [← hay]
        exact hends r (.tail _ hr)
    simp only [byteLength_append] at ha ha' hlater
    have hcut : cutSpans (byteLength pre) (x ++ (w ++ y)) (s :: spans) =
        (cutSpans s.stop y spans).map (x ++ ·) := by
      have hx : s.start - byteLength pre = byteLength x := by omega
      have hw : s.stop - s.start = byteLength w := by omega
      rw [cutSpans, if_neg (by omega), hx, hw]
      simp only [splitAtByte?_append, bind, Option.bind_some, pure]
      cases cutSpans s.stop y spans <;> rfl
    -- nothing of the text before the span is struck out, all of the text in it is
    have hbefore : sieve (hits (s :: spans)) (byteLength pre) x = x := by
      refine sieve_eq_self fun i _ hi => ?_
      refine hits_eq_false_iff.2 (List.forall_mem_cons.2 ⟨by omega, fun r hr => ?_⟩)
      have := hs r hr
      omega
    have hinside : sieve (hits (s :: spans)) (byteLength pre + byteLength x) w = [] :=
      sieve_eq_nil fun i hlo hhi => hits_iff.2 ⟨s, .head _, by omega, by omega⟩
    have hbehind : sieve (hits (s :: spans)) (byteLength pre + byteLength x + byteLength w) y =
        sieve (hits spans) (byteLength pre + byteLength x + byteLength w) y := by
      refine sieve_congr fun i hi _ => ?_
      rw [hits_cons, Bool.or_eq_right_iff_imp]
      simp only [Bool.and_eq_true, decide_eq_true_eq]
      omega
    rw [hcut, ← ha', hlater, Option.map_some, sieve_append, sieve_append, hbefore, hinside, hbehind, List.nil_append]

/-- Merged spans whose ends are positions of the text can be cut out, and the characters outside them are left. -/
theorem cutSpans_merge_of_ends {t : Text} {spans : List Span}
    (hends : ∀ m ∈ merge spans, IsPosition t m.start ∧ IsPosition t m.stop) :
    cutSpans 0 t (merge spans) = some (sieve (hits spans) 0 t) := by
  have hmerged : ∀ m ∈ merge spans, IsPosition ([] ++ t) m.start ∧ IsPosition ([] ++ t) m.stop := hends
  have hcut := cutSpans_eq_sieve (merge_separated spans) (fun _ _ => Nat.zero_le _) hmerged
  rw [byteLength_nil] at hcut
  rw [hcut, sieve_congr fun i _ _ => hits_merge spans i]

/-- Whatever spans are merged and cut out, the characters outside them are left. -/
theorem cutSpans_merge_eq_sieve {t : Text} {spans : List Span}
    (hends : ∀ s ∈ spans, IsPosition t s.start ∧ IsPosition t s.stop) :
    cutSpans 0 t (merge spans) = some (sieve (hits spans) 0 t) := by
  refine cutSpans_merge_of_ends fun m hm => ?_
  obtain ⟨⟨a, ha, hstart⟩, ⟨b, hb, hstop⟩⟩ := merge_ends hm
  exact ⟨hstart ▸ (hends a ha).1, hstop ▸ (hends b hb).2⟩

end Pruned

/-! ### What pruning leaves -/

/-- The part of a text at byte `pos` of a stylesheet that a plan leaves. -/
def Plan.kept (p : Plan) (pos : Nat) (t : Text) : Text := sieve (Span.hits p.removed) pos t

namespace Stylesheet

/-- The ends of the spans of rules are positions of the source. -/
theorem isPosition_of_mem_nodes {source : Text} {n : Rule} (h : n ∈ (parse source).nodes) :
    IsPosition source n.span.start ∧ IsPosition source n.span.stop := by
  obtain ⟨a, b, hsource, hstart, hstop⟩ := slice?_eq_some n.span.ordered ((wellFormed_parse source).node_text h)
  refine ⟨⟨a, n.text ++ b, hsource, hstart⟩, ⟨a ++ n.text, b, ?_, ?_⟩⟩
  · rw [List.append_assoc]
    exact hsource
  · rw [byteLength_append]
    exact hstop

theorem isPosition_of_mem_removed {source : Text} {u : Usage} {s : Span} (h : s ∈ ((parse source).plan u).removed) :
    IsPosition source s.start ∧ IsPosition source s.stop := by
  obtain ⟨n, hn, rfl⟩ := Rule.exists_node_of_mem_removed h
  exact isPosition_of_mem_nodes hn

end Stylesheet

/-- Pruning always comes to an end: nothing is to go, or what the plan leaves is squeezed. -/
theorem prune_eq (css : Text) (u : Usage) :
    prune css u = if ((Stylesheet.parse css).plan u).count = 0 then .unchanged
      else
        .changed (squeeze 0 0 (((Stylesheet.parse css).plan u).kept 0 css)) ((Stylesheet.parse css).plan u).count := by
  have hends : ∀ s ∈ ((Stylesheet.parse css).plan u).removed, IsPosition css s.start ∧ IsPosition css s.stop :=
    fun s hs => Stylesheet.isPosition_of_mem_removed hs
  have hcut := Pruned.cutSpans_merge_eq_sieve hends
  unfold prune Plan.cut? Plan.isEmpty Plan.kept
  by_cases h : ((Stylesheet.parse css).plan u).count = 0
  · simp [h]
  · simp [h, hcut, Pruned.collapseBlankLines_eq_squeeze]

theorem prune_eq_changed {css text : Text} {u : Usage} {n : Nat} (h : prune css u = .changed text n) :
    text = squeeze 0 0 (((Stylesheet.parse css).plan u).kept 0 css) := by
  rw [prune_eq] at h
  split at h
  · cases h
  · cases h
    rfl

/-! ### Shrinking -/

/-- If something is counted, a span is planned. -/
theorem Rule.removed_ne_nil {rules : List Rule} {u : Usage} (h : (planAll u rules).count ≠ 0) :
    (planAll u rules).removed ≠ [] := by
  induction rules using children_induction with
  | nil => exact absurd rfl h
  | cons r rest ihchildren ih =>
    rw [planAll, Plan.append, plan_eq] at h ⊢
    split at h
    · next hgoes => simp [hgoes]
    · next hstays =>
      simp only [hstays, if_false]
      intro hnil
      obtain ⟨hinside, hrest⟩ := List.append_eq_nil_iff.1 hnil
      have hcount : (planAll u r.children).count = 0 := Decidable.not_not.1 fun hne => ihchildren hne hinside
      have hcount' : (planAll u rest).count = 0 := Decidable.not_not.1 fun hne => ih hne hrest
      exact h (by rw [hcount, hcount'])

/-- What a plan leaves is shorter, unless nothing is to go. -/
theorem byteLength_kept_lt {css : Text} {u : Usage} (h : ((Stylesheet.parse css).plan u).count ≠ 0) :
    byteLength (((Stylesheet.parse css).plan u).kept 0 css) < byteLength css := by
  obtain ⟨s, hs⟩ := List.exists_mem_of_ne_nil _ (Rule.removed_ne_nil h)
  obtain ⟨n, hn, rfl⟩ := Rule.exists_node_of_mem_removed hs
  have htext : n.span.slice? css = some n.text := (Stylesheet.wellFormed_parse css).node_text hn
  have hinside := (Stylesheet.wellFormed_parse css).node_inside hn
  obtain ⟨a, b, hcss, hstart, hstop⟩ := slice?_eq_some n.span.ordered htext
  have hne : n.text ≠ [] := by
    intro hnil
    rw [hnil, byteLength_nil] at hstop
    omega
  have hlt : byteLength (sieve (Span.hits ((Stylesheet.parse css).plan u).removed) 0 (a ++ (n.text ++ b))) <
      byteLength (a ++ (n.text ++ b)) :=
    byteLength_sieve_lt hne fun i hlo hhi => Span.hits_iff.2 ⟨n.span, hs, by omega, by omega⟩
  rwa [← hcss] at hlt

/-- From a changed stylesheet something was removed. -/
theorem removed_pos_of_prune {css text : Text} {u : Usage} {n : Nat} (h : prune css u = .changed text n) : 0 < n := by
  rw [prune_eq] at h
  split at h
  · cases h
  · next hcount =>
    cases h
    exact Nat.pos_of_ne_zero hcount

/-- A changed stylesheet is shorter than it was. -/
theorem byteLength_lt_of_prune {css text : Text} {u : Usage} {n : Nat} (h : prune css u = .changed text n) :
    byteLength text < byteLength css := by
  have hcount : ((Stylesheet.parse css).plan u).count ≠ 0 := by
    intro hzero
    rw [prune_eq, if_pos hzero] at h
    cases h
  rw [prune_eq_changed h]
  exact Nat.lt_of_le_of_lt (byteLength_le_of_sublist (squeeze_sublist 0 0 _)) (byteLength_kept_lt hcount)

end Cull
