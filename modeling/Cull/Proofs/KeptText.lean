import Cull.Proofs.CutText
import Cull.Proofs.SqueezedReading

/-!
# Text that stays

Blank lines are reduced in all that is left, inside rules, comments and strings
too. `Crowded` says when that changes a stretch of text: one of its newlines has
two more before it, with nothing but blanks between. A stretch that no planned
span touches stands in the new text as it was, between what is left before it and
what is left behind it, exactly if it is not crowded
(`kept_text_verbatim_iff`).
-/

namespace Cull

open Text

namespace Text

/-! ### Crowded text -/

/-- A newline of `w` has two newlines before it, with nothing but blanks between, where `w` follows
a run of blanks with `k` newlines. -/
def CrowdedFrom (k : Nat) (w : Text) : Prop := ∃ x y, w = x ++ '\n' :: y ∧ 2 ≤ newlinesBehind k x

/-- A newline of `w` has two newlines before it, with nothing but blanks between, where `w` stands
behind `a`. -/
def Crowded (a w : Text) : Prop := CrowdedFrom (newlinesBehind 0 a) w

/-- The last newline of the run of blanks that a text begins with. -/
theorem exists_last_newline {t : Text} (h : 1 ≤ newlinesAhead 0 t) :
    ∃ x y, t = x ++ '\n' :: y ∧ ∀ k, newlinesBehind k x + 1 = k + newlinesAhead 0 t := by
  induction t with
  | nil => simp at h
  | cons c t ih =>
    cases hc : isBlank c with
    | false => simp [newlinesAhead_solid hc] at h
    | true =>
      rw [newlinesAhead_blank hc] at h ⊢
      by_cases hlast : newlinesAhead 0 t = 0
      · have hnewline : c = '\n' := by
          by_cases hne : c = '\n'
          · exact hne
          · rw [newline_eq_zero hne] at h
            omega
        subst hnewline
        refine ⟨[], t, rfl, fun k => ?_⟩
        rw [hlast, newlinesBehind_nil]
        rfl
      · obtain ⟨x, y, rfl, hx⟩ := ih (by omega)
        refine ⟨c :: x, y, rfl, fun k => ?_⟩
        rw [newlinesBehind_cons, runAfter_blank hc, hx]
        omega

/-- From a text that is not crowded no character is left out. -/
theorem squeeze_eq_self {k : Nat} {w : Text} (h : ¬ CrowdedFrom k w) : squeeze k 0 w = w := by
  induction w generalizing k with
  | nil => rfl
  | cons c w ih =>
    have hkept : isSpare k (newlinesAhead 0 w) c = false := by
      rw [Bool.eq_false_iff]
      intro hspare
      obtain ⟨hc, -, hahead, htotal⟩ := isSpare_iff.1 hspare
      obtain ⟨x, y, rfl, hx⟩ := exists_last_newline hahead
      refine h ⟨c :: x, y, rfl, ?_⟩
      have := hx (k + newline c)
      rw [newlinesBehind_cons, runAfter_blank hc]
      omega
    have htail : ¬ CrowdedFrom (runAfter k c) w := by
      rintro ⟨x, y, rfl, hx⟩
      exact h ⟨c :: x, y, rfl, hx⟩
    rw [squeeze_kept hkept, ih htail]

/-- From a crowded text a character is left out, unless all the crowd stands before it. -/
theorem length_squeeze_lt {k : Nat} {w : Text} (h : CrowdedFrom k w) (hw : w.head? ≠ some '\n') :
    (squeeze k 0 w).length < w.length := by
  obtain ⟨x, y, rfl, hx⟩ := h
  -- the character before the newline is spare
  rcases List.eq_nil_or_concat x with rfl | ⟨x, c, rfl⟩
  · simp at hw
  · rw [List.concat_eq_append] at hx ⊢
    rw [newlinesBehind_append, newlinesBehind_cons, newlinesBehind_nil] at hx
    have hc : isBlank c = true := by
      cases hc : isBlank c with
      | false =>
        rw [runAfter_solid hc] at hx
        omega
      | true => rfl
    rw [runAfter_blank hc] at hx
    have hnewline := newline_le_one c
    have hahead : newlinesAhead 0 ('\n' :: y) = 1 + newlinesAhead 0 y := newlinesAhead_blank rfl 0 y
    have hspare : isSpare (newlinesBehind k x) (newlinesAhead 0 ('\n' :: y)) c = true :=
      isSpare_iff.2 ⟨hc, by omega, by omega, by omega⟩
    have hbefore := (squeeze_sublist k (newlinesAhead 0 (c :: '\n' :: y)) x).length_le
    have hbehind := (squeeze_sublist (runAfter (newlinesBehind k x) c) 0 ('\n' :: y)).length_le
    rw [List.append_assoc, List.singleton_append, squeeze_append, squeeze_spare hspare, List.length_append,
      List.length_append, List.length_cons]
    omega

/-! ### A stretch of text in its place -/

theorem newlinesAhead_zero_le (j : Nat) (t : Text) : newlinesAhead 0 t ≤ newlinesAhead j t := by
  induction t with
  | nil => exact Nat.zero_le j
  | cons c t ih =>
    rw [newlinesAhead, newlinesAhead]
    split
    · omega
    · exact Nat.le_refl 0

/-- More newlines behind a text never save it a character. -/
theorem length_squeeze_le_zero (k j : Nat) (t : Text) : (squeeze k j t).length ≤ (squeeze k 0 t).length := by
  induction t generalizing k with
  | nil => exact Nat.le_refl 0
  | cons c t ih =>
    have hlength := ih (runAfter k c)
    by_cases hspare : isSpare k (newlinesAhead j t) c = true
    · rw [squeeze_spare hspare, squeeze]
      split
      · exact hlength
      · rw [List.length_cons]
        omega
    · have hkept : isSpare k (newlinesAhead 0 t) c = false := by
        rw [Bool.eq_false_iff]
        intro h
        obtain ⟨hc, hk, hahead, htotal⟩ := isSpare_iff.1 h
        have := newlinesAhead_zero_le j t
        exact hspare (isSpare_iff.2 ⟨hc, hk, by omega, by omega⟩)
      rw [squeeze_kept (by simpa using hspare), squeeze_kept hkept, List.length_cons, List.length_cons]
      omega

/-- Newlines behind a text count for the run that it begins with only if the text is one run. -/
theorem newlinesAhead_cases (j : Nat) (t : Text) :
    newlinesAhead j t = newlinesAhead 0 t ∨ ∀ k, newlinesBehind k t + j = k + newlinesAhead j t := by
  induction t with
  | nil => exact .inr fun k => rfl
  | cons c t ih =>
    cases hc : isBlank c with
    | false => exact .inl (by rw [newlinesAhead_solid hc, newlinesAhead_solid hc])
    | true =>
      rw [newlinesAhead_blank hc, newlinesAhead_blank hc]
      rcases ih with h | h
      · exact .inl (by rw [h])
      · refine .inr fun k => ?_
        rw [newlinesBehind_cons, runAfter_blank hc, h]
        omega

/-- Newlines behind a text make no difference to it if there are at most two in all in its last run
of blanks. -/
theorem squeeze_eq_zero {k j : Nat} {t : Text} (h : j = 0 ∨ newlinesBehind k t + j ≤ 2) :
    squeeze k j t = squeeze k 0 t := by
  induction t generalizing k with
  | nil => rfl
  | cons c t ih =>
    rw [newlinesBehind_cons] at h
    have hspare : isSpare k (newlinesAhead j t) c = isSpare k (newlinesAhead 0 t) c := by
      rcases newlinesAhead_cases j t with hahead | hone
      · rw [hahead]
      · rcases h with rfl | h
        · rfl
        · -- one run to the end of the text, with at most two newlines
          have hle := newlinesAhead_zero_le j t
          have htotal := hone (runAfter k c)
          rw [Bool.eq_iff_iff, isSpare_iff, isSpare_iff]
          refine iff_of_false ?_ ?_
          · rintro ⟨hc, -, -, hthree⟩
            rw [runAfter_blank hc] at htotal h
            omega
          · rintro ⟨hc, -, -, hthree⟩
            rw [runAfter_blank hc] at htotal h
            omega
    rw [squeeze, squeeze, hspare, ih h]

/-- A stretch of text that begins with no newline, and ends with no blank or with the text, stays as
it is, between what becomes of the text before it and of the text behind it, exactly if it is not
crowded. -/
theorem squeeze_stretch_iff {a w b : Text} (hhead : w.head? ≠ some '\n') (hlast : b = [] ∨ EndsSolid w) :
    squeeze 0 0 (a ++ (w ++ b)) = squeeze 0 0 a ++ (w ++ squeeze 0 0 b) ↔ ¬ Crowded a w := by
  have hsplit : squeeze 0 0 (a ++ (w ++ b)) =
      squeeze 0 (newlinesAhead 0 w) a ++ (squeeze (newlinesBehind 0 a) 0 w ++ squeeze 0 0 b) := by
    rw [squeeze_append, squeeze_append, newlinesAhead_append]
    rcases hlast with rfl | hsolid
    · rfl
    · rw [hsolid.squeeze_eq, hsolid.newlinesAhead_eq, hsolid.newlinesBehind_eq]
  rw [hsplit]
  constructor
  · intro h hcrowded
    have hlength := congrArg List.length h
    have hbefore := length_squeeze_le_zero 0 (newlinesAhead 0 w) a
    have hshort := length_squeeze_lt hcrowded hhead
    simp only [List.length_append] at hlength
    omega
  · intro h
    have hbefore : squeeze 0 (newlinesAhead 0 w) a = squeeze 0 0 a := by
      refine squeeze_eq_zero ?_
      by_cases hnone : newlinesAhead 0 w = 0
      · exact .inl hnone
      · -- the last newline of the run that the stretch begins with
        obtain ⟨x, y, hw, hx⟩ := exists_last_newline (Nat.one_le_iff_ne_zero.2 hnone)
        have hfew : ¬ 2 ≤ newlinesBehind (newlinesBehind 0 a) x := fun htwo => h ⟨x, y, hw, htwo⟩
        have := hx (newlinesBehind 0 a)
        exact .inr (by omega)
    rw [hbefore, squeeze_eq_self h]

/-! ### Squeezed text is not crowded -/

theorem newlinesAhead_squeeze_le (k : Nat) (t : Text) : newlinesAhead 0 (squeeze k 0 t) ≤ newlinesAhead 0 t := by
  induction t generalizing k with
  | nil => exact Nat.le_refl 0
  | cons c t ih =>
    have hlater := ih (runAfter k c)
    rw [squeeze]
    split
    · next hspare =>
      rw [newlinesAhead_blank (isSpare_iff.1 hspare).1]
      omega
    · rw [newlinesAhead, newlinesAhead]
      split
      · omega
      · exact Nat.le_refl 0

/-- Behind a newline at most one more is left in the run. -/
theorem newlinesAhead_squeeze_le_one {k : Nat} (hk : 1 ≤ k) (t : Text) : newlinesAhead 0 (squeeze k 0 t) ≤ 1 := by
  induction t generalizing k with
  | nil => exact Nat.zero_le 1
  | cons c t ih =>
    cases hc : isBlank c with
    | false =>
      rw [squeeze_solid hc, newlinesAhead_solid hc]
      exact Nat.zero_le 1
    | true =>
      have hafter := runAfter_blank hc k
      by_cases hspare : isSpare k (newlinesAhead 0 t) c = true
      · rw [squeeze_spare hspare]
        exact ih (by omega)
      · -- no newline follows in the run, or there are at most two in all
        have hlater := newlinesAhead_squeeze_le (runAfter k c) t
        have hnewline := newline_le_one c
        have hfew : newlinesAhead 0 t = 0 ∨ k + newline c + newlinesAhead 0 t ≤ 2 := by
          by_cases hnone : newlinesAhead 0 t = 0
          · exact .inl hnone
          · refine .inr (Nat.le_of_not_lt fun hthree => hspare (isSpare_iff.2 ⟨hc, hk, by omega, by omega⟩))
        rw [squeeze_kept (by simpa using hspare), newlinesAhead_blank hc]
        omega

/-- Behind each newline of a squeezed text at most one more is left in the run. -/
theorem newlinesAhead_le_one_of_squeeze {k : Nat} {t x y : Text} (h : squeeze k 0 t = x ++ '\n' :: y) :
    newlinesAhead 0 y ≤ 1 := by
  induction t generalizing k x with
  | nil => simp at h
  | cons c t ih =>
    by_cases hspare : isSpare k (newlinesAhead 0 t) c = true
    · rw [squeeze_spare hspare] at h
      exact ih h
    · rw [squeeze_kept (by simpa using hspare)] at h
      cases x with
      | nil =>
        simp only [List.nil_append, List.cons.injEq] at h
        obtain ⟨rfl, rfl⟩ := h
        refine newlinesAhead_squeeze_le_one ?_ t
        rw [runAfter_blank rfl]
        exact Nat.le_add_left 1 k
      | cons d x =>
        simp only [List.cons_append, List.cons.injEq] at h
        exact ih h.2

/-- The first newline of the run of blanks that a text begins with. -/
theorem exists_first_newline {t : Text} (h : 1 ≤ newlinesAhead 0 t) :
    ∃ p q, t = p ++ '\n' :: q ∧ newlinesAhead 0 q + 1 = newlinesAhead 0 t := by
  induction t with
  | nil => simp at h
  | cons c t ih =>
    cases hc : isBlank c with
    | false => simp [newlinesAhead_solid hc] at h
    | true =>
      rw [newlinesAhead_blank hc] at h ⊢
      by_cases hnewline : c = '\n'
      · subst hnewline
        exact ⟨[], t, rfl, Nat.add_comm _ _⟩
      · rw [newline_eq_zero hnewline] at h ⊢
        obtain ⟨p, q, rfl, hq⟩ := ih (by omega)
        exact ⟨c :: p, q, rfl, by omega⟩

/-- A newline with two newlines behind it in its run is the last of three, which begin in the text or
before it. -/
theorem exists_newlines_ahead {k : Nat} {x : Text} (h : 2 ≤ newlinesBehind k x) (y : Text) :
    (∃ p q, x ++ '\n' :: y = p ++ '\n' :: q ∧ 2 ≤ newlinesAhead 0 q) ∨
      3 ≤ k + newlinesAhead 0 (x ++ '\n' :: y) := by
  induction x generalizing k with
  | nil =>
    refine .inr ?_
    rw [newlinesBehind_nil] at h
    rw [List.nil_append, newlinesAhead_blank rfl]
    show 3 ≤ k + (1 + newlinesAhead 0 y)
    omega
  | cons c x ih =>
    rw [newlinesBehind_cons] at h
    rw [List.cons_append]
    rcases ih h with ⟨p, q, hpq, hq⟩ | hthree
    · exact .inl ⟨c :: p, q, by rw [hpq, List.cons_append], hq⟩
    · cases hc : isBlank c with
      | true =>
        rw [runAfter_blank hc] at hthree
        rw [newlinesAhead_blank hc]
        exact .inr (by omega)
      | false =>
        -- the run begins behind this character
        rw [runAfter_solid hc] at hthree
        obtain ⟨p, q, hpq, hq⟩ := exists_first_newline (t := x ++ '\n' :: y) (by omega)
        exact .inl ⟨c :: p, q, by rw [hpq, List.cons_append], by omega⟩

/-- A crowded text is no part of a squeezed one. -/
theorem not_infix_squeeze {w t : Text} (h : Crowded [] w) : ¬ w <:+: squeeze 0 0 t := by
  rintro ⟨a, b, hab⟩
  obtain ⟨x, y, rfl, hx⟩ := h
  obtain ⟨p, q, hpq, hq⟩ : ∃ p q, x ++ '\n' :: (y ++ b) = p ++ '\n' :: q ∧ 2 ≤ newlinesAhead 0 q := by
    rcases exists_newlines_ahead hx (y ++ b) with h | h
    · exact h
    · rw [newlinesBehind_nil] at h
      obtain ⟨p, q, hpq, hq⟩ := exists_first_newline (t := x ++ '\n' :: (y ++ b)) (by omega)
      exact ⟨p, q, hpq, by omega⟩
  have hsplit : squeeze 0 0 t = (a ++ p) ++ '\n' :: q := by
    rw [← hab, List.append_assoc a p, ← hpq]
    simp
  have := newlinesAhead_le_one_of_squeeze hsplit
  omega

end Text

/-! ### Stretches that no planned span touches -/

/-- No planned span shares a byte with the span. -/
def Plan.Spares (p : Plan) (s : Span) : Prop := ∀ r ∈ p.removed, r.stop ≤ s.start ∨ s.stop ≤ r.start

instance (p : Plan) (s : Span) : Decidable (p.Spares s) :=
  inferInstanceAs (Decidable (∀ r ∈ p.removed, r.stop ≤ s.start ∨ s.stop ≤ r.start))

theorem Plan.spares_append {p q : Plan} {s : Span} : (p.append q).Spares s ↔ p.Spares s ∧ q.Spares s := by
  simp [Spares, append, or_imp, forall_and]

theorem Plan.kept_eq_self {p : Plan} {pos : Nat} {t : Text} (h : p.Spares (.ofText pos t)) : p.kept pos t = t := by
  refine sieve_eq_self fun i hlo hhi => Span.hits_eq_false_iff.2 fun r hr => ?_
  have := h r hr
  simp only [Span.ofText_start, Span.ofText_stop] at this
  omega

/-- A stretch that no planned span touches stands between what is left before it and behind it. -/
theorem Plan.kept_append_of_spares {p : Plan} {x w : Text} (h : p.Spares (.ofText (byteLength x) w)) (y : Text) :
    p.kept 0 (x ++ (w ++ y)) = p.kept 0 x ++ (w ++ p.kept (byteLength (x ++ w)) y) := by
  have hw := Plan.kept_eq_self h
  unfold Plan.kept at hw ⊢
  rw [sieve_append, sieve_append, Nat.zero_add, hw, byteLength_append]

/-- The rule has no rules inside it. -/
def Rule.IsLeaf : Rule → Prop
  | .group _ _ _ _ _ _ => False
  | _ => True

instance : (r : Rule) → Decidable r.IsLeaf
  | .plain _ => isTrue trivial
  | .atRule _ _ _ => isTrue trivial
  | .group _ _ _ _ _ _ => isFalse id

theorem Rule.IsLeaf.children_eq {r : Rule} (h : r.IsLeaf) : r.children = [] := by
  cases r with
  | plain r => rfl
  | atRule name span text => rfl
  | group name span text inner children unparsed => exact h.elim

namespace Level

open Rule

variable {u : Usage} {source : Text} {lo hi : Nat} {rules : List Rule} {unparsed : Option Span}

/-- If what is planned for a rule touches no leaf in it that it does not cover, and the same holds
behind the rule, it holds of all. -/
theorem spares_leaf_cons {r : Rule} {rest : List Rule} (h : Level source lo hi (r :: rest) unparsed)
    (hhead : ∀ n ∈ r.nodes, n.IsLeaf → ¬ (plan u r).Covers n.span → (plan u r).Spares n.span)
    (htail : ∀ n ∈ nodesAll rest, n.IsLeaf → ¬ (planAll u rest).Covers n.span → (planAll u rest).Spares n.span) :
    ∀ n ∈ nodesAll (r :: rest), n.IsLeaf → ¬ (planAll u (r :: rest)).Covers n.span →
      (planAll u (r :: rest)).Spares n.span := by
  intro n hn hleaf hstays
  rw [planAll, Plan.covers_append, not_or] at hstays
  rw [planAll, Plan.spares_append]
  rw [nodesAll, List.mem_append] at hn
  rcases hn with hn | hn
  · refine ⟨hhead n hn hleaf hstays.1, fun s hs => .inr ?_⟩
    have := h.tail.removed_inside hs
    have := h.subtree_inside hn
    omega
  · refine ⟨fun s hs => .inl ?_, htail n hn hleaf hstays.2⟩
    have := h.plan_inside hs
    have := h.tail.node_inside hn
    omega

theorem spares_plan_of_stays {r : Rule} {s : Span} (hstays : r.verdict u ≠ .remove) :
    (plan u r).Spares s ↔ (planAll u r.children).Spares s := by
  rw [Plan.Spares, plan_removed, if_neg hstays, Plan.Spares]

/-- A planned span that does not cover a leaf does not touch it. -/
theorem spares_leaf (h : Level source lo hi rules unparsed) : ∀ n ∈ nodesAll rules, n.IsLeaf →
    ¬ (planAll u rules).Covers n.span → (planAll u rules).Spares n.span := by
  induction rules using children_induction generalizing lo hi unparsed with
  | nil => simp [nodesAll]
  | cons r rest ihchildren ih =>
    refine h.spares_leaf_cons (fun n hn hleaf hstays => ?_) (ih h.tail)
    by_cases hgoes : r.verdict u = .remove
    · have hinside := h.subtree_inside hn
      rw [covers_plan_of_goes hgoes] at hstays
      exact absurd (Span.contains_iff.2 ⟨hinside.1, hinside.2.2⟩) hstays
    · rw [covers_plan_of_stays hgoes] at hstays
      rw [spares_plan_of_stays hgoes]
      rw [nodes_eq, List.mem_cons] at hn
      rcases hn with rfl | hn
      · -- nothing stands inside a leaf
        rw [hleaf.children_eq]
        intro s hs
        cases hs
      · exact ihchildren h.children n hn hleaf hstays

/-- The rules of a level stand before what could not be read of it. -/
theorem before_unparsed {s : Span} (h : Level source lo hi rules (some s)) : Level source lo s.start rules none := by
  refine h.narrow fun r hr => ?_
  exact ⟨(h.siblings.inside r hr).1, h.siblings.unparsed_after s rfl r hr⟩

end Level

namespace Stylesheet

/-- Only a blank begins with a newline. -/
theorem head?_ne_newline {t rest : Text} {c : Construct} (h : readConstruct t = some (c, rest))
    (hc : ∀ d, c ≠ .blank d) : c.text.head? ≠ some '\n' := by
  intro hhead
  obtain ⟨w, hw⟩ := List.head?_eq_some_iff.1 hhead
  rw [← readConstruct_append h, hw, List.cons_append, readConstruct_cons (by decide) (by intro h; cases h),
    if_pos (by decide)] at h
  simp only [Option.some.injEq, Prod.mk.injEq] at h
  exact hc '\n' h.1.symm

/-- The text of a rule begins with no newline and ends with no blank. -/
theorem node_text_ends {source : Text} {n : Rule} (h : n ∈ (parse source).nodes) :
    n.text.head? ≠ some '\n' ∧ EndsSolid n.text := by
  obtain ⟨pos, t, c, rest, hc, hn⟩ := exists_construct_of_mem_nodesAll h
  have htext : n.text = c.text := by
    rcases c.rules_cases pos with hnone | ⟨r, hone, -, htext⟩
    · rw [hnone] at hn
      cases hn
    · rw [hone, List.mem_singleton] at hn
      rw [hn, htext]
  have hblank : ∀ d, c ≠ .blank d := by
    rintro d rfl
    cases hn
  rw [htext]
  exact ⟨head?_ne_newline hc hblank, endsSolid_of_readConstruct hc hblank⟩

/-- What could not be read is the end of the source, and begins with no newline. -/
theorem unparsed_text {source : Text} {s : Span} (h : s ∈ (parse source).unparsed) :
    ∃ x w, source = x ++ w ∧ s = .ofText x.byteLength w ∧ w.head? ≠ some '\n' := by
  rw [parse_eq_placeAll] at h
  refine ⟨Part.textAll (layout source).1, (layout source).2, (textAll_layout source).symm, ?_, fun hhead => ?_⟩
  · unfold leftover at h
    split at h
    · cases h
    · exact (Option.mem_some.1 h).symm
  · obtain ⟨w, hw⟩ := List.head?_eq_some_iff.1 hhead
    have hnone := readConstruct_tail source
    rw [hw, readConstruct_cons (by decide) (by intro h; cases h), if_pos (by decide)] at hnone
    cases hnone

end Stylesheet

/-! ### Kept text -/

/-- What becomes of the stretch `w` of a stylesheet, with `x` before it and `y` behind it, when a plan
turns the stylesheet into `text`. -/
structure Plan.Fate (p : Plan) (text x w y : Text) : Prop where
  /-- The stretch stays as it is, in its place, exactly if it is not crowded there. -/
  in_place : text = Pruned.collapseBlankLines (p.kept 0 x) ++
      (w ++ Pruned.collapseBlankLines (p.kept (byteLength (x ++ w)) y)) ↔ ¬ Crowded (p.kept 0 x) w
  /-- If it begins with no blank, it occurs at all exactly if it is not crowded by itself. -/
  occurs : (∀ c ∈ w.head?, isBlank c = false) → (w <:+: text ↔ ¬ Crowded [] w)

/-- Whether a stretch that begins with no blank is crowded does not depend on what stands before it. -/
theorem crowded_nil_iff {a w : Text} (hw : ∀ c ∈ w.head?, isBlank c = false) : Crowded a w ↔ Crowded [] w := by
  have hbehind : ∀ x y k, w = x ++ '\n' :: y → newlinesBehind k x = newlinesBehind 0 x := by
    rintro x y k rfl
    cases x with
    | nil => exact absurd (hw '\n' rfl) (by decide)
    | cons c x =>
      have hc := hw c rfl
      rw [newlinesBehind_cons, newlinesBehind_cons, runAfter_solid hc, runAfter_solid hc]
  constructor
  · rintro ⟨x, y, hxy, htwo⟩
    exact ⟨x, y, hxy, by rwa [hbehind x y _ hxy] at htwo⟩
  · rintro ⟨x, y, hxy, htwo⟩
    exact ⟨x, y, hxy, by rwa [hbehind x y _ hxy]⟩

/-- The fate of a stretch that no planned span touches, and that begins with no newline and ends with
no blank or with the stylesheet. -/
theorem fate_of_spares {css text x w y : Text} {u : Usage} {n : Nat} (h : prune css u = .changed text n)
    (hcss : css = x ++ (w ++ y)) (hspares : ((Stylesheet.parse css).plan u).Spares (.ofText x.byteLength w))
    (hhead : w.head? ≠ some '\n') (hlast : y = [] ∨ EndsSolid w) :
    ((Stylesheet.parse css).plan u).Fate text x w y := by
  have htext := prune_eq_changed h
  generalize (Stylesheet.parse css).plan u = p at *
  have hkept : p.kept 0 css = p.kept 0 x ++ (w ++ p.kept (byteLength (x ++ w)) y) :=
    hcss ▸ Plan.kept_append_of_spares hspares y
  have hend : p.kept (byteLength (x ++ w)) y = [] ∨ EndsSolid w := by
    rcases hlast with rfl | hsolid
    · exact .inl rfl
    · exact .inr hsolid
  have hstretch := squeeze_stretch_iff (a := p.kept 0 x) hhead hend
  rw [← hkept, ← htext] at hstretch
  refine ⟨?_, fun hsolid => ⟨fun hinfix hcrowded => ?_, fun hfree => ?_⟩⟩
  · rw [Pruned.collapseBlankLines_eq_squeeze, Pruned.collapseBlankLines_eq_squeeze]
    exact hstretch
  · rw [htext] at hinfix
    exact not_infix_squeeze hcrowded hinfix
  · rw [hstretch.2 (mt (crowded_nil_iff hsolid).1 hfree)]
    exact ⟨_, _, List.append_assoc _ _ _⟩

/-- A rule without rules inside it that is not covered by the plan, what could not be read at the end,
and any other stretch that no planned span touches, stays as it is in its place exactly if it is not
crowded there; and if it begins with no blank, it occurs in the new text exactly if it is not
crowded by itself. -/
theorem kept_text_verbatim_iff {css text : Text} {u : Usage} {n : Nat} (h : prune css u = .changed text n) :
    (∀ r ∈ (Stylesheet.parse css).nodes, r.IsLeaf → ¬ ((Stylesheet.parse css).plan u).Covers r.span →
      ∃ x y, css = x ++ (r.text ++ y) ∧ byteLength x = r.span.start ∧
        ((Stylesheet.parse css).plan u).Fate text x r.text y) ∧
    (∀ s ∈ (Stylesheet.parse css).unparsed, ∃ x w, css = x ++ w ∧ s = .ofText (byteLength x) w ∧
      ((Stylesheet.parse css).plan u).Fate text x w []) ∧
    ∀ x w y, css = x ++ (w ++ y) → ((Stylesheet.parse css).plan u).Spares (.ofText (byteLength x) w) →
      w.head? ≠ some '\n' → EndsSolid w → ((Stylesheet.parse css).plan u).Fate text x w y := by
  have hlevel := Stylesheet.wellFormed_parse css
  refine ⟨fun r hr hleaf hstays => ?_, fun s hs => ?_, fun x w y hcss hspares hhead hlast =>
    fate_of_spares h hcss hspares hhead (.inr hlast)⟩
  · obtain ⟨x, y, hcss, hstart, hstop⟩ := slice?_eq_some r.span.ordered (hlevel.node_text hr)
    obtain ⟨hhead, hlast⟩ := Stylesheet.node_text_ends hr
    have hspan : r.span = .ofText (byteLength x) r.text := Span.eq_ofText hstart hstop
    refine ⟨x, y, hcss, hstart, fate_of_spares h hcss ?_ hhead (.inr hlast)⟩
    rw [← hspan]
    exact hlevel.spares_leaf r hr hleaf hstays
  · obtain ⟨x, w, hcss, rfl, hhead⟩ := Stylesheet.unparsed_text hs
    refine ⟨x, w, hcss, rfl, fate_of_spares h (by rw [hcss, List.append_nil]) (fun r hr => .inl ?_) hhead (.inl rfl)⟩
    have hbefore : Level css 0 x.byteLength (Stylesheet.parse css).rules none := by
      unfold Stylesheet.WellFormed at hlevel
      rw [Option.mem_def.1 hs] at hlevel
      exact hlevel.before_unparsed
    exact (hbefore.removed_inside hr).2.2

/-- The four newlines between two rules are reduced, and the rule behind them stays. -/
theorem kept_text_verbatim_iff_reduced_gap :
    prune ".x\x7ba:1\x7d\n\n\n\n.k\x7bb:\n\n2\x7d".toList (.ofList [".k".toList]) =
      .changed "\n\n.k\x7bb:\n\n2\x7d".toList 1 ∧
    ((Stylesheet.parse ".x\x7ba:1\x7d\n\n\n\n.k\x7bb:\n\n2\x7d".toList).plan (.ofList [".k".toList])).Fate
      "\n\n.k\x7bb:\n\n2\x7d".toList ".x\x7ba:1\x7d\n\n\n\n".toList ".k\x7bb:\n\n2\x7d".toList [] := by
  have hprune : prune ".x\x7ba:1\x7d\n\n\n\n.k\x7bb:\n\n2\x7d".toList (.ofList [".k".toList]) =
      .changed "\n\n.k\x7bb:\n\n2\x7d".toList 1 := by decide +kernel
  refine ⟨hprune, (kept_text_verbatim_iff hprune).2.2 _ _ _ rfl ?_ (by decide) ?_⟩
  · decide +kernel
  · exact ⟨".k\x7bb:\n\n2".toList, '\x7d', rfl, rfl⟩

/-- Four newlines in the block of a rule are reduced although the rule stays. -/
theorem kept_rule_altered :
    ∃ text n, prune ".x\x7ba:1\x7d.k\x7ba:1;\n\n\n\nb:2\x7d".toList (.ofList [".k".toList]) = .changed text n ∧
      ∃ r ∈ (Stylesheet.parse ".x\x7ba:1\x7d.k\x7ba:1;\n\n\n\nb:2\x7d".toList).nodes, r.IsLeaf ∧
        ¬ ((Stylesheet.parse ".x\x7ba:1\x7d.k\x7ba:1;\n\n\n\nb:2\x7d".toList).plan
          (.ofList [".k".toList])).Covers r.span ∧ ¬ r.text <:+: text := by
  have hkept : (Stylesheet.parse ".x\x7ba:1\x7d.k\x7ba:1;\n\n\n\nb:2\x7d".toList).nodes.any (fun r =>
      r.text.length = 15 && r.IsLeaf && !((Stylesheet.parse ".x\x7ba:1\x7d.k\x7ba:1;\n\n\n\nb:2\x7d".toList).plan
        (.ofList [".k".toList])).Covers r.span) = true := by decide +kernel
  obtain ⟨r, hr, h⟩ := List.any_eq_true.1 hkept
  simp only [Bool.and_eq_true, Bool.not_eq_true', decide_eq_true_eq, decide_eq_false_iff_not] at h
  refine ⟨".k\x7ba:1;\n\nb:2\x7d".toList, 1, by decide +kernel, r, hr, h.1.2, h.2, fun hinfix => ?_⟩
  have hlength := hinfix.length_le
  rw [h.1.1] at hlength
  exact absurd hlength (by decide)

end Cull
