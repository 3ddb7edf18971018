import Cull.Proofs.Survivors
import Mathlib.Data.List.Forall2

/-!
# Stylesheets one behind the other

No construct looks past its own end, and where a construct stands changes nothing
but its spans. So a text that is read to its end can stand before any other text:
the rules of both are found, those of the second with every span moved
(`parse_append`). What stands before a rule is read to its end
(`exists_front_of_mem_rules`), and this is why rules at top level can be cut out:
the rules that remain are read as before, each moved by the bytes that were cut
out in front of it, and reading stops where it stopped (`parse_append_and_cut`).
-/

namespace Cull

open Text

/-! ### Moving rules -/

/-- The span moved by `n` bytes. -/
def Span.shift (n : Nat) (s : Span) : Span := ⟨s.start + n, s.stop + n, Nat.add_le_add_right s.ordered n⟩

theorem Span.ofText_shift (pos n : Nat) (t : Text) : ofText (pos + n) t = (ofText pos t).shift n := by
  simp only [ofText, shift, Nat.add_right_comm]

namespace Rule

mutual

/-- The rule with every span, at any depth, moved by `n` bytes. -/
def shift (n : Nat) : Rule → Rule
  | .plain r => .plain { r with span := r.span.shift n }
  | .atRule name span text => .atRule name (span.shift n) text
  | .group name span text inner children unparsed =>
    .group name (span.shift n) text (inner.shift n) (shiftAll n children) (unparsed.map (·.shift n))

/-- The rules with every span moved by `n` bytes. -/
def shiftAll (n : Nat) : List Rule → List Rule
  | [] => []
  | r :: rest => shift n r :: shiftAll n rest

end

theorem shiftAll_append (n : Nat) (rules more : List Rule) :
    shiftAll n (rules ++ more) = shiftAll n rules ++ shiftAll n more := by
  induction rules with
  | nil => simp [shiftAll]
  | cons r rules ih => simp [shiftAll, ih]

end Rule

namespace Stylesheet

open Stylesheet.Part

theorem leftover_shift (pos n : Nat) (t : Text) : leftover (pos + n) t = (leftover pos t).map (·.shift n) := by
  rw [leftover, leftover]
  split
  · rfl
  · rw [Span.ofText_shift]
    rfl

theorem leftover_eq_none {pos : Nat} {t : Text} : leftover pos t = none ↔ t = [] := by
  simp [leftover]

theorem plainRule?_shift (pos n : Nat) (header body : Text) :
    ((plainRule? (pos + n) header body).map Rule.plain).toList =
      Rule.shiftAll n ((plainRule? pos header body).map Rule.plain).toList := by
  rw [plainRule?, plainRule?]
  split
  · rw [Option.map_none, Option.toList_none, Rule.shiftAll]
  · simp [Rule.shiftAll, Rule.shift, Span.ofText_shift]

namespace Part

/-- Parts that stand later are the same rules, moved. -/
theorem placeAll_shift (pos n : Nat) (parts : List Part) :
    placeAll (pos + n) parts = Rule.shiftAll n (placeAll pos parts) := by
  induction parts using parts_induction generalizing pos with
  | nil => simp [Rule.shiftAll]
  | blank c ps ih => simp [place, Nat.add_right_comm pos n, ih]
  | comment inner ps ih => simp [place, Nat.add_right_comm pos n, ih]
  | plain header body ps ih =>
    rw [placeAll_cons, placeAll_cons, Rule.shiftAll_append, Nat.add_right_comm, ih, place, place, plainRule?_shift]
  | atRule name text ps ih =>
    simp [place, Nat.add_right_comm pos n, ih, Rule.shiftAll, Rule.shift, Span.ofText_shift]
  | group name header parts tail ps ihparts ih =>
    rw [placeAll_cons, placeAll_cons, Rule.shiftAll_append, Nat.add_right_comm, ih, place, place]
    simp only [Nat.add_right_comm pos n, Nat.add_right_comm _ n, ihparts, Span.ofText_shift, leftover_shift,
      Rule.shiftAll, Rule.shift]

theorem place_shift (pos n : Nat) (p : Part) : place (pos + n) p = Rule.shiftAll n (place pos p) := by
  have hone := placeAll_shift pos n [p]
  simpa using hone

theorem placeAll_append (pos : Nat) (ps qs : List Part) :
    placeAll pos (ps ++ qs) = placeAll pos ps ++ placeAll (pos + byteLength (textAll ps)) qs := by
  induction ps generalizing pos with
  | nil => simp
  | cons p ps ih => simp [ih, Nat.add_assoc]

/-- A part is at most one rule, which takes up the whole part. -/
theorem place_cases (pos : Nat) (p : Part) :
    place pos p = [] ∨ ∃ r, place pos p = [r] ∧ r.span = .ofText pos p.text ∧ r.text = p.text := by
  cases p with
  | blank c => exact .inl (by rw [place])
  | comment inner => exact .inl (by rw [place])
  | plain header body =>
    rw [place, plainRule?]
    split
    · exact .inl rfl
    · exact .inr ⟨_, rfl, by rw [text]; rfl, by rw [text]; rfl⟩
  | atRule name text => exact .inr ⟨_, by rw [place], by rw [Part.text]; rfl, by rw [Part.text]; rfl⟩
  | group name header parts tail =>
    exact .inr ⟨_, by rw [place], by rw [text]; rfl, by rw [text]; rfl⟩

/-- A rule is one of the parts, behind those that stand before it. -/
theorem exists_append_of_mem_placeAll {pos : Nat} {parts : List Part} {r : Rule} (h : r ∈ placeAll pos parts) :
    ∃ ps p qs, parts = ps ++ p :: qs ∧ r.span = .ofText (pos + byteLength (textAll ps)) p.text ∧ r.text = p.text := by
  induction parts generalizing pos with
  | nil => simp at h
  | cons p parts ih =>
    rw [placeAll_cons, List.mem_append] at h
    rcases h with h | h
    · rcases place_cases pos p with hnone | ⟨r', hone, hspan, htext⟩
      · rw [hnone] at h
        cases h
      · rw [hone, List.mem_singleton] at h
        subst h
        exact ⟨[], p, parts, rfl, hspan, htext⟩
    · obtain ⟨ps, q, qs, rfl, hspan, htext⟩ := ih h
      refine ⟨p :: ps, q, qs, rfl, ?_, htext⟩
      rw [hspan, textAll_cons, byteLength_append, Nat.add_assoc]

end Part

/-! ### Texts one behind the other -/

/-- Every part of a text is read from its own text, in front of any text. -/
theorem readable_of_mem_layout {p : Part} {t : Text} (h : p ∈ (layout t).1) : p.Readable := by
  obtain ⟨t', c, rest, hread, rfl⟩ := exists_construct_of_mem_layout h
  intro rest'
  exact ⟨c, by rw [c.part_text, readConstruct_text_append hread rest'], rfl⟩

theorem unparsed_eq_none_iff {t : Text} : (parse t).unparsed = none ↔ (layout t).2 = [] := by
  rw [parse_eq_placeAll]
  exact leftover_eq_none

/-- Behind a text that is read to its end, another text is read as by itself. -/
theorem parse_append {a : Text} (h : (parse a).unparsed = none) (b : Text) :
    parse (a ++ b) = ⟨a ++ b, (parse a).rules ++ Rule.shiftAll (byteLength a) (parse b).rules,
      (parse b).unparsed.map (·.shift (byteLength a))⟩ := by
  have htext := textAll_layout a
  rw [unparsed_eq_none_iff.1 h, List.append_nil] at htext
  have hlayout := layout_textAll_append (fun p hp => readable_of_mem_layout (t := a) hp) b
  rw [htext] at hlayout
  simp only [parse_eq_placeAll, hlayout, placeAll_append, textAll_append, byteLength_append, htext, ← placeAll_shift,
    ← leftover_shift, Nat.zero_add, Nat.add_comm]

/-- What stands before a rule at top level is read to its end. -/
theorem exists_front_of_mem_rules {source : Text} {r : Rule} (h : r ∈ (parse source).rules) :
    ∃ x y, source = x ++ (r.text ++ y) ∧ byteLength x = r.span.start ∧ (parse x).unparsed = none := by
  rw [parse_eq_placeAll] at h
  obtain ⟨ps, p, qs, hparts, hspan, htext⟩ := exists_append_of_mem_placeAll h
  have hsource := textAll_layout source
  rw [hparts, textAll_append, textAll_cons] at hsource
  refine ⟨textAll ps, textAll qs ++ (layout source).2, ?_, ?_, ?_⟩
  · rw [htext]
    simpa only [List.append_assoc] using hsource.symm
  · rw [hspan, Span.ofText_start, Nat.zero_add]
  · have hreadable : ∀ q ∈ ps, q.Readable := fun q hq =>
      readable_of_mem_layout (hparts ▸ List.mem_append_left _ hq)
    rw [unparsed_eq_none_iff, layout_textAll hreadable]

end Stylesheet

/-! ### Bytes that are cut out -/

namespace Span

/-- The number of bytes before an offset that lie in one of the spans. -/
def hitsBefore (spans : List Span) (i : Nat) : Nat := ((List.range i).filter (hits spans)).length

theorem hitsBefore_succ (spans : List Span) (i : Nat) :
    hitsBefore spans (i + 1) = hitsBefore spans i + if hits spans i then 1 else 0 := by
  rw [hitsBefore, List.range_succ, List.filter_append, List.length_append, hitsBefore]
  by_cases h : hits spans i = true <;> simp [h]

theorem hitsBefore_add_of_all {spans : List Span} {i n : Nat} (h : ∀ j, i ≤ j → j < i + n → hits spans j = true) :
    hitsBefore spans (i + n) = hitsBefore spans i + n := by
  induction n with
  | zero => rfl
  | succ n ih =>
    rw [← Nat.add_assoc, hitsBefore_succ, ih fun j hlo hhi => h j hlo (by omega),
      if_pos (h (i + n) (by omega) (by omega)), Nat.add_assoc]

theorem hitsBefore_add_of_none {spans : List Span} {i n : Nat} (h : ∀ j, i ≤ j → j < i + n → hits spans j = false) :
    hitsBefore spans (i + n) = hitsBefore spans i := by
  induction n with
  | zero => rfl
  | succ n ih =>
    rw [← Nat.add_assoc, hitsBefore_succ, ih fun j hlo hhi => h j hlo (by omega), h (i + n) (by omega) (by omega)]
    rfl

end Span

theorem Rule.span_shift (n : Nat) (r : Rule) : (r.shift n).span = r.span.shift n := by
  cases r <;> rw [shift] <;> rfl

namespace Stylesheet

open Stylesheet.Part

namespace Part

variable {spans : List Span} {pos pos' : Nat} {p : Part} {ps : List Part}

/-- The part is a rule whose span is among the given ones. -/
def isHit (spans : List Span) (pos : Nat) (p : Part) : Bool := (p.place pos).any (·.span ∈ spans)

/-- The parts that are left when those that are rules with the given spans are cut out. -/
def cutParts (spans : List Span) (pos : Nat) : List Part → List Part
  | [] => []
  | p :: ps =>
    if p.isHit spans pos then cutParts spans (pos + byteLength p.text) ps
    else p :: cutParts spans (pos + byteLength p.text) ps

/-- Each of the spans ends before the parts, or is the span of a rule among them. -/
def Aimed (spans : List Span) (pos : Nat) (ps : List Part) : Prop :=
  ∀ s ∈ spans, s.stop ≤ pos ∨ ∃ r ∈ placeAll pos ps, r.span = s

theorem start_of_mem_placeAll {r : Rule} (h : r ∈ placeAll pos ps) : pos ≤ r.span.start := by
  obtain ⟨qs, q, -, -, hspan, -⟩ := exists_append_of_mem_placeAll h
  rw [hspan, Span.ofText_start]
  exact Nat.le_add_right _ _

theorem stop_of_mem_placeAll {r : Rule} (h : r ∈ placeAll pos ps) : r.span.stop ≤ pos + byteLength (textAll ps) := by
  obtain ⟨qs, q, rest, rfl, hspan, -⟩ := exists_append_of_mem_placeAll h
  rw [hspan, Span.ofText_stop, textAll_append, textAll_cons, byteLength_append, byteLength_append]
  omega

theorem isHit_of_place {r : Rule} (h : place pos p = [r]) : p.isHit spans pos = true ↔ r.span ∈ spans := by
  simp [isHit, h]

/-- A span that is aimed at parts ends before the first of them, or is that of the first, or is aimed at
the others. -/
theorem Aimed.cases (h : Aimed spans pos (p :: ps)) {s : Span} (hs : s ∈ spans) :
    s.stop ≤ pos ∨ (s = .ofText pos p.text ∧ p.isHit spans pos = true) ∨
      ∃ r ∈ placeAll (pos + byteLength p.text) ps, r.span = s := by
  rcases h s hs with hbefore | ⟨r, hr, rfl⟩
  · exact .inl hbefore
  · rw [placeAll_cons, List.mem_append] at hr
    rcases hr with hr | hr
    · rcases place_cases pos p with hnone | ⟨r', hone, hspan, -⟩
      · rw [hnone] at hr
        cases hr
      · obtain rfl : r = r' := by simpa [hone] using hr
        exact .inr (.inl ⟨hspan, (isHit_of_place hone).2 hs⟩)
    · exact .inr (.inr ⟨r, hr, rfl⟩)

theorem Aimed.tail (h : Aimed spans pos (p :: ps)) : Aimed spans (pos + byteLength p.text) ps := by
  intro s hs
  rcases h.cases hs with hbefore | ⟨rfl, -⟩ | hbehind
  · exact .inl (by omega)
  · exact .inl (Nat.le_refl _)
  · exact .inr hbehind

/-- All bytes of a part that is hit are cut out. -/
theorem hits_of_isHit (h : p.isHit spans pos = true) (j : Nat) (hlo : pos ≤ j) (hhi : j < pos + byteLength p.text) :
    Span.hits spans j = true := by
  rcases place_cases pos p with hnone | ⟨r, hone, hspan, -⟩
  · simp [isHit, hnone] at h
  · have hmem := (isHit_of_place hone).1 h
    rw [hspan] at hmem
    exact Span.hits_iff.2 ⟨_, hmem, hlo, hhi⟩

/-- No byte of a part that is not hit is cut out. -/
theorem Aimed.hits_eq_false (haimed : Aimed spans pos (p :: ps)) (h : ¬ p.isHit spans pos = true) (j : Nat)
    (hlo : pos ≤ j) (hhi : j < pos + byteLength p.text) : Span.hits spans j = false := by
  refine Span.hits_eq_false_iff.2 fun s hs => ?_
  rcases haimed.cases hs with hbefore | ⟨-, hhit⟩ | ⟨r, hr, rfl⟩
  · exact .inr (by omega)
  · exact absurd hhit h
  · have hstart := start_of_mem_placeAll hr
    exact .inl (by omega)

/-- No byte behind the parts is cut out. -/
theorem Aimed.hits_behind (haimed : Aimed spans pos ps) {j : Nat} (hlo : pos + byteLength (textAll ps) ≤ j) :
    Span.hits spans j = false := by
  refine Span.hits_eq_false_iff.2 fun s hs => .inr ?_
  rcases haimed s hs with hbefore | ⟨r, hr, rfl⟩
  · omega
  · exact Nat.le_trans (stop_of_mem_placeAll hr) hlo

/-- What is left of the text of parts is the text of the parts that are left. -/
theorem sieve_textAll (haimed : Aimed spans pos ps) :
    sieve (Span.hits spans) pos (textAll ps) = textAll (cutParts spans pos ps) := by
  induction ps generalizing pos with
  | nil => rfl
  | cons p ps ih =>
    rw [textAll_cons, sieve_append, ih haimed.tail, cutParts]
    split
    · next hhit => rw [sieve_eq_nil (hits_of_isHit hhit), List.nil_append]
    · next hhit => rw [sieve_eq_self (haimed.hits_eq_false hhit), textAll_cons]

/-- The parts that are left end where the parts ended, less the bytes that are cut out. -/
theorem byteLength_cutParts (haimed : Aimed spans pos ps) (hpos : pos = pos' + Span.hitsBefore spans pos) :
    pos + byteLength (textAll ps) = pos' + byteLength (textAll (cutParts spans pos ps)) +
      Span.hitsBefore spans (pos + byteLength (textAll ps)) := by
  induction ps generalizing pos pos' with
  | nil => exact hpos
  | cons p ps ih =>
    rw [textAll_cons, byteLength_append, ← Nat.add_assoc, cutParts]
    split
    · next hhit =>
      refine ih haimed.tail ?_
      rw [Span.hitsBefore_add_of_all (hits_of_isHit hhit)]
      omega
    · next hhit =>
      rw [textAll_cons, byteLength_append, ← Nat.add_assoc]
      refine ih haimed.tail ?_
      rw [Span.hitsBefore_add_of_none (haimed.hits_eq_false hhit)]
      omega

/-- The rules that are left are those that were not cut out, each moved back by the bytes that are cut
out in front of it. -/
theorem forall₂_cutParts (haimed : Aimed spans pos ps) (hpos : pos = pos' + Span.hitsBefore spans pos) :
    List.Forall₂ (fun r r' => r'.shift (Span.hitsBefore spans r.span.start) = r)
      ((placeAll pos ps).filter (·.span ∉ spans)) (placeAll pos' (cutParts spans pos ps)) := by
  induction ps generalizing pos pos' with
  | nil =>
    rw [cutParts, placeAll_nil, placeAll_nil]
    exact .nil
  | cons p ps ih =>
    have hplace : place pos p = Rule.shiftAll (Span.hitsBefore spans pos) (place pos' p) := by
      rw [← place_shift, ← hpos]
    rw [placeAll_cons, List.filter_append, cutParts]
    split
    · next hhit =>
      -- the part goes, and with it the rule that it is
      have hgone : (place pos p).filter (·.span ∉ spans) = [] := by
        rcases place_cases pos p with hnone | ⟨r, hone, -, -⟩
        · rw [hnone]
          rfl
        · simp [hone, (isHit_of_place hone).1 hhit]
      rw [hgone, List.nil_append]
      refine ih haimed.tail ?_
      rw [Span.hitsBefore_add_of_all (hits_of_isHit hhit)]
      omega
    · next hhit =>
      rw [placeAll_cons]
      refine List.rel_append ?_ (ih haimed.tail ?_)
      · rcases place_cases pos' p with hnone | ⟨r, hone, hspan, -⟩
        · rw [hplace, hnone, Rule.shiftAll]
          exact .nil
        · rw [hone, Rule.shiftAll, Rule.shiftAll] at hplace
          have hstays : (r.shift (Span.hitsBefore spans pos)).span ∉ spans := mt (isHit_of_place hplace).2 hhit
          have hstart : (r.shift (Span.hitsBefore spans pos)).span.start = pos := by
            rw [Rule.span_shift, hspan]
            exact hpos.symm
          rw [hplace, hone, List.filter_cons_of_pos (by simpa using hstays), List.filter_nil]
          refine .cons ?_ .nil
          rw [hstart]
      · rw [Span.hitsBefore_add_of_none (haimed.hits_eq_false hhit)]
        omega

theorem mem_of_mem_cutParts (h : p ∈ cutParts spans pos ps) : p ∈ ps := by
  induction ps generalizing pos with
  | nil => exact h
  | cons q ps ih =>
    rw [cutParts] at h
    split at h
    · exact .tail _ (ih h)
    · rcases List.mem_cons.1 h with rfl | h
      · exact .head _
      · exact .tail _ (ih h)

end Part

/-- The text `t` is read as the source without the rules of the given spans. -/
structure ReadsWithout (source : Text) (spans : List Span) (t : Text) : Prop where
  /-- The rules are the others, each moved back by the bytes that are cut out in front of it. -/
  rules : List.Forall₂ (fun r r' => r'.shift (Span.hitsBefore spans r.span.start) = r)
    ((parse source).rules.filter (·.span ∉ spans)) (parse t).rules
  /-- Reading stops at the same place, moved back by all bytes that are cut out. -/
  unparsed : (parse t).unparsed.map (·.shift (Span.hitsBefore spans (byteLength source))) = (parse source).unparsed
  /-- What could not be read is the same text. -/
  tail : ∀ s ∈ (parse t).unparsed,
    s.slice? t = (s.shift (Span.hitsBefore spans (byteLength source))).slice? source

/-- The text of the parts that are left, with the text that could not be read behind it. -/
theorem readsWithout_cutParts {source : Text} {spans : List Span} (haimed : Aimed spans 0 (layout source).1) :
    ReadsWithout source spans (textAll (cutParts spans 0 (layout source).1) ++ (layout source).2) := by
  have hreadable : ∀ p ∈ cutParts spans 0 (layout source).1, p.Readable := fun p hp =>
    readable_of_mem_layout (mem_of_mem_cutParts hp)
  have hlayout := layout_textAll_append hreadable (layout source).2
  rw [layout_of_readConstruct_eq_none (readConstruct_tail source), List.append_nil] at hlayout
  have htail : Span.hitsBefore spans (byteLength source) =
      Span.hitsBefore spans (byteLength (textAll (layout source).1)) := by
    have hlength := congrArg byteLength (textAll_layout source)
    rw [byteLength_append] at hlength
    rw [← hlength]
    exact Span.hitsBefore_add_of_none fun j hlo _ => haimed.hits_behind (by rwa [Nat.zero_add])
  have hbytes : byteLength (textAll (layout source).1) =
      byteLength (textAll (cutParts spans 0 (layout source).1)) +
        Span.hitsBefore spans (byteLength (textAll (layout source).1)) := by
    simpa only [Nat.zero_add] using byteLength_cutParts haimed (Nat.zero_add _).symm
  refine ⟨?_, ?_, ?_⟩
  · rw [parse_eq_placeAll, parse_eq_placeAll, hlayout]
    exact forall₂_cutParts haimed rfl
  · rw [parse_eq_placeAll, parse_eq_placeAll, hlayout, htail]
    show (leftover _ _).map _ = leftover _ _
    rw [← leftover_shift, ← hbytes]
  · intro s hs
    rw [parse_eq_placeAll, hlayout] at hs
    obtain rfl : s = .ofText (byteLength (textAll (cutParts spans 0 (layout source).1))) (layout source).2 := by
      unfold leftover at hs
      split at hs
      · cases hs
      · exact (Option.some.inj hs).symm
    have hfront := Span.slice?_ofText (textAll (cutParts spans 0 (layout source).1)) (layout source).2 []
    have hback := Span.slice?_ofText (textAll (layout source).1) (layout source).2 []
    rw [List.append_nil] at hfront hback
    rw [hfront, ← Span.ofText_shift, htail, ← hbytes, ← hback, textAll_layout]

/-- Behind a text that is read to its end, another text is read as by itself, with every span moved; what
stands before a rule at top level is read to its end; and when rules at top level are cut out, the others
are read as before, each moved back by what is cut out in front of it, and reading stops where it
stopped. -/
theorem parse_append_and_cut :
    (∀ a b : Text, (parse a).unparsed = none →
      parse (a ++ b) = ⟨a ++ b, (parse a).rules ++ Rule.shiftAll (byteLength a) (parse b).rules,
        (parse b).unparsed.map (·.shift (byteLength a))⟩) ∧
    (∀ source : Text, ∀ r ∈ (parse source).rules,
      ∃ x y, source = x ++ (r.text ++ y) ∧ byteLength x = r.span.start ∧ (parse x).unparsed = none) ∧
    ∀ (source : Text) (spans : List Span), (∀ s ∈ spans, ∃ r ∈ (parse source).rules, r.span = s) →
      ∃ t, Pruned.cutSpans 0 source (Span.merge spans) = some t ∧ ReadsWithout source spans t := by
  refine ⟨fun a b h => parse_append h b, fun source r hr => exists_front_of_mem_rules hr,
    fun source spans hspans => ?_⟩
  have haimed : Aimed spans 0 (layout source).1 := by
    intro s hs
    obtain ⟨r, hr, hspan⟩ := hspans s hs
    rw [parse_eq_placeAll] at hr
    exact .inr ⟨r, hr, hspan⟩
  have hends : ∀ s ∈ spans, IsPosition source s.start ∧ IsPosition source s.stop := by
    intro s hs
    obtain ⟨r, hr, rfl⟩ := hspans s hs
    exact isPosition_of_mem_nodes (Rule.mem_nodesAll.2 ⟨r, hr, by rw [Rule.nodes_eq]; exact .head _⟩)
  have hkept : sieve (Span.hits spans) 0 source =
      textAll (cutParts spans 0 (layout source).1) ++ (layout source).2 := by
    have hsource := textAll_layout source
    conv => lhs; rw [← hsource]
    rw [sieve_append, sieve_textAll haimed, sieve_eq_self fun j hlo _ => haimed.hits_behind hlo]
  refine ⟨_, Pruned.cutSpans_merge_eq_sieve hends, ?_⟩
  rw [hkept]
  exact readsWithout_cutParts haimed

/-- A group stands between two rules and is cut out; behind them is text that cannot be read. -/
theorem parse_append_and_cut_media :
    ((parse ".a{b:c}".toList).unparsed = none ∧
      parse (".a{b:c}".toList ++ "@media{.g{h:i}}.d{e:f}.k".toList) =
        ⟨".a{b:c}".toList ++ "@media{.g{h:i}}.d{e:f}.k".toList,
          (parse ".a{b:c}".toList).rules ++
            Rule.shiftAll (byteLength ".a{b:c}".toList) (parse "@media{.g{h:i}}.d{e:f}.k".toList).rules,
          (parse "@media{.g{h:i}}.d{e:f}.k".toList).unparsed.map (·.shift (byteLength ".a{b:c}".toList))⟩) ∧
    (∃ r ∈ (parse ".a{b:c}@media{.g{h:i}}.d{e:f}.k".toList).rules,
      ∃ x y, ".a{b:c}@media{.g{h:i}}.d{e:f}.k".toList = x ++ (r.text ++ y) ∧ byteLength x = r.span.start ∧
        (parse x).unparsed = none) ∧
    (∀ s ∈ [Span.mk 7 22 (by decide)], ∃ r ∈ (parse ".a{b:c}@media{.g{h:i}}.d{e:f}.k".toList).rules, r.span = s) ∧
    ∃ t, Pruned.cutSpans 0 ".a{b:c}@media{.g{h:i}}.d{e:f}.k".toList (Span.merge [⟨7, 22, by decide⟩]) = some t ∧
      ReadsWithout ".a{b:c}@media{.g{h:i}}.d{e:f}.k".toList [⟨7, 22, by decide⟩] t := by
  have hfront : (parse ".a{b:c}".toList).unparsed = none := by decide +kernel
  have hcount : 1 < (parse ".a{b:c}@media{.g{h:i}}.d{e:f}.k".toList).rules.length := by decide +kernel
  have hspans : ∀ s ∈ [Span.mk 7 22 (by decide)],
      ∃ r ∈ (parse ".a{b:c}@media{.g{h:i}}.d{e:f}.k".toList).rules, r.span = s := by decide +kernel
  obtain ⟨happend, hprefix, hcut⟩ := parse_append_and_cut
  exact ⟨⟨hfront, happend _ _ hfront⟩, ⟨_, List.getElem_mem hcount, hprefix _ _ (List.getElem_mem hcount)⟩,
    hspans, hcut _ _ hspans⟩

end Stylesheet

end Cull
