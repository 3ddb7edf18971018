import Cull.Proofs.CutText
import Cull.Proofs.Outline

/-!
# The parts that stay

Pruning cuts bytes out of a text; seen in the layout, it leaves out parts. What
the plan leaves of a stylesheet is the text of the parts that stay
(`kept_eq_keepAll`), and all that is in their outline stays
(`staysAll_keepAll`). Reading the text of these parts gives them back if each
group that stays is still closed by its own brace (`layout_keepAll`).
-/

namespace Cull

open Text

/-! ### What a plan leaves of a piece of text -/

namespace Text

theorem sieve_hits_append {spans more : List Span} {pos : Nat} {x : Text}
    (hbefore : ∀ s ∈ spans, s.stop ≤ pos + byteLength x) (hbehind : ∀ s ∈ more, pos + byteLength x ≤ s.start)
    (y : Text) :
    sieve (Span.hits (spans ++ more)) pos (x ++ y) =
      sieve (Span.hits spans) pos x ++ sieve (Span.hits more) (pos + byteLength x) y := by
  have hor : ∀ i, Span.hits (spans ++ more) i = (Span.hits spans i || Span.hits more i) := by
    intro i
    rw [Span.hits, List.any_append]
    rfl
  rw [sieve_append]
  congr 1
  · refine sieve_congr fun i _ hi => ?_
    have hmore : Span.hits more i = false := Span.hits_eq_false_iff.2 fun s hs =>
      .inl (Nat.lt_of_lt_of_le hi (hbehind s hs))
    rw [hor, hmore, Bool.or_false]
  · refine sieve_congr fun i hi _ => ?_
    have hspans : Span.hits spans i = false := Span.hits_eq_false_iff.2 fun s hs =>
      .inr (Nat.le_trans (hbefore s hs) hi)
    rw [hor, hspans, Bool.false_or]

end Text

/-- What is planned for `rules` lies inside the text `x` at byte `pos`, and leaves `y` of it. -/
structure Rule.Leaves (u : Usage) (rules : List Rule) (pos : Nat) (x y : Text) : Prop where
  /-- Nothing outside the text goes. -/
  inside : ∀ s ∈ (planAll u rules).removed, pos ≤ s.start ∧ s.stop ≤ pos + byteLength x
  /-- What is left of the text. -/
  left : sieve (Span.hits (planAll u rules).removed) pos x = y

namespace Rule.Leaves

variable {u : Usage} {pos : Nat} {x y x' y' : Text} {rules more : List Rule}

theorem removed_append (rules more : List Rule) :
    (planAll u (rules ++ more)).removed = (planAll u rules).removed ++ (planAll u more).removed := by
  induction rules with
  | nil => simp [planAll, Plan.none]
  | cons r rules ih => rw [List.cons_append, planAll_cons_removed, planAll_cons_removed, ih, List.append_assoc]

theorem append (h : Leaves u rules pos x y) (h' : Leaves u more (pos + byteLength x) x' y') :
    Leaves u (rules ++ more) pos (x ++ x') (y ++ y') := by
  constructor
  · intro s hs
    rw [removed_append, List.mem_append] at hs
    rw [byteLength_append]
    rcases hs with hs | hs
    · have := h.inside s hs
      omega
    · have := h'.inside s hs
      omega
  · rw [removed_append, sieve_hits_append (fun s hs => (h.inside s hs).2) (fun s hs => (h'.inside s hs).1), h.left,
      h'.left]

/-- Where nothing is planned, all is left. -/
theorem all (h : (planAll u rules).removed = []) : Leaves u rules pos x x := by
  constructor
  · simp [h]
  · rw [h]
    exact sieve_eq_self fun _ _ _ => rfl

/-- Where the span of the text is planned, nothing is left. -/
theorem nothing (h : (planAll u rules).removed = [.ofText pos x]) : Leaves u rules pos x [] := by
  constructor
  · simp [h]
  · rw [h]
    exact sieve_eq_nil fun i hlo hhi => Span.hits_iff.2 ⟨_, .head _, hlo, hhi⟩

theorem congr (h : Leaves u rules pos x y) (hremoved : (planAll u more).removed = (planAll u rules).removed) :
    Leaves u more pos x y :=
  ⟨by rw [hremoved]; exact h.inside, by rw [hremoved]; exact h.left⟩

end Rule.Leaves

/-! ### Parts that stay -/

namespace Stylesheet.Part

variable {u : Usage}

/-- The rule that a part is goes. -/
def goes (u : Usage) (p : Part) : Bool := p.outline.any (·.goes u)

mutual

/-- What stays of a part. -/
def keep (u : Usage) : Part → List Part
  | blank c => [.blank c]
  | comment inner => [.comment inner]
  | plain header body => if goes u (.plain header body) then [] else [.plain header body]
  | atRule name text => [.atRule name text]
  | group name header parts tail =>
    if goes u (.group name header parts tail) then [] else [.group name header (keepAll u parts) tail]

/-- What stays of parts. -/
def keepAll (u : Usage) : List Part → List Part
  | [] => []
  | p :: ps => keep u p ++ keepAll u ps

end

/-- The rule that a part is goes exactly if the part does. -/
theorem goes_iff_verdict {pos : Nat} {p : Part} {r : Rule} (h : place pos p = [r]) :
    goes u p = true ↔ r.verdict u = .remove := by
  rw [goes, ← outlineAll_place pos, h, Rule.verdict_eq_remove_iff_goes]
  simp [Rule.outlineAll]

/-- Of a part that goes nothing is left. -/
theorem leaves_of_goes {pos : Nat} {p : Part} {r : Rule} (hplace : place pos p = [r])
    (hspan : r.span = .ofText pos p.text) (hgoes : goes u p = true) : Rule.Leaves u (place pos p) pos p.text [] := by
  refine .nothing ?_
  rw [hplace, Rule.planAll_cons_removed, Rule.plan_removed, if_pos ((goes_iff_verdict hplace).1 hgoes), hspan]
  rfl

theorem removed_of_stays {pos : Nat} {p : Part} {r : Rule} (hplace : place pos p = [r]) (hstays : ¬ goes u p = true) :
    (Rule.planAll u (place pos p)).removed = (Rule.planAll u r.children).removed := by
  rw [hplace, Rule.planAll_cons_removed, Rule.plan_removed, if_neg (mt (goes_iff_verdict hplace).2 hstays)]
  exact List.append_nil _

/-- A part for which nothing is planned stays as it is. -/
theorem leaves_whole {pos : Nat} {p : Part} (hkeep : keep u p = [p])
    (hremoved : (Rule.planAll u (place pos p)).removed = []) :
    Rule.Leaves u (place pos p) pos p.text (textAll (keep u p)) := by
  rw [hkeep, textAll_cons, textAll_nil, List.append_nil]
  exact .all hremoved

theorem leaves_plain (pos : Nat) (header body : Text) :
    Rule.Leaves u (place pos (.plain header body)) pos (text (.plain header body))
      (textAll (keep u (.plain header body))) := by
  cases hr : plainRule? pos header body with
  | none =>
    have hplace : place pos (.plain header body) = [] := by
      rw [place, hr]
      rfl
    have hstays : goes u (.plain header body) = false := by
      rw [goes, ← outlineAll_place pos, hplace]
      rfl
    exact leaves_whole (by simp [keep, hstays]) (by rw [hplace]; rfl)
  | some r =>
    have hplace : place pos (.plain header body) = [.plain r] := by
      rw [place, hr]
      rfl
    have hspan : r.span = .ofText pos (text (.plain header body)) := by
      unfold plainRule? at hr
      split at hr
      · cases hr
      · cases hr
        rfl
    by_cases hgoes : goes u (.plain header body) = true
    · rw [keep, if_pos hgoes]
      exact leaves_of_goes hplace hspan hgoes
    · refine leaves_whole (by rw [keep, if_neg hgoes]) ?_
      rw [removed_of_stays hplace hgoes]
      rfl

theorem leaves_group {name header : Text} {parts : List Part} {tail : Text} {pos : Nat}
    (h : Rule.Leaves u (placeAll (pos + byteLength header) parts) (pos + byteLength header) (textAll parts)
      (textAll (keepAll u parts))) :
    Rule.Leaves u (place pos (.group name header parts tail)) pos (text (.group name header parts tail))
      (textAll (keep u (.group name header parts tail))) := by
  obtain ⟨inner, unparsed, hplace⟩ : ∃ inner unparsed, place pos (.group name header parts tail) =
      [.group name (.ofText pos (text (.group name header parts tail))) (text (.group name header parts tail)) inner
        (placeAll (pos + byteLength header) parts) unparsed] := ⟨_, _, by rw [place, text]⟩
  by_cases hgoes : goes u (.group name header parts tail) = true
  · rw [keep, if_pos hgoes]
    exact leaves_of_goes hplace rfl hgoes
  · have hremoved : (Rule.planAll u (place pos (.group name header parts tail))).removed =
        (Rule.planAll u (placeAll (pos + byteLength header) parts)).removed := removed_of_stays hplace hgoes
    -- the header and the tail stay, and nothing is planned for them
    have hheader : Rule.Leaves u [] pos header header := .all rfl
    have htail : Rule.Leaves u [] (pos + byteLength header + byteLength (textAll parts)) (tail ++ ['}'])
        (tail ++ ['}']) := .all rfl
    have hall := hheader.append (h.append htail)
    rw [List.nil_append, List.append_nil] at hall
    rw [keep, if_neg hgoes]
    simpa only [textAll_cons, textAll_nil, text, List.append_assoc, List.append_nil] using hall.congr hremoved

theorem leaves_cons {pos : Nat} {p : Part} {ps : List Part}
    (h : Rule.Leaves u (place pos p) pos p.text (textAll (keep u p)))
    (hps : Rule.Leaves u (placeAll (pos + byteLength p.text) ps) (pos + byteLength p.text) (textAll ps)
      (textAll (keepAll u ps))) :
    Rule.Leaves u (placeAll pos (p :: ps)) pos (textAll (p :: ps)) (textAll (keepAll u (p :: ps))) := by
  rw [placeAll_cons, textAll_cons, keepAll, textAll_append]
  exact h.append hps

/-- The plan for parts leaves the text of what stays of them. -/
theorem leaves_placeAll (pos : Nat) (parts : List Part) :
    Rule.Leaves u (placeAll pos parts) pos (textAll parts) (textAll (keepAll u parts)) := by
  induction parts using parts_induction generalizing pos with
  | nil => exact .all rfl
  | blank c ps ih => exact leaves_cons (leaves_whole (by rw [keep]) (by rw [place]; rfl)) (ih _)
  | comment inner ps ih => exact leaves_cons (leaves_whole (by rw [keep]) (by rw [place]; rfl)) (ih _)
  | plain header body ps ih => exact leaves_cons (leaves_plain pos header body) (ih _)
  | atRule name text ps ih => exact leaves_cons (leaves_whole (by rw [keep]) (by rw [place]; rfl)) (ih _)
  | group name header parts tail ps ihparts ih => exact leaves_cons (leaves_group (ihparts _)) (ih _)

/-! ### Nothing more goes -/

/-- What stays of parts stays whole; and if not all of them go, not all that stays of them goes. -/
structure Settled (u : Usage) (parts kept : List Part) : Prop where
  /-- Everything stays. -/
  stays : Outline.staysAll u (outlineAll kept) = true
  /-- Something stays, if something stayed. -/
  remains : Outline.goesAll u (outlineAll parts) = false → Outline.goesAll u (outlineAll kept) = false

theorem Settled.append {ps qs ps' qs' : List Part} (h : Settled u ps ps') (h' : Settled u qs qs') :
    Settled u (ps ++ qs) (ps' ++ qs') := by
  constructor
  · rw [outlineAll_append, Outline.staysAll_append, h.stays, h'.stays, Bool.and_true]
  · rw [outlineAll_append, outlineAll_append, Outline.goesAll_append, Outline.goesAll_append, Bool.and_eq_false_iff,
      Bool.and_eq_false_iff]
    exact Or.imp h.remains h'.remains

theorem outlineAll_singleton (p : Part) : outlineAll [p] = outline p := by
  rw [outlineAll, outlineAll, List.append_nil]

/-- A part is at most one rule. -/
theorem outline_cases (p : Part) : outline p = [] ∨ ∃ o, outline p = [o] := by
  cases p with
  | blank c => exact .inl (by rw [outline])
  | comment inner => exact .inl (by rw [outline])
  | plain header body =>
    rw [outline]
    split
    · exact .inl rfl
    · exact .inr ⟨_, rfl⟩
  | atRule name text => exact .inr ⟨_, by rw [outline]⟩
  | group name header parts tail => exact .inr ⟨_, by rw [outline]⟩

theorem settled_of_goes {p : Part} (h : goes u p = true) : Settled u [p] [] := by
  refine ⟨by simp [outlineAll, Outline.staysAll], fun hfalse => ?_⟩
  rw [outlineAll_singleton] at hfalse
  rw [goes] at h
  rcases outline_cases p with hp | ⟨o, hp⟩
  · simp [hp] at h
  · simp_all [Outline.goesAll]

/-- A part that is a rule, and stays, is settled if what it has become stays. -/
theorem settled_of_stays {p q : Part} {o : Outline} (h : outline q = [o]) (hstays : o.stays u = true)
    (hgoes : o.goes u = false) : Settled u [p] [q] := by
  constructor
  · simp [outlineAll_singleton, h, Outline.staysAll, hstays]
  · intro _
    simp [outlineAll_singleton, h, Outline.goesAll, hgoes]

theorem settled_of_outline_eq_nil {p : Part} (h : outline p = []) : Settled u [p] [p] := by
  constructor
  · simp [outlineAll_singleton, h, Outline.staysAll]
  · exact id

theorem settled_plain (header body : Text) : Settled u [.plain header body] (keep u (.plain header body)) := by
  by_cases hgoes : goes u (.plain header body) = true
  · rw [keep, if_pos hgoes]
    exact settled_of_goes hgoes
  · rw [keep, if_neg hgoes]
    rw [goes, outline] at hgoes
    by_cases hblank : ((trim header).isEmpty || (trim body).isEmpty) = true
    · exact settled_of_outline_eq_nil (by rw [outline, if_pos hblank])
    · have houtline : outline (.plain header body) = [.plain (Selector.headerTokens header)] := by
        rw [outline, if_neg hblank]
      have hfalse : Outline.goes u (.plain (Selector.headerTokens header)) = false := by
        simpa [hblank] using hgoes
      exact settled_of_stays houtline (by rw [Outline.stays, hfalse]; rfl) hfalse

theorem settled_group {name header tail : Text} {parts : List Part} (h : Settled u parts (keepAll u parts)) :
    Settled u [.group name header parts tail] (keep u (.group name header parts tail)) := by
  by_cases hgoes : goes u (.group name header parts tail) = true
  · rw [keep, if_pos hgoes]
    exact settled_of_goes hgoes
  · rw [keep, if_neg hgoes]
    -- what made the group stay is still in it
    have hfalse : Outline.goes u (.group (outlineAll (keepAll u parts)) tail.isEmpty) = false := by
      rw [Outline.goes, Bool.and_eq_false_iff]
      rw [goes, outline, List.any_cons, List.any_nil, Bool.or_false, Outline.goes, Bool.not_eq_true,
        Bool.and_eq_false_iff] at hgoes
      exact Or.imp_right h.remains hgoes
    have houtline : outline (.group name header (keepAll u parts) tail) =
        [.group (outlineAll (keepAll u parts)) tail.isEmpty] := by rw [outline]
    exact settled_of_stays houtline (by rw [Outline.stays, hfalse, h.stays]; rfl) hfalse

theorem settled_keepAll (parts : List Part) : Settled u parts (keepAll u parts) := by
  induction parts using parts_induction with
  | nil => exact ⟨by simp [keepAll, outlineAll, Outline.staysAll], by simp [keepAll]⟩
  | blank c ps ih =>
    rw [keepAll, keep]
    exact (settled_of_outline_eq_nil (by rw [outline])).append ih
  | comment inner ps ih =>
    rw [keepAll, keep]
    exact (settled_of_outline_eq_nil (by rw [outline])).append ih
  | plain header body ps ih =>
    rw [keepAll]
    exact (settled_plain header body).append ih
  | atRule name text ps ih =>
    have houtline : outline (.atRule name text) = [.atRule] := by rw [outline]
    rw [keepAll, keep]
    exact (settled_of_stays houtline (by rw [Outline.stays]) (by rw [Outline.goes])).append ih
  | group name header parts tail ps ihparts ih =>
    rw [keepAll]
    exact (settled_group ihparts).append ih

/-! ### Reading what stays -/

mutual

/-- In the text of the part, each group is closed by its own brace. -/
def isClosed : Part → Bool
  | group _ _ parts tail =>
    closeBlock 0 (textAll parts ++ tail ++ ['}']) = some (textAll parts ++ tail, []) && isClosedAll parts
  | _ => true

/-- In the text of each part, each group is closed by its own brace. -/
def isClosedAll : List Part → Bool
  | [] => true
  | p :: ps => isClosed p && isClosedAll ps

end

theorem isClosedAll_append (ps qs : List Part) : isClosedAll (ps ++ qs) = (isClosedAll ps && isClosedAll qs) := by
  induction ps with
  | nil => simp [isClosedAll]
  | cons p ps ih => simp [isClosedAll, ih, Bool.and_assoc]

end Stylesheet.Part

/-- What the plan for a stylesheet leaves is the text of the parts that stay, and what could not be
read. -/
theorem Stylesheet.kept_eq_keepAll (css : Text) (u : Usage) :
    ((parse css).plan u).kept 0 css = Part.textAll (Part.keepAll u (layout css).1) ++ (layout css).2 := by
  have htail : Rule.Leaves u [] (0 + byteLength (Part.textAll (layout css).1)) (layout css).2 (layout css).2 := .all rfl
  have hall := ((Part.leaves_placeAll 0 (layout css).1).append htail).left
  rw [List.append_nil, textAll_layout] at hall
  rw [Plan.kept, plan, parse_eq_placeAll]
  exact hall

namespace Stylesheet

open Stylesheet.Part

variable {u : Usage}

/-- The part is what is read of its text, in front of any text. -/
def Part.Readable (p : Part) : Prop := ∀ rest, ∃ c, readConstruct (p.text ++ rest) = some (c, rest) ∧ c.part = p

theorem layout_textAll_append {ps : List Part} (h : ∀ p ∈ ps, p.Readable) (t : Text) :
    layout (textAll ps ++ t) = (ps ++ (layout t).1, (layout t).2) := by
  induction ps with
  | nil => rfl
  | cons p ps ih =>
    obtain ⟨hp, hps⟩ := List.forall_mem_cons.1 h
    obtain ⟨c, hread, hpart⟩ := hp (textAll ps ++ t)
    rw [textAll_cons, List.append_assoc, layout_of_readConstruct hread, hpart, ih hps, List.cons_append]

/-- Readable parts with nothing behind them are all that is read of their text. -/
theorem layout_textAll {ps : List Part} (h : ∀ p ∈ ps, p.Readable) : layout (textAll ps) = (ps, []) := by
  have hnil : layout [] = ([], []) := layout_of_readConstruct_eq_none (by rw [readConstruct])
  have happend := layout_textAll_append h []
  rwa [List.append_nil, hnil, List.append_nil] at happend

/-- What stays of a part is the part, or for a group what stays of its parts. -/
theorem Part.mem_keep {p q : Part} (h : p ∈ keep u q) :
    (p = q ∧ ∀ name header parts tail, q ≠ .group name header parts tail) ∨
    ∃ name header parts tail, q = .group name header parts tail ∧ p = .group name header (keepAll u parts) tail := by
  cases q with
  | blank c => exact .inl ⟨by simpa [keep] using h, by simp⟩
  | comment inner => exact .inl ⟨by simpa [keep] using h, by simp⟩
  | plain header body =>
    rw [keep] at h
    split at h
    · cases h
    · exact .inl ⟨List.mem_singleton.1 h, by simp⟩
  | atRule name text => exact .inl ⟨by simpa [keep] using h, by simp⟩
  | group name header parts tail =>
    rw [keep] at h
    split at h
    · cases h
    · exact .inr ⟨name, header, parts, tail, rfl, List.mem_singleton.1 h⟩

theorem Part.exists_of_mem_keepAll {p : Part} {ps : List Part} (h : p ∈ keepAll u ps) : ∃ q ∈ ps, p ∈ keep u q := by
  induction ps with
  | nil =>
    rw [keepAll] at h
    cases h
  | cons q ps ih =>
    rw [keepAll, List.mem_append] at h
    rcases h with h | h
    · exact ⟨q, .head _, h⟩
    · obtain ⟨r, hr, hp⟩ := ih h
      exact ⟨r, .tail _ hr, hp⟩

/-- Every part of a text is a construct that was read. -/
theorem exists_construct_of_mem_layout {p : Part} {t : Text} (h : p ∈ (layout t).1) :
    ∃ t' c rest, readConstruct t' = some (c, rest) ∧ c.part = p := by
  induction t using construct_induction with
  | stop t hnone =>
    rw [layout_of_readConstruct_eq_none hnone] at h
    cases h
  | step t c rest hread ihbody ih =>
    rw [layout_of_readConstruct hread] at h
    rcases List.mem_cons.1 h with rfl | h
    · exact ⟨t, c, rest, hread, rfl⟩
    · exact ih h

theorem Construct.eq_block_of_part_eq_group {c : Construct} {name header tail : Text} {parts : List Part}
    (h : c.part = .group name header parts tail) :
    ∃ body, c = .atRule (.block name header body) ∧ groupNames.contains name = true ∧ layout body = (parts, tail) := by
  cases c with
  | blank c => cases h
  | comment inner => cases h
  | plain header body => cases h
  | atRule form =>
    cases form with
    | statement name text => cases h
    | block name' header' body =>
      rw [Construct.part, ofBlock] at h
      split at h
      · next hname =>
        cases h
        exact ⟨body, rfl, hname, rfl⟩
      · cases h

theorem Part.isClosedAll_iff {ps : List Part} : isClosedAll ps = true ↔ ∀ p ∈ ps, isClosed p = true := by
  induction ps with
  | nil => simp [isClosedAll]
  | cons p ps ih => rw [isClosedAll, Bool.and_eq_true, ih, List.forall_mem_cons]

/-- A group keeps its header with any block that its brace closes and that is read as its parts. -/
theorem Part.readable_group {t rest name header body tail : Text} {parts : List Part}
    (h : readConstruct t = some (.atRule (.block name header body), rest)) (hname : groupNames.contains name = true)
    (hbrace : closeBlock 0 (textAll parts ++ tail ++ ['}']) = some (textAll parts ++ tail, []))
    (hlayout : layout (textAll parts ++ tail) = (parts, tail)) : (Part.group name header parts tail).Readable := by
  intro rest'
  refine ⟨.atRule (.block name header (textAll parts ++ tail)), ?_, ?_⟩
  · rw [text, List.append_assoc, List.append_assoc _ ['}'], List.singleton_append]
    exact readConstruct_block h hbrace rest'
  · rw [Construct.part, ofBlock, if_pos hname, hlayout]

/-- Each part that stays is read from its text, if its groups are closed. -/
theorem readable_keepAll (t : Text) (hclosed : isClosedAll (keepAll u (layout t).1) = true) :
    ∀ p ∈ keepAll u (layout t).1, p.Readable := by
  induction t using construct_induction with
  | stop t h => simp [layout_of_readConstruct_eq_none h, keepAll]
  | step t c rest h ihbody ih =>
    rw [layout_of_readConstruct h, keepAll, isClosedAll_append, Bool.and_eq_true] at hclosed
    rw [layout_of_readConstruct h, keepAll]
    intro p hp
    rcases List.mem_append.1 hp with hp | hp
    · have hpclosed := isClosedAll_iff.1 hclosed.1 p hp
      rcases mem_keep hp with ⟨rfl, -⟩ | ⟨name, header, parts, tail, hgroup, rfl⟩
      · exact fun rest' => ⟨c, by rw [c.part_text, readConstruct_text_append h rest'], rfl⟩
      · -- the block of a group is the text of what stays of its parts
        obtain ⟨body, rfl, hname, hlayout⟩ := Construct.eq_block_of_part_eq_group hgroup
        rw [isClosed, Bool.and_eq_true, decide_eq_true_eq] at hpclosed
        obtain ⟨hbrace, hinside⟩ := hpclosed
        have hreadable := ihbody name header body rfl (by rw [hlayout]; exact hinside)
        have htail := readConstruct_tail body
        rw [hlayout] at hreadable htail
        have hbody := layout_textAll_append hreadable tail
        rw [layout_of_readConstruct_eq_none htail, List.append_nil] at hbody
        exact readable_group h hname hbrace hbody
    · exact ih hclosed.2 p hp

/-- Reading the text of the parts that stay gives these parts, if their groups are closed. -/
theorem layout_keepAll {t : Text} (hclosed : isClosedAll (keepAll u (layout t).1) = true) :
    layout (textAll (keepAll u (layout t).1) ++ (layout t).2) = (keepAll u (layout t).1, (layout t).2) := by
  rw [layout_textAll_append (readable_keepAll t hclosed), layout_of_readConstruct_eq_none (readConstruct_tail t),
    List.append_nil]

end Stylesheet

end Cull
