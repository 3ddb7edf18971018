import Cull.Proofs.HeaderTokens
import Cull.Proofs.Layout
import Cull.Proofs.PlanExact

/-!
# Outlines

What goes from a stylesheet depends on little of what is in it: for a plain rule
on the tokens of its selectors, for a group on what is inside it and on whether
all of it could be read. The outline of a stylesheet is what is left when all
else is forgotten. Two stylesheets with the same outline lose the same rules, and
nothing is planned for a stylesheet exactly if everything in its outline stays
(`count_eq_zero_iff`). The parts of a text have the outline of the rules that
they are (`outlineAll_placeAll`), wherever they are put.
-/

namespace Cull

open Text

/-- What matters of a rule for what goes. -/
inductive Outline where
  /-- A plain rule, with the tokens of each selector. -/
  | plain (selectors : List (List Text))
  /-- An at-rule that is kept whole. -/
  | atRule
  /-- A group, with what is inside it and whether all of it could be read. -/
  | group (inside : List Outline) (whole : Bool)

namespace Outline

variable {u : Usage}

mutual

/-- The rule goes. -/
def goes (u : Usage) : Outline → Bool
  | plain selectors => selectors.any (!·.isEmpty) && !selectors.any fun ts => ts.isEmpty || u.containsAny ts
  | atRule => false
  | group inside whole => whole && goesAll u inside

/-- Every rule of a list goes. -/
def goesAll (u : Usage) : List Outline → Bool
  | [] => true
  | o :: rest => goes u o && goesAll u rest

end

mutual

/-- The rule stays, and all rules inside it do. -/
def stays (u : Usage) : Outline → Bool
  | plain selectors => !goes u (.plain selectors)
  | atRule => true
  | group inside whole => !goes u (.group inside whole) && staysAll u inside

/-- Every rule of a list stays, and all rules inside them do. -/
def staysAll (u : Usage) : List Outline → Bool
  | [] => true
  | o :: rest => stays u o && staysAll u rest

end

theorem goesAll_append (os ps : List Outline) : goesAll u (os ++ ps) = (goesAll u os && goesAll u ps) := by
  induction os with
  | nil => simp [goesAll]
  | cons o os ih => simp [goesAll, ih, Bool.and_assoc]

theorem staysAll_append (os ps : List Outline) : staysAll u (os ++ ps) = (staysAll u os && staysAll u ps) := by
  induction os with
  | nil => simp [staysAll]
  | cons o os ih => simp [staysAll, ih, Bool.and_assoc]

end Outline

/-! ### Rules -/

namespace Rule

variable {u : Usage}

mutual

/-- The outline of a rule. -/
def outline : Rule → Outline
  | .plain r => .plain (r.selectors.map Selector.tokens)
  | .atRule _ _ _ => .atRule
  | .group _ _ _ _ children unparsed => .group (outlineAll children) unparsed.isNone

/-- The outline of a list of rules. -/
def outlineAll : List Rule → List Outline
  | [] => []
  | r :: rest => outline r :: outlineAll rest

end

theorem outlineAll_append (rules more : List Rule) :
    outlineAll (rules ++ more) = outlineAll rules ++ outlineAll more := by
  induction rules with
  | nil => simp [outlineAll]
  | cons r rules ih => simp [outlineAll, ih]

theorem verdict_plain_eq_remove_iff (r : PlainRule) :
    r.verdict u = .remove ↔ (outline (.plain r)).goes u = true := by
  have hused : ∀ s, Selector.isUsed s u = ((Selector.tokens s).isEmpty || u.containsAny (Selector.tokens s)) := by
    intro s
    rw [Bool.eq_iff_iff, Selector.isUsed_iff, Bool.or_eq_true, List.isEmpty_iff, Selector.containsAny_iff]
  have hverdict : ∀ hasToken used : Bool,
      (if !hasToken then Verdict.keep else if used then .keep else .remove) = .remove ↔ (hasToken && !used) = true := by
    decide
  rw [PlainRule.verdict, hverdict, outline, Outline.goes, List.any_map, List.any_map]
  simp only [hused]
  rfl

/-- All rules of a list go exactly if their outlines say so. -/
theorem allRemoved_eq_goesAll (rules : List Rule) : allRemoved u rules = Outline.goesAll u (outlineAll rules) := by
  rw [Bool.eq_iff_iff]
  induction rules using forest_induction with
  | nil => simp [allRemoved, outlineAll, Outline.goesAll]
  | plain r rest ih =>
    rw [allRemoved_cons, verdict, verdict_plain_eq_remove_iff, ih, outlineAll, Outline.goesAll, Bool.and_eq_true]
  | atRule name span text rest ih =>
    rw [allRemoved_cons, verdict, outlineAll, Outline.goesAll, outline, Outline.goes]
    simp
  | group name span text inner children unparsed rest ihchildren ih =>
    rw [allRemoved_cons, verdict_group_eq_remove_iff, ihchildren, ih, outlineAll, Outline.goesAll, outline, Outline.goes,
      Bool.and_eq_true, Bool.and_eq_true, Option.isNone_iff_eq_none]

theorem verdict_eq_remove_iff_goes (r : Rule) : r.verdict u = .remove ↔ r.outline.goes u = true := by
  have h := allRemoved_eq_goesAll (u := u) [r]
  rw [Bool.eq_iff_iff, allRemoved_cons] at h
  simpa [allRemoved, outlineAll, Outline.goesAll] using h

/-- Nothing is planned exactly if everything stays. -/
theorem count_eq_zero_iff (rules : List Rule) :
    (planAll u rules).count = 0 ↔ Outline.staysAll u (outlineAll rules) = true := by
  induction rules using forest_induction with
  | nil => simp [planAll, Plan.none, outlineAll, Outline.staysAll]
  | plain r rest ih =>
    rw [planAll, Plan.append, Nat.add_eq_zero_iff, ih, outlineAll, Outline.staysAll, Bool.and_eq_true, plan, outline,
      Outline.stays, ← outline, Bool.not_eq_true', ← Bool.not_eq_true, ← verdict_plain_eq_remove_iff]
    split
    · next h => simp [h]
    · next h => simp [h, Plan.none]
  | atRule name span text rest ih =>
    rw [planAll, Plan.append, Nat.add_eq_zero_iff, ih, outlineAll, Outline.staysAll, Bool.and_eq_true, plan, outline,
      Outline.stays]
    simp [Plan.none]
  | group name span text inner children unparsed rest ihchildren ih =>
    have hgoes := verdict_eq_remove_iff_goes (u := u) (.group name span text inner children unparsed)
    rw [outline] at hgoes
    rw [planAll, Plan.append, Nat.add_eq_zero_iff, ih, outlineAll, Outline.staysAll, Bool.and_eq_true, plan, outline,
      Outline.stays, Bool.and_eq_true, Bool.not_eq_true', ← Bool.not_eq_true, ← hgoes]
    split
    · next h => simp [h]
    · next h => simp [h, ihchildren]

end Rule

/-! ### Parts -/

namespace Stylesheet.Part

/-- Induction on a list of parts, and on the parts inside each group of it. -/
theorem parts_induction {motive : List Part → Prop} (nil : motive [])
    (blank : ∀ c ps, motive ps → motive (.blank c :: ps))
    (comment : ∀ inner ps, motive ps → motive (.comment inner :: ps))
    (plain : ∀ header body ps, motive ps → motive (.plain header body :: ps))
    (atRule : ∀ name text ps, motive ps → motive (.atRule name text :: ps))
    (group : ∀ name header parts tail ps, motive parts → motive ps → motive (.group name header parts tail :: ps)) :
    ∀ ps, motive ps
  | [] => nil
  | .blank c :: ps => blank c ps (parts_induction nil blank comment plain atRule group ps)
  | .comment inner :: ps => comment inner ps (parts_induction nil blank comment plain atRule group ps)
  | .plain header body :: ps => plain header body ps (parts_induction nil blank comment plain atRule group ps)
  | .atRule name text :: ps => atRule name text ps (parts_induction nil blank comment plain atRule group ps)
  | .group name header parts tail :: ps =>
    group name header parts tail ps (parts_induction nil blank comment plain atRule group parts)
      (parts_induction nil blank comment plain atRule group ps)

mutual

/-- The outline of the rule that a part is, if it is one. -/
def outline : Part → List Outline
  | blank _ => []
  | comment _ => []
  | plain header body =>
    if (trim header).isEmpty || (trim body).isEmpty then [] else [.plain (Selector.headerTokens header)]
  | atRule _ _ => [.atRule]
  | group _ _ parts tail => [.group (outlineAll parts) tail.isEmpty]

/-- The outline of the rules that parts are. -/
def outlineAll : List Part → List Outline
  | [] => []
  | p :: ps => outline p ++ outlineAll ps

end

theorem outlineAll_append (ps qs : List Part) : outlineAll (ps ++ qs) = outlineAll ps ++ outlineAll qs := by
  induction ps with
  | nil => simp [outlineAll]
  | cons p ps ih => simp [outlineAll, ih]

/-- The rule of a plain part has the tokens of the header. -/
theorem outline_plainRule (pos : Nat) (header body : Text) :
    Rule.outlineAll ((plainRule? pos header body).map Rule.plain).toList = outline (.plain header body) := by
  rw [plainRule?, outline]
  split
  · rfl
  · simp only [Option.map_some, Option.toList_some, Rule.outlineAll, Rule.outline, Selector.tokens_selectors]

/-- Where the parts are put makes no difference to the outline. -/
theorem outlineAll_placeAll (pos : Nat) (parts : List Part) :
    Rule.outlineAll (placeAll pos parts) = outlineAll parts := by
  induction parts using parts_induction generalizing pos with
  | nil => simp [Rule.outlineAll, outlineAll]
  | blank c ps ih => simp [placeAll_cons, place, outlineAll, outline, ih]
  | comment inner ps ih => simp [placeAll_cons, place, outlineAll, outline, ih]
  | plain header body ps ih =>
    rw [placeAll_cons, place, Rule.outlineAll_append, ih, outline_plainRule, outlineAll]
  | atRule name text ps ih => simp [placeAll_cons, place, outlineAll, outline, Rule.outlineAll, Rule.outline, ih]
  | group name header parts tail ps ihparts ih =>
    have hwhole : ∀ pos, (leftover pos tail).isNone = tail.isEmpty := by
      intro pos
      rw [leftover]
      split
      · next h => simp [h]
      · next h => simpa using h
    simp [placeAll_cons, place, outlineAll, outline, Rule.outlineAll, Rule.outline, ih, ihparts, hwhole]

theorem outlineAll_place (pos : Nat) (p : Part) : Rule.outlineAll (place pos p) = outline p := by
  have h := outlineAll_placeAll pos [p]
  simpa [outlineAll] using h

end Stylesheet.Part

/-- Nothing is planned for a stylesheet exactly if everything in its outline stays. -/
theorem count_eq_zero_iff_staysAll (css : Text) (u : Usage) :
    ((Stylesheet.parse css).plan u).count = 0 ↔
      Outline.staysAll u (Stylesheet.Part.outlineAll (Stylesheet.layout css).1) = true := by
  rw [Stylesheet.plan, Rule.count_eq_zero_iff, Stylesheet.parse_eq_placeAll, Stylesheet.Part.outlineAll_placeAll]

end Cull
