import Cull.Proofs.Constructs
import Cull.Proofs.Slices

/-!
# The layout of a stylesheet

Reading a stylesheet leaves out what stands between the rules and turns texts
into spans. The layout keeps everything and has no offsets: it is the list of
the parts that a text consists of, one after the other, with the parts of a
group inside it, and the text that is left where reading stops. The texts of the
parts make up the text that was read (`textAll_layout`), and the rules are the
parts put in their places (`readRules_eq_placeAll`). What is proved about rules
and their spans is proved by induction on parts.
-/

namespace Cull.Stylesheet

open Text

/-- A part of a stylesheet. -/
inductive Part where
  /-- An ASCII blank. -/
  | blank (c : Char)
  /-- A comment; `inner` is all that follows its opening mark. -/
  | comment (inner : Text)
  /-- The header of a plain rule and the text inside its braces, either of which may be blank. -/
  | plain (header body : Text)
  /-- An at-rule that is kept whole. -/
  | atRule (name text : Text)
  /-- A group: its name, its header with the opening brace, the parts of its block, and the rest of
  the block where reading stopped. -/
  | group (name header : Text) (parts : List Part) (tail : Text)

namespace Part

mutual

/-- The text of a part. -/
def text : Part → Text
  | blank c => [c]
  | comment inner => '/' :: '*' :: inner
  | plain header body => header ++ '\x7b' :: (body ++ ['}'])
  | atRule _ text => text
  | group _ header parts tail => header ++ (textAll parts ++ tail ++ ['}'])

/-- The text of a list of parts. -/
def textAll : List Part → Text
  | [] => []
  | p :: ps => text p ++ textAll ps

end

@[simp]
theorem textAll_nil : textAll [] = [] := by simp [textAll]

@[simp]
theorem textAll_cons (p : Part) (ps : List Part) : textAll (p :: ps) = p.text ++ textAll ps := by
  simp [textAll]

@[simp]
theorem textAll_append (ps qs : List Part) : textAll (ps ++ qs) = textAll ps ++ textAll qs := by
  induction ps with
  | nil => simp
  | cons p ps ih => simp [ih]

/-- The part that an at-rule is: a group if its name says so. -/
def ofBlock (name header body : Text) (block : List Part × Text) : Part :=
  if groupNames.contains name then .group name header block.1 block.2
  else .atRule name (header ++ (body ++ ['}']))

mutual

/-- The rule that a part at byte `pos` is, if it is one. -/
def place (pos : Nat) : Part → List Rule
  | blank _ => []
  | comment _ => []
  | plain header body => ((plainRule? pos header body).map Rule.plain).toList
  | atRule name text => [.atRule name (.ofText pos text) text]
  | group name header parts tail =>
    let body := textAll parts ++ tail
    let text := header ++ (body ++ ['}'])
    let innerStart := pos + byteLength header
    [.group name (.ofText pos text) text (.ofText innerStart body) (placeAll innerStart parts)
      (leftover (innerStart + byteLength (textAll parts)) tail)]

/-- The rules of parts of which the first begins at byte `pos`. -/
def placeAll (pos : Nat) : List Part → List Rule
  | [] => []
  | p :: ps => place pos p ++ placeAll (pos + byteLength p.text) ps

end

@[simp]
theorem placeAll_nil (pos : Nat) : placeAll pos [] = [] := by simp [placeAll]

@[simp]
theorem placeAll_cons (pos : Nat) (p : Part) (ps : List Part) :
    placeAll pos (p :: ps) = p.place pos ++ placeAll (pos + byteLength p.text) ps := by
  simp [placeAll]

end Part

open Stylesheet.Part

/-- The parts of a text, and the rest from where reading stops. -/
def layout (t : Text) : List Part × Text :=
  match (readConstruct t).attach with
  | none => ([], t)
  | some ⟨(.blank c, rest), h⟩ =>
    have := length_readConstruct_lt h
    (.blank c :: (layout rest).1, (layout rest).2)
  | some ⟨(.comment inner, rest), h⟩ =>
    have := length_readConstruct_lt h
    (.comment inner :: (layout rest).1, (layout rest).2)
  | some ⟨(.atRule (.statement name text), rest), h⟩ =>
    have := length_readConstruct_lt h
    (.atRule name text :: (layout rest).1, (layout rest).2)
  | some ⟨(.atRule (.block name header body), rest), h⟩ =>
    have := length_readConstruct_lt h
    have := length_block_lt h
    (.ofBlock name header body (layout body) :: (layout rest).1, (layout rest).2)
  | some ⟨(.plain header body, rest), h⟩ =>
    have := length_readConstruct_lt h
    (.plain header body :: (layout rest).1, (layout rest).2)
  termination_by t.length

/-! ### What one construct contributes -/

/-- The part that a construct is. -/
def Construct.part : Construct → Part
  | blank c => .blank c
  | comment inner => .comment inner
  | atRule (.statement name text) => .atRule name text
  | atRule (.block name header body) => .ofBlock name header body (layout body)
  | plain header body => .plain header body

theorem layout_of_readConstruct {t rest : Text} {c : Construct} (h : readConstruct t = some (c, rest)) :
    layout t = (c.part :: (layout rest).1, (layout rest).2) := by
  rw [layout]
  split
  next hn => simp_all
  all_goals
    rename_i h' _
    cases h.symm.trans h'
    rfl

theorem layout_of_readConstruct_eq_none {t : Text} (h : readConstruct t = none) : layout t = ([], t) := by
  rw [layout]
  split <;> simp_all

theorem readRules_of_readConstruct_eq_none {t : Text} (h : readConstruct t = none) (pos : Nat) :
    readRules pos t = ([], leftover pos t) := by
  rw [readRules]
  split <;> simp_all

/-- The rule that a construct at byte `pos` is, if it is one. -/
def Construct.rules (pos : Nat) : Construct → List Rule
  | blank _ => []
  | comment _ => []
  | atRule (.statement name text) => [.atRule name (.ofText pos text) text]
  | atRule (.block name header body) =>
    let text := header ++ (body ++ ['}'])
    if groupNames.contains name then
      let innerStart := pos + byteLength header
      [.group name (.ofText pos text) text (.ofText innerStart body) (readRules innerStart body).1
        (readRules innerStart body).2]
    else [.atRule name (.ofText pos text) text]
  | plain header body => ((plainRule? pos header body).map Rule.plain).toList

/-- Reading goes on behind the construct that was read. -/
theorem readRules_of_readConstruct {t rest : Text} {c : Construct} (h : readConstruct t = some (c, rest)) (pos : Nat) :
    readRules pos t = (c.rules pos ++ (readRules (pos + byteLength c.text) rest).1,
      (readRules (pos + byteLength c.text) rest).2) := by
  have hslash : '/'.utf8Size = 1 := rfl
  have hstar : '*'.utf8Size = 1 := rfl
  have hopen : '\x7b'.utf8Size = 1 := rfl
  have hclose : '}'.utf8Size = 1 := rfl
  rw [readRules]
  split
  next hn => simp_all
  all_goals
    rename_i h' _
    cases h.symm.trans h'
  · rfl
  · simp only [Construct.rules, Construct.text, byteLength_cons, hslash, hstar, List.nil_append, ← Nat.add_assoc]
  · rfl
  · simp only [Construct.rules, Construct.text, AtForm.text]
    split <;> rfl
  · rename_i header body _
    simp only [Construct.rules, Construct.text, byteLength_append, byteLength_cons, byteLength_nil, hopen, hclose,
      Nat.add_zero, ← Nat.add_assoc]
    cases plainRule? pos header body <;> rfl

/-! ### The whole text -/

/-- Induction along the constructs of a text, and of the blocks among them. -/
theorem construct_induction {motive : Text → Prop} (stop : ∀ t, readConstruct t = none → motive t)
    (step : ∀ t c rest, readConstruct t = some (c, rest) →
      (∀ name header body, c = .atRule (.block name header body) → motive body) → motive rest → motive t)
    (t : Text) : motive t := by
  induction hn : t.length using Nat.strongRecOn generalizing t with
  | ind n ih =>
    subst hn
    cases h : readConstruct t with
    | none => exact stop t h
    | some p =>
      obtain ⟨c, rest⟩ := p
      refine step t c rest h ?_ (ih rest.length (length_readConstruct_lt h) rest rfl)
      rintro name header body rfl
      exact ih body.length (length_block_lt h) body rfl

/-- The part that a construct is has its text, if the parts of a block make up the block. -/
theorem Construct.part_text_of {c : Construct}
    (hbody : ∀ name header body, c = .atRule (.block name header body) →
      textAll (layout body).1 ++ (layout body).2 = body) : c.part.text = c.text := by
  cases c with
  | blank c => rfl
  | comment inner => rfl
  | plain header body => rfl
  | atRule form =>
    cases form with
    | statement name text => rfl
    | block name header body =>
      simp only [Construct.part, ofBlock, Construct.text, AtForm.text]
      split
      · rw [Part.text, hbody name header body rfl]
      · rw [Part.text]

/-- The parts of a text and what is left make up the text. -/
theorem textAll_layout (t : Text) : textAll (layout t).1 ++ (layout t).2 = t := by
  induction t using construct_induction with
  | stop t h => simp [layout_of_readConstruct_eq_none h]
  | step t c rest h ihbody ih =>
    rw [layout_of_readConstruct h, textAll_cons, List.append_assoc, ih, Construct.part_text_of ihbody,
      readConstruct_append h]

@[simp]
theorem Construct.part_text (c : Construct) : c.part.text = c.text :=
  Construct.part_text_of fun _ _ body _ => textAll_layout body

/-- What is left is left because no construct can be read from it. -/
theorem readConstruct_tail (t : Text) : readConstruct (layout t).2 = none := by
  induction t using construct_induction with
  | stop t h => rw [layout_of_readConstruct_eq_none h, h]
  | step t c rest h ihbody ih => rw [layout_of_readConstruct h, ih]

/-- The rules of a text are its parts put in their places. -/
theorem readRules_eq_placeAll (pos : Nat) (t : Text) :
    readRules pos t = (placeAll pos (layout t).1,
      leftover (pos + byteLength (textAll (layout t).1)) (layout t).2) := by
  induction t using construct_induction generalizing pos with
  | stop t h => simp [layout_of_readConstruct_eq_none h, readRules_of_readConstruct_eq_none h]
  | step t c rest h ihbody ih =>
    have hplace : c.rules pos = c.part.place pos := by
      cases c with
      | blank c => simp [Construct.rules, Construct.part, place]
      | comment inner => simp [Construct.rules, Construct.part, place]
      | plain header body => simp [Construct.rules, Construct.part, place]
      | atRule form =>
        cases form with
        | statement name text => simp [Construct.rules, Construct.part, place]
        | block name header body =>
          simp only [Construct.rules, Construct.part, ofBlock]
          split
          · rw [place, ihbody name header body rfl, textAll_layout]
          · rw [place]
    rw [readRules_of_readConstruct h, layout_of_readConstruct h, ih, hplace]
    simp [Nat.add_assoc]

/-- A stylesheet is its layout put in place from its first byte. -/
theorem parse_eq_placeAll (source : Text) :
    parse source = ⟨source, placeAll 0 (layout source).1,
      leftover (byteLength (textAll (layout source).1)) (layout source).2⟩ := by
  simp [parse, readRules_eq_placeAll]

end Cull.Stylesheet
