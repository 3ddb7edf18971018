import Cull.Proofs.SteadyParts
import Cull.Proofs.Survivors

/-!
# Pruning twice

The text that pruning gives is read again from its first character, and cutting
and squeezing can both change how it is read. A quotation mark in the header of a
plain rule is nothing special to the reader of plain rules, but it opens a string
for the reader that looks for the brace that closes a group: if the rule with the
other quotation mark goes, the group ends elsewhere. And where blank lines are
reduced, a mark can come to the front of a rule that blanks hid.

`ReadsBack` says that neither happens to what stays. Then the second reading finds
the outline of the parts that stayed, and pruning again changes nothing. It holds
of every tidy stylesheet, whatever goes: one in whose groups each part closes what
it opens, and in which no rule begins with a blank (`readsBack_of_isTidy`).
-/

namespace Cull

open Text

namespace Stylesheet

/-! ### Text that closes what it opens -/

/-- The number of blocks that are open behind a text if `depth` are open in front of it; there is none
if the text closes more than that, or ends in a string or a comment. -/
def level (depth : Nat) (t : Text) : Option Nat :=
  match h : lexeme? t with
  | none => if t.isEmpty then some depth else none
  | some (l, rest) =>
    have := length_lexeme?_lt h
    if l = ['}'] then
      match depth with
      | 0 => none
      | d + 1 => level d rest
    else level (if l = ['\x7b'] then depth + 1 else depth) rest
  termination_by t.length

/-- In front of any text, `x` opens `n` blocks for the reader that closes a block. -/
def Opens (n : Nat) (x : Text) : Prop :=
  ∀ depth y, closeBlock depth (x ++ y) = (closeBlock (depth + n) y).map fun (a, rest) => (x ++ a, rest)

theorem opens_nil : Opens 0 [] := by
  intro depth y
  simp

theorem Opens.append {m n : Nat} {x y : Text} (hx : Opens m x) (hy : Opens n y) : Opens (m + n) (x ++ y) := by
  intro depth z
  rw [List.append_assoc, hx, hy, Nat.add_assoc]
  simp [Function.comp_def]

/-- A block can be closed by its brace behind any text that closes what it opens. -/
theorem Opens.closeBlock_eq {x : Text} (h : Opens 0 x) : closeBlock 0 (x ++ ['}']) = some (x, []) := by
  have hclose : closeBlock 0 ['}'] = some ([], []) := by rw [closeBlock]
  rw [h, hclose]
  simp

/-- A block in braces, behind a text that opens it. -/
theorem Opens.block {x y : Text} (hx : Opens 1 x) (hy : Opens 0 y) : Opens 0 (x ++ (y ++ ['}'])) := by
  intro depth z
  rw [List.append_assoc, hx, List.append_assoc, hy, List.singleton_append, Nat.add_zero, closeBlock_close]
  simp [Function.comp_def]

/-- Blocks that are open around a text make no difference to it. -/
theorem closeBlock_of_level {d n : Nat} {x : Text} (h : level d x = some n) (hlast : x.getLast? ≠ some '/') (i : Nat)
    (y : Text) : closeBlock (d + i) (x ++ y) = (closeBlock (n + i) y).map fun (a, rest) => (x ++ a, rest) := by
  induction x using lexeme_induction generalizing d with
  | step x ih =>
    rw [level] at h
    split at h
    · next hnone =>
      split at h
      · next hempty =>
        cases h
        rw [List.isEmpty_iff.1 hempty]
        simp
      · cases h
    · next l rest hl =>
      obtain rfl := (lexeme?_append hl).symm
      have hrest : rest.getLast? ≠ some '/' := by
        intro hslash
        rw [List.getLast?_append, hslash] at hlast
        exact hlast rfl
      -- the lexeme does not become part of a comment
      have hl' : lexeme? (l ++ (rest ++ y)) = some (l, rest ++ y) := by
        refine lexeme?_local hl fun hslash hstar => ?_
        cases rest with
        | nil => simp [hslash] at hlast
        | cons c rest => simpa using hstar
      rw [List.append_assoc]
      split at h
      · next hclose =>
        subst hclose
        split at h
        · cases h
        · next d =>
          have hdepth : d.succ + i = d + i + 1 := by omega
          rw [hdepth, List.singleton_append, closeBlock_close, ih _ _ hl h hrest]
          simp [Function.comp_def]
      · next hclose =>
        have hdepth : (if l = ['\x7b'] then d + i + 1 else d + i) = (if l = ['\x7b'] then d + 1 else d) + i := by
          split
          · omega
          · rfl
        rw [closeBlock_eq, hl']
        simp only [if_neg hclose, hdepth, ih _ _ hl h hrest]
        simp [Function.comp_def]

theorem opens_of_level {n : Nat} {x : Text} (h : level 0 x = some n) (hlast : x.getLast? ≠ some '/') : Opens n x := by
  intro depth y
  have hclose := closeBlock_of_level h hlast depth y
  rwa [Nat.zero_add, Nat.add_comm] at hclose

/-! ### Groups whose parts are closed -/

/-- The text closes what it opens, and nothing that follows makes a comment of its end. -/
def isLevel (t : Text) : Bool := level 0 t = some 0 && t.getLast? ≠ some '/'

theorem opens_of_isLevel {t : Text} (h : isLevel t = true) : Opens 0 t := by
  rw [isLevel, Bool.and_eq_true, decide_eq_true_eq, decide_eq_true_eq] at h
  exact opens_of_level h.1 h.2

namespace Part

mutual

/-- The part closes what it opens, and so does each part of its block if it is a group. -/
def isSelfClosed : Part → Bool
  | blank _ => true
  | comment _ => true
  | plain header body => isLevel (text (.plain header body))
  | atRule _ text => isLevel text
  | group _ header parts tail =>
    level 0 header = some 1 && header.getLast? ≠ some '/' && isSelfClosedAll parts && isLevel tail

/-- Each part closes what it opens. -/
def isSelfClosedAll : List Part → Bool
  | [] => true
  | p :: ps => isSelfClosed p && isSelfClosedAll ps

end

/-- If the part is a group, each part of its block closes what it opens. -/
def hasClosedBlock : Part → Bool
  | group _ _ parts tail => isSelfClosedAll parts && isLevel tail
  | _ => true

end Part

open Stylesheet.Part

variable {u : Usage}

theorem opens_blank {c : Char} (hc : isAsciiBlank c = true) : Opens 0 [c] := by
  have hl : ∀ y, lexeme? ([c] ++ y) = some ([c], y) := fun y => lexeme?_blank (isBlank_of_isAsciiBlank hc) y
  intro depth y
  refine closeBlock_pass (hl y) ?_ ?_ depth
  · rintro ⟨⟩
    cases hc
  · rintro ⟨⟩
    cases hc

theorem opens_comment {t inner rest : Text} (h : closeComment t = some (inner, rest)) :
    Opens 0 ('/' :: '*' :: inner) := by
  intro depth y
  have hl : lexeme? ('/' :: '*' :: inner ++ y) = some ('/' :: '*' :: inner, y) := by
    simp [lexeme?, closeComment_local h]
  exact closeBlock_pass hl (by simp) (by simp) depth

/-- What stays closes what it opens: its text can stand in a block, and its groups are closed. -/
structure Part.Stable (ps : List Part) : Prop where
  /-- The text closes what it opens. -/
  opens : Opens 0 (textAll ps)
  /-- Each group is closed by its own brace. -/
  closed : isClosedAll ps = true

theorem Part.Stable.append {ps qs : List Part} (hp : Stable ps) (hq : Stable qs) : Stable (ps ++ qs) := by
  constructor
  · rw [textAll_append]
    exact hp.opens.append hq.opens
  · rw [isClosedAll_append, hp.closed, hq.closed, Bool.and_true]

theorem Part.stable_nil : Stable [] := ⟨opens_nil, by simp [isClosedAll]⟩

/-- A part without a block of parts. -/
theorem Part.stable_leaf {p : Part} (hopens : Opens 0 p.text) (hclosed : isClosed p = true) : Stable [p] := by
  constructor
  · rwa [textAll_cons, textAll_nil, List.append_nil]
  · rw [isClosedAll, isClosedAll, hclosed, Bool.and_true]

/-- A block of stable parts is closed by its brace. -/
theorem Part.Stable.closeBlock_eq {ps : List Part} {tail : Text} (h : Stable ps) (htail : isLevel tail = true) :
    closeBlock 0 (textAll ps ++ tail ++ ['}']) = some (textAll ps ++ tail, []) :=
  (h.opens.append (opens_of_isLevel htail)).closeBlock_eq

theorem Part.isClosed_group {name header tail : Text} {ps : List Part} (h : Stable ps) (htail : isLevel tail = true) :
    isClosed (.group name header ps tail) = true := by
  rw [isClosed, h.closeBlock_eq htail, h.closed]
  simp

theorem Part.stable_group {name header tail : Text} {ps : List Part} (hheader : Opens 1 header) (h : Stable ps)
    (htail : isLevel tail = true) : Stable [.group name header ps tail] := by
  refine stable_leaf ?_ (isClosed_group h htail)
  rw [text]
  exact hheader.block (h.opens.append (opens_of_isLevel htail))

theorem stable_keep {t rest : Text} {c : Construct} (h : readConstruct t = some (c, rest))
    (hself : isSelfClosed c.part = true)
    (hbody : ∀ name header body, c = .atRule (.block name header body) →
      isSelfClosedAll (layout body).1 = true → Stable (keepAll u (layout body).1)) : Stable (keep u c.part) := by
  rcases readConstruct_cases h with ⟨inner, t, rfl, rfl, hc⟩ | ⟨form, t, rfl, rfl, -⟩ | ⟨d, rfl, rfl, hb⟩ |
    ⟨header, body, d, t, rfl, rfl, hr, -⟩
  · rw [Construct.part, keep]
    exact stable_leaf (opens_comment hc) (by simp [isClosed])
  · cases form with
    | statement name text =>
      rw [Construct.part, isSelfClosed] at hself
      rw [Construct.part, keep]
      exact stable_leaf (opens_of_isLevel hself) (by simp [isClosed])
    | block name header body =>
      rw [Construct.part, ofBlock] at hself ⊢
      split
      · next hname =>
        rw [if_pos hname, isSelfClosed] at hself
        simp only [Bool.and_eq_true, decide_eq_true_eq] at hself
        obtain ⟨⟨⟨hlevel, hlast⟩, hparts⟩, htail⟩ := hself
        rw [keep]
        split
        · exact stable_nil
        · exact stable_group (opens_of_level hlevel hlast) (hbody name header body rfl hparts) htail
      · next hname =>
        rw [if_neg hname, isSelfClosed] at hself
        rw [keep]
        exact stable_leaf (opens_of_isLevel hself) (by simp [isClosed])
  · rw [Construct.part, keep]
    exact stable_leaf (opens_blank hb) (by simp [isClosed])
  · rw [Construct.part, isSelfClosed] at hself
    rw [Construct.part, keep]
    split
    · exact stable_nil
    · exact stable_leaf (opens_of_isLevel hself) (by simp [isClosed])

/-- What stays of parts that close what they open does so. -/
theorem stable_keepAll {t : Text} (h : isSelfClosedAll (layout t).1 = true) : Stable (keepAll u (layout t).1) := by
  induction t using construct_induction with
  | stop t hnone =>
    rw [layout_of_readConstruct_eq_none hnone, keepAll]
    exact stable_nil
  | step t c rest hread ihbody ih =>
    rw [layout_of_readConstruct hread, isSelfClosedAll, Bool.and_eq_true] at h
    rw [layout_of_readConstruct hread, keepAll]
    exact (stable_keep hread h.1 ihbody).append (ih h.2)

/-- The groups that stay are closed, if their parts close what they open. -/
theorem isClosedAll_keepAll {t : Text} (h : (layout t).1.all hasClosedBlock = true) :
    isClosedAll (keepAll u (layout t).1) = true := by
  refine isClosedAll_iff.2 fun p hp => ?_
  obtain ⟨q, hq, hp⟩ := exists_of_mem_keepAll hp
  rcases mem_keep hp with ⟨rfl, hleaf⟩ | ⟨name, header, parts, tail, rfl, rfl⟩
  · rw [isClosed]
    exact hleaf
  · have hblock := List.all_eq_true.1 h _ hq
    rw [hasClosedBlock, Bool.and_eq_true] at hblock
    obtain ⟨t', c, rest, -, hpart⟩ := exists_construct_of_mem_layout hq
    obtain ⟨body, -, -, hlayout⟩ := Construct.eq_block_of_part_eq_group hpart
    have hstable : Stable (keepAll u (layout body).1) := stable_keepAll (by rw [hlayout]; exact hblock.1)
    rw [hlayout] at hstable
    exact isClosed_group hstable hblock.2

/-! ### Rules that begin with no blank -/

/-- The text begins with no blank. -/
def beginsSolid (t : Text) : Bool := t.head?.all (!isBlank ·)

namespace Part

mutual

/-- No plain rule, and nothing that cannot be read, begins with a blank in the part. -/
def hasSolidFronts : Part → Bool
  | plain header _ => beginsSolid header
  | group _ _ parts tail => hasSolidFrontsAll parts && beginsSolid tail
  | _ => true

/-- No plain rule, and nothing that cannot be read, begins with a blank in the parts. -/
def hasSolidFrontsAll : List Part → Bool
  | [] => true
  | p :: ps => hasSolidFronts p && hasSolidFrontsAll ps

end

end Part

theorem remainder_of_beginsSolid {t : Text} (h : beginsSolid t = true) (k : Nat) : remainder k t = squeeze 0 0 t := by
  cases t with
  | nil => rfl
  | cons c t =>
    have hc : isBlank c = false := by simpa [beginsSolid] using h
    have hascii : isAsciiBlank c ≠ true := by
      intro hascii
      rw [isBlank_of_isAsciiBlank hascii] at hc
      cases hc
    rw [remainder, squeeze_solid hc, squeeze_solid hc, List.dropWhile_cons_of_neg hascii]

/-- Where no blank can be left out, no mark comes to the front. -/
theorem opensMark_remainder {t : Text} (hsolid : beginsSolid t = true) (h : opensMark t = false) (k : Nat) :
    opensMark (remainder k t) = false := by
  rw [remainder_of_beginsSolid hsolid]
  exact opensMark_squeeze h 0

theorem isSteadyAll_nil {t : Text} (h : beginsSolid t = true) (k : Nat) : isSteadyAll k t [] = true := by
  rw [isSteadyAll]
  cases hmark : opensMark t with
  | true => rfl
  | false => rw [opensMark_remainder h hmark]; rfl

theorem isSteadyAll_append {tail : Text} {ps qs : List Part} (hp : ∀ k, ∀ p ∈ ps, isSteady k p = true)
    (hq : ∀ k, isSteadyAll k tail qs = true) (k : Nat) : isSteadyAll k tail (ps ++ qs) = true := by
  induction ps generalizing k with
  | nil => exact hq k
  | cons p ps ih =>
    rw [List.cons_append, isSteadyAll, hp k p (.head _), ih fun k p hp' => hp k p (.tail _ hp')]
    rfl

/-- What stays of a construct is steady, if no rule in it begins with a blank. -/
theorem isSteady_keep {t rest : Text} {c : Construct} (h : readConstruct t = some (c, rest))
    (hsolid : hasSolidFronts c.part = true)
    (hbody : ∀ name header body, c = .atRule (.block name header body) → hasSolidFrontsAll (layout body).1 = true →
      beginsSolid (layout body).2 = true → ∀ k, isSteadyAll k (layout body).2 (keepAll u (layout body).1) = true)
    (k : Nat) : ∀ p ∈ keep u c.part, isSteady k p = true := by
  intro p hp
  rcases mem_keep hp with ⟨rfl, hleaf⟩ | ⟨name, header, parts, tail, hpart, rfl⟩
  · rcases readConstruct_cases h with ⟨inner, t, rfl, rfl, -⟩ | ⟨form, t, rfl, rfl, -⟩ | ⟨d, rfl, rfl, -⟩ |
      ⟨header, body, d, t, rfl, rfl, hr, hat, hstar, -⟩
    · simp [Construct.part, isSteady]
    · cases form with
      | statement name text => simp [Construct.part, isSteady]
      | block name header body =>
        rw [Construct.part, ofBlock] at hleaf ⊢
        split
        · next hname =>
          rw [if_pos hname] at hleaf
          exact absurd rfl (hleaf _ _ _ _)
        · simp [isSteady]
    · simp [Construct.part, isSteady]
    · rw [Construct.part, hasSolidFronts] at hsolid
      -- the header of a plain rule begins with no mark
      have hmark : opensMark header = false := by
        rw [Bool.eq_false_iff]
        intro hopens
        have htrue := opensMark_append hopens ('\x7b' :: (body ++ '}' :: rest))
        rw [readPlain_append hr, opensMark_cons_eq_false_iff.2 ⟨hat, hstar⟩] at htrue
        cases htrue
      rw [Construct.part, isSteady, opensMark_remainder hsolid hmark]
      rfl
  · obtain ⟨body, rfl, -, hlayout⟩ := Construct.eq_block_of_part_eq_group hpart
    rw [hpart, hasSolidFronts, Bool.and_eq_true] at hsolid
    have hinside := hbody name header body rfl
    rw [hlayout] at hinside
    have hwhole : (tail.isEmpty || !(remainder (newlinesBehind 0 (textAll (keepAll u parts))) tail).isEmpty) = true := by
      rw [remainder_of_beginsSolid hsolid.2]
      cases tail with
      | nil => rfl
      | cons c tail => simp [squeeze_zero_cons]
    rw [isSteady, hinside hsolid.1 hsolid.2 0, hwhole]
    rfl

theorem isSteadyAll_keepAll {t : Text} (h : hasSolidFrontsAll (layout t).1 = true)
    (htail : beginsSolid (layout t).2 = true)
    (k : Nat) : isSteadyAll k (layout t).2 (keepAll u (layout t).1) = true := by
  induction t using construct_induction generalizing k with
  | stop t hnone =>
    rw [layout_of_readConstruct_eq_none hnone] at htail ⊢
    rw [keepAll]
    exact isSteadyAll_nil htail k
  | step t c rest hread ihbody ih =>
    rw [layout_of_readConstruct hread] at h htail ⊢
    rw [hasSolidFrontsAll, Bool.and_eq_true] at h
    rw [keepAll]
    exact isSteadyAll_append (isSteady_keep hread h.1 ihbody) (ih h.2 htail) k

/-! ### Pruning again -/

/-- In its groups each part closes what it opens, and no rule begins with a blank. -/
def isTidy (css : Text) : Bool :=
  (layout css).1.all hasClosedBlock && hasSolidFrontsAll (layout css).1 && beginsSolid (layout css).2

/-- What stays of a stylesheet is read back as it was: every group is still closed by its own brace,
and no mark comes to the front of a rule. -/
structure ReadsBack (css : Text) (u : Usage) : Prop where
  /-- The groups are closed. -/
  closed : isClosedAll (keepAll u (layout css).1) = true
  /-- No mark comes to the front where blank lines are reduced. -/
  steady : isSteadyAll 0 (layout css).2 (keepAll u (layout css).1) = true

/-- Whatever goes from a tidy stylesheet, the rest is read back as it was. -/
theorem readsBack_of_isTidy {css : Text} (h : isTidy css = true) (u : Usage) : ReadsBack css u := by
  rw [isTidy, Bool.and_eq_true, Bool.and_eq_true] at h
  exact ⟨isClosedAll_keepAll h.1.1, isSteadyAll_keepAll h.1.2 h.2 0⟩

/-- The second reading finds the outline of the parts that stayed. -/
theorem ReadsBack.outlineAll_eq {css : Text} {u : Usage} (h : ReadsBack css u) :
    outlineAll (layout (squeeze 0 0 (((parse css).plan u).kept 0 css))).1 = outlineAll (keepAll u (layout css).1) := by
  have hlayout := layout_keepAll h.closed
  have hsqueezes : Squeezes 0 (textAll (keepAll u (layout css).1) ++ (layout css).2) :=
    squeezes_of_isSteadyAll (by rw [hlayout]; exact h.steady)
  rw [kept_eq_keepAll, hsqueezes.outline, hlayout]

end Stylesheet

/-- Pruning again with the same set changes nothing, if what stayed is read back as it was; and that
is so for every tidy stylesheet, whatever the set. -/
theorem prune_again_eq_unchanged {css text : Text} {u : Usage} {n : Nat} (h : prune css u = .changed text n) :
    (Stylesheet.ReadsBack css u → prune text u = .unchanged) ∧
    (Stylesheet.isTidy css = true → prune text u = .unchanged) := by
  have hagain : Stylesheet.ReadsBack css u → prune text u = .unchanged := by
    intro hreads
    have hcount : ((Stylesheet.parse text).plan u).count = 0 := by
      rw [count_eq_zero_iff_staysAll, prune_eq_changed h, hreads.outlineAll_eq]
      exact (Stylesheet.Part.settled_keepAll _).stays
    rw [prune_eq, if_pos hcount]
  exact ⟨hagain, fun htidy => hagain (Stylesheet.readsBack_of_isTidy htidy u)⟩

/-- Rules go in front of blank lines, from a group and from a group in it. -/
theorem prune_again_eq_unchanged_nested :
    prune ".b\x7by:2\x7d\n\n\n@media s\x7b.a[t=\"\x7d\"]\x7ba:1\x7d.c\x7bb:2\x7d@media p\x7b*\x7bc:3\x7d.d\x7bd:4\x7d\x7d\x7d".toList
      (.ofList [".a".toList]) =
        .changed "\n\n@media s\x7b.a[t=\"\x7d\"]\x7ba:1\x7d@media p\x7b*\x7bc:3\x7d\x7d\x7d".toList 3 ∧
    Stylesheet.isTidy
      ".b\x7by:2\x7d\n\n\n@media s\x7b.a[t=\"\x7d\"]\x7ba:1\x7d.c\x7bb:2\x7d@media p\x7b*\x7bc:3\x7d.d\x7bd:4\x7d\x7d\x7d".toList = true ∧
    prune "\n\n@media s\x7b.a[t=\"\x7d\"]\x7ba:1\x7d@media p\x7b*\x7bc:3\x7d\x7d\x7d".toList
      (.ofList [".a".toList]) = .unchanged := by
  have hprune : prune ".b\x7by:2\x7d\n\n\n@media s\x7b.a[t=\"\x7d\"]\x7ba:1\x7d.c\x7bb:2\x7d@media p\x7b*\x7bc:3\x7d.d\x7bd:4\x7d\x7d\x7d".toList
      (.ofList [".a".toList]) =
        .changed "\n\n@media s\x7b.a[t=\"\x7d\"]\x7ba:1\x7d@media p\x7b*\x7bc:3\x7d\x7d\x7d".toList 3 := by
    rw [prune, Plan.cut?, Span.merge_eq_of_perm (.refl _) (by decide +kernel)]
    decide +kernel
  have htidy : Stylesheet.isTidy
      ".b\x7by:2\x7d\n\n\n@media s\x7b.a[t=\"\x7d\"]\x7ba:1\x7d.c\x7bb:2\x7d@media p\x7b*\x7bc:3\x7d.d\x7bd:4\x7d\x7d\x7d".toList = true := by
    decide +kernel
  exact ⟨hprune, htidy, (prune_again_eq_unchanged hprune).2 htidy⟩

/-- Neither condition is enough without the other. A quotation mark in a header opens a string when the
rule with the other one is gone, and a group ends in the wrong place; a blank that is not ASCII hides a
group until blank lines are reduced. -/
theorem prune_again_removes_more :
    (∃ css u text n, prune css u = .changed text n ∧
      Stylesheet.Part.isSteadyAll 0 (Stylesheet.layout css).2
        (Stylesheet.Part.keepAll u (Stylesheet.layout css).1) = true ∧ prune text u ≠ .unchanged) ∧
    ∃ css u text n, prune css u = .changed text n ∧
      Stylesheet.Part.isClosedAll (Stylesheet.Part.keepAll u (Stylesheet.layout css).1) = true ∧
        prune text u ≠ .unchanged := by
  constructor
  · refine ⟨"@media\x7b.x\"\x7ba\x7d.k\"\x7bb\x7d\x7di,\"\x7d.u\x7bc\x7d".toList, .ofList [".k".toList],
      "@media\x7b.k\"\x7bb\x7d\x7di,\"\x7d.u\x7bc\x7d".toList, 1, by decide +kernel, by decide +kernel, by decide +kernel⟩
  · refine ⟨".x\x7ba:1\x7d\n\u00a0\n\n@media print\x7b.y\x7bb:2\x7d\x7d".toList, .empty,
      "\n\n@media print\x7b.y\x7bb:2\x7d\x7d".toList, 1, by decide +kernel, by decide +kernel, by decide +kernel⟩

end Cull
