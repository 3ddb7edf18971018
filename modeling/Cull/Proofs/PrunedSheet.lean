import Cull.Proofs.Deletion
import Cull.Proofs.Sheet

/-!
# Pruning written stylesheets

What pruning makes of a written stylesheet is a written stylesheet again. The
pieces that go are taken out whole (`kept_printAll`), and reducing blank lines
squeezes each text of a piece into a text of the same kind and leaves out some of
the blanks between pieces (`printAll_squeezedAll`). So the result is read like any
written stylesheet, without a rest at any depth, and its rules are those of the
source without the planned ones (`prune_printAll_skeleton`).

The blanks of the source have to be ASCII. A blank that is not can stand at the
front of a plain rule, and is left out there like any other.
-/

namespace Cull

open Text Stylesheet

namespace Sheet

variable {u : Usage}

/-! ### Squeezed texts -/

/-- No comment begins where none did. -/
theorem hasPart_squeeze {t : Text} (h : hasPart ['/', '*'] t = false) (k j : Nat) :
    hasPart ['/', '*'] (squeeze k j t) = false := by
  induction t generalizing k with
  | nil => exact h
  | cons c t ih =>
    rw [hasPart, Bool.or_eq_false_iff] at h
    rw [squeeze]
    split
    · exact ih h.2 _
    · rw [hasPart, ih h.2, Bool.or_false]
      by_cases hc : c = '/'
      · -- behind a slash nothing is left out
        subst hc
        rw [runAfter_solid (by decide)]
        cases t with
        | nil => rfl
        | cons d t =>
          rw [squeeze_zero_cons]
          simpa [dropLead?] using h.1
      · simp [dropLead?, Ne.symm hc]

/-- A text that is passed over is passed over once it is squeezed. -/
theorem passes_squeeze {isMark : Char → Bool} {t : Text} (h : Passes isMark t) (k j : Nat) :
    Passes isMark (squeeze k j t) := by
  induction h generalizing k with
  | nil => exact .nil
  | @step t l rest hl hmark _ ih =>
    cases t with
    | nil => cases hl
    | cons c t =>
      rcases lexeme?_squeeze_cases k j hl with ⟨-, hsqueeze⟩ | ⟨l', -, hlexeme⟩
      · rw [hsqueeze]
        exact ih _
      · refine .step hlexeme ?_ (ih _)
        rw [← lexeme?_append hlexeme]
        exact hmark

/-- The comment squeezed. -/
def CommentText.squeezed (c : CommentText) : CommentText where
  text := squeeze 0 0 c.text
  closed := by rw [closeComment_squeeze, c.closed]; rfl

/-- The selectors squeezed. -/
def SelectorText.squeezed (s : SelectorText) : SelectorText where
  text := squeeze 0 0 s.text
  noMark c hc := s.noMark c ((squeeze_sublist 0 0 s.text).subset hc)
  noComment := hasPart_squeeze s.noComment 0 0
  front := by rw [head?_squeeze_zero]; exact s.front

/-- A text in front of its closing brace. -/
theorem squeeze_append_brace (k : Nat) (t : Text) : squeeze k 0 (t ++ ['}']) = squeeze k 0 t ++ ['}'] := by
  rw [squeeze_append, newlinesAhead_solid (by decide), squeeze_solid (by decide), squeeze_nil]

/-- The block squeezed. -/
def BlockText.squeezed (b : BlockText) : BlockText where
  text := squeeze 0 0 b.text
  closed := by
    have hclose : closeBlock 0 (squeeze 0 0 b.text ++ ['}']) = some (squeeze 0 0 b.text, []) := by
      rw [← squeeze_append_brace, closeBlock_squeeze, b.closeBlock_eq]
      rfl
    rw [matchingBrace?, show splitAtByte? 0 ('\x7b' :: (squeeze 0 0 b.text ++ ['}'])) = some ([], _) from rfl]
    simp [hclose]

/-- What follows the name of an at-rule squeezed. -/
def Prelude.squeezed (p : Prelude) : Prelude where
  text := squeeze 0 0 p.text
  front := by rw [head?_squeeze_zero]; exact p.front
  closes := (passes_iff.1 (passes_squeeze p.passes 0 0)).1
  noMark := (passes_iff.1 (passes_squeeze p.passes 0 0)).2

namespace Piece

/-! ### Pieces that stay -/

mutual

/-- What stays of a piece. -/
def keep (u : Usage) : Piece → List Piece
  | plain selectors body => if (part (.plain selectors body)).goes u then [] else [.plain selectors body]
  | group prelude inside => if (part (.group prelude inside)).goes u then [] else [.group prelude (keepAll u inside)]
  | p => [p]

/-- What stays of pieces. -/
def keepAll (u : Usage) : List Piece → List Piece
  | [] => []
  | p :: ps => keep u p ++ keepAll u ps

end

theorem partAll_append (ps qs : List Piece) : partAll (ps ++ qs) = partAll ps ++ partAll qs := by
  induction ps with
  | nil => simp [partAll]
  | cons p ps ih => simp [partAll, ih]

theorem printAll_append (ps qs : List Piece) : printAll (ps ++ qs) = printAll ps ++ printAll qs := by
  induction ps with
  | nil => simp [printAll]
  | cons p ps ih => simp [printAll, ih]

theorem partAll_keepAll (s : List Piece) : partAll (keepAll u s) = Part.keepAll u (partAll s) := by
  induction s using pieces_induction with
  | nil => simp [keepAll, partAll, Part.keepAll]
  | blank c ascii ps ih => simp [keepAll, keep, partAll, part, Part.keepAll, Part.keep, ih]
  | comment inner ps ih => simp [keepAll, keep, partAll, part, Part.keepAll, Part.keep, ih]
  | plain selectors body ps ih =>
    rw [keepAll, partAll_append, ih, keep, partAll, Part.keepAll]
    congr 1
    rw [part, Part.keep]
    split <;> simp [partAll, part]
  | statement name prelude ps ih => simp [keepAll, keep, partAll, part, Part.keepAll, Part.keep, ih]
  | block name prelude body whole ps ih => simp [keepAll, keep, partAll, part, Part.keepAll, Part.keep, ih]
  | group prelude inside ps ihinside ih =>
    rw [keepAll, partAll_append, ih, keep, partAll, Part.keepAll]
    congr 1
    rw [part, Part.keep]
    split <;> simp [partAll, part, ihinside]

/-- Cutting out what is planned leaves the pieces that stay. -/
theorem kept_printAll (s : List Piece) :
    ((parse (printAll s)).plan u).kept 0 (printAll s) = printAll (keepAll u s) := by
  rw [kept_eq_keepAll, layout_printAll, List.append_nil, ← partAll_keepAll, textAll_partAll]

/-! ### Squeezed pieces -/

mutual

/-- What squeezing leaves of a piece with `k` newlines in front of it and `j` behind it. -/
def squeezed (k j : Nat) : Piece → List Piece
  | blank c ascii => if isSpare k j c then [] else [.blank c ascii]
  | comment inner => [.comment inner.squeezed]
  | plain selectors body => [.plain selectors.squeezed body.squeezed]
  | statement name prelude => [.statement name prelude.squeezed]
  | block name prelude body whole => [.block name prelude.squeezed body.squeezed whole]
  | group prelude inside => [.group prelude.squeezed (squeezedAll 0 inside)]

/-- What squeezing leaves of pieces with `k` newlines in front of them. -/
def squeezedAll (k : Nat) : List Piece → List Piece
  | [] => []
  | p :: ps => squeezed k (newlinesAhead 0 (printAll ps)) p ++ squeezedAll (newlinesBehind k (print p)) ps

end

/-- Every blank of the text is an ASCII one. -/
def AsciiBlanks (t : Text) : Prop := ∀ c ∈ t, isBlank c = true → isAsciiBlank c = true

theorem AsciiBlanks.mono {t w : Text} (h : AsciiBlanks t) (hsub : w ⊆ t) : AsciiBlanks w := fun c hc => h c (hsub hc)

/-- Header and block of a piece are squeezed one by one. -/
theorem squeeze_braced {x : Text} (hx : EndsSolid x) (k j : Nat) (b : Text) :
    squeeze k j (braced x b) = braced (squeeze k 0 x) (squeeze 0 0 b) := by
  have hsolid : EndsSolid (b ++ ['}']) := ⟨b, '}', rfl, by decide⟩
  rw [braced, squeeze_append, hx.squeeze_eq, hx.newlinesBehind_eq, hsolid.squeeze_eq, squeeze_append_brace, braced]

theorem endsSolid_header (n : AtName) (p : Prelude) (e : HeaderEnd) : EndsSolid (header n p e) :=
  ⟨_, e.mark, rfl, by cases e <;> decide⟩

/-- A name has no newline in it, and stays as it is. -/
theorem squeeze_header (n : AtName) (p : Prelude) (e : HeaderEnd) (k j : Nat) :
    squeeze k j (header n p e) = header n p.squeezed e := by
  have hmark : isBlank e.mark = false := by cases e <;> decide
  have hline : ∀ c ∈ n.text, c ≠ '\n' := by
    rintro c hc rfl
    cases (n.noMark _ hc).1
  rw [header, squeeze_append, newlinesAhead_solid hmark, squeeze_solid hmark, squeeze_nil, AtName.full,
    List.cons_append, squeeze_solid (by decide), squeeze_append, squeeze_line hline, newlinesBehind_line hline]
  rfl

/-- Selectors begin with no blank, so nothing in front of them matters. -/
theorem squeeze_selectors {selectors : SelectorText} (hascii : AsciiBlanks selectors.text) (k : Nat) :
    squeeze k 0 (selectors.text ++ ['\x7b']) = selectors.squeezed.text ++ ['\x7b'] := by
  rw [squeeze_append, newlinesAhead_solid (by decide), squeeze_solid (by decide), squeeze_nil]
  show squeeze k 0 selectors.text ++ _ = squeeze 0 0 selectors.text ++ _
  cases hs : selectors.text with
  | nil => rfl
  | cons c t =>
    have hblank : isBlank c = false := by
      rw [Bool.eq_false_iff]
      intro hc
      have hfront := selectors.front c (by rw [hs]; rfl)
      rw [hascii c (by rw [hs]; exact .head _) hc] at hfront
      cases hfront.2
    rw [squeeze_solid hblank, squeeze_solid hblank]

/-- One piece squeezed, and the pieces behind it. -/
theorem printAll_squeezed_cons {k : Nat} {p : Piece} {ps : List Piece} (hascii : AsciiBlanks (printAll (p :: ps)))
    (hp : ∀ j, printAll (squeezed k j p) = squeeze k j (print p))
    (hps : AsciiBlanks (printAll ps) → ∀ k, printAll (squeezedAll k ps) = squeeze k 0 (printAll ps)) :
    printAll (squeezedAll k (p :: ps)) = squeeze k 0 (printAll (p :: ps)) := by
  rw [printAll] at hascii ⊢
  rw [squeezedAll, printAll_append, hp, hps (hascii.mono (List.subset_append_right _ _)), squeeze_append]

/-- Squeezing what is written gives what the squeezed pieces are written as. -/
theorem printAll_squeezedAll {s : List Piece} (hascii : AsciiBlanks (printAll s)) (k : Nat) :
    printAll (squeezedAll k s) = squeeze k 0 (printAll s) := by
  induction s using pieces_induction generalizing k with
  | nil => simp [squeezedAll, printAll]
  | blank c ascii ps ih =>
    refine printAll_squeezed_cons hascii (fun j => ?_) ih
    rw [squeezed, print, squeeze, newlinesAhead_nil]
    split <;> simp [printAll, print]
  | comment inner ps ih =>
    refine printAll_squeezed_cons hascii (fun j => ?_) ih
    have hsolid := ((closeComment_endsSolid inner.closed).cons '*').cons '/'
    rw [squeezed, print, hsolid.squeeze_eq, squeeze_solid (by decide), squeeze_solid (by decide)]
    simp [printAll, print, CommentText.squeezed]
  | plain selectors body ps ih =>
    refine printAll_squeezed_cons hascii (fun j => ?_) ih
    have hselectors : AsciiBlanks selectors.text := hascii.mono (by simp [printAll, print, braced])
    rw [squeezed, print, squeeze_braced ⟨_, _, rfl, by decide⟩, squeeze_selectors hselectors]
    simp [printAll, print, BlockText.squeezed]
  | statement name prelude ps ih =>
    refine printAll_squeezed_cons hascii (fun j => ?_) ih
    rw [squeezed, print, squeeze_header]
    simp [printAll, print]
  | block name prelude body whole ps ih =>
    refine printAll_squeezed_cons hascii (fun j => ?_) ih
    rw [squeezed, print, squeeze_braced (endsSolid_header _ _ _), squeeze_header]
    simp [printAll, print, BlockText.squeezed]
  | group prelude inside ps ihinside ih =>
    refine printAll_squeezed_cons hascii (fun j => ?_) ih
    have hinside : AsciiBlanks (printAll inside) := hascii.mono (by simp [printAll, print, braced])
    rw [squeezed, print, squeeze_braced (endsSolid_header _ _ _), squeeze_header, ← ihinside hinside]
    simp [printAll, print]

/-! ### Skeletons -/

/-- The skeleton of a plain rule is the tokens of its selectors, and there is none if it is no rule. -/
theorem skeletonAll_plain (pos : Nat) (selectors : SelectorText) (body : BlockText) :
    Rule.skeletonAll (rules pos (.plain selectors body)) =
      if trim selectors.text = [] ∨ trim body.text = [] then []
      else [.plain (Selector.headerTokens selectors.text)] := by
  rw [rules]
  split
  · rfl
  · rw [Rule.skeletonAll, Rule.skeletonAll, Rule.skeleton, Selector.tokens_selectors]

theorem rulesAll_append (pos : Nat) (ps qs : List Piece) :
    rulesAll pos (ps ++ qs) = rulesAll pos ps ++ rulesAll (pos + byteLength (printAll ps)) qs := by
  induction ps generalizing pos with
  | nil => simp [rulesAll, printAll]
  | cons p ps ih => simp [rulesAll, printAll, ih, Nat.add_assoc]

/-- One piece squeezed, and the pieces behind it. -/
theorem skeletonAll_squeezed_cons {pos pos' k : Nat} {p : Piece} {ps : List Piece}
    (hp : Rule.skeletonAll (rulesAll pos (squeezed k (newlinesAhead 0 (printAll ps)) p)) =
      Rule.skeletonAll (rules pos' p))
    (hps : ∀ pos pos' k, Rule.skeletonAll (rulesAll pos (squeezedAll k ps)) = Rule.skeletonAll (rulesAll pos' ps)) :
    Rule.skeletonAll (rulesAll pos (squeezedAll k (p :: ps))) = Rule.skeletonAll (rulesAll pos' (p :: ps)) := by
  rw [squeezedAll, rulesAll_append, Rule.skeletonAll_append, hp, hps _ (pos' + byteLength (print p)), rulesAll,
    Rule.skeletonAll_append]

/-- Squeezing changes no skeleton, and neither does the place. -/
theorem skeletonAll_squeezedAll (pos pos' k : Nat) (s : List Piece) :
    Rule.skeletonAll (rulesAll pos (squeezedAll k s)) = Rule.skeletonAll (rulesAll pos' s) := by
  induction s using pieces_induction generalizing pos pos' k with
  | nil => simp [squeezedAll, rulesAll]
  | blank c ascii ps ih =>
    refine skeletonAll_squeezed_cons ?_ ih
    rw [squeezed]
    split <;> simp [rulesAll, rules]
  | comment inner ps ih =>
    refine skeletonAll_squeezed_cons ?_ ih
    simp [squeezed, rulesAll, rules]
  | plain selectors body ps ih =>
    refine skeletonAll_squeezed_cons ?_ ih
    have hheader : trim selectors.squeezed.text = [] ↔ trim selectors.text = [] :=
      Selector.trim_squeeze_eq_nil_iff 0 0 selectors.text
    have hbody : trim body.squeezed.text = [] ↔ trim body.text = [] := Selector.trim_squeeze_eq_nil_iff 0 0 body.text
    have htokens : Selector.headerTokens selectors.squeezed.text = Selector.headerTokens selectors.text :=
      Selector.headerTokens_squeeze 0 0 selectors.text
    rw [squeezed, rulesAll, rulesAll, List.append_nil, skeletonAll_plain, skeletonAll_plain]
    simp only [hheader, hbody, htokens]
  | statement name prelude ps ih =>
    refine skeletonAll_squeezed_cons ?_ ih
    simp [squeezed, rulesAll, rules, Rule.skeletonAll, Rule.skeleton]
  | block name prelude body whole ps ih =>
    refine skeletonAll_squeezed_cons ?_ ih
    simp [squeezed, rulesAll, rules, Rule.skeletonAll, Rule.skeleton]
  | group prelude inside ps ihinside ih =>
    refine skeletonAll_squeezed_cons ?_ ih
    rw [squeezed, rulesAll, rulesAll, List.append_nil, rules, rules]
    simp only [Rule.skeletonAll, Rule.skeleton]
    rw [ihinside]

theorem place_part (pos : Nat) (p : Piece) : p.part.place pos = rules pos p := by
  have h := placeAll_partAll pos [p]
  simpa [partAll, rulesAll] using h

/-- A piece that is a rule goes exactly if the rule is to go. -/
theorem goes_part {pos : Nat} {p : Piece} {r : Rule} (h : rules pos p = [r]) : p.part.goes u = r.isRemoved u := by
  rw [← place_part] at h
  rw [Bool.eq_iff_iff, Part.goes_iff_verdict h, Rule.isRemoved_iff]

theorem skeletonAll_keep_plain (pos pos' : Nat) (selectors : SelectorText) (body : BlockText) :
    Rule.skeletonAll (rulesAll pos (keep u (.plain selectors body))) =
      Rule.skeletonAll (Rule.deleteAll (Rule.isRemoved u) (rules pos' (.plain selectors body))) := by
  by_cases hblank : trim selectors.text = [] ∨ trim body.text = []
  · -- it is no rule, and stays
    have hrules : ∀ pos, rules pos (.plain selectors body) = [] := fun pos => by rw [rules, if_pos hblank]
    rw [hrules, keep, Rule.deleteAll]
    split <;> simp [rulesAll, hrules]
  · obtain ⟨r, hr⟩ : ∃ r, rules pos' (.plain selectors body) = [.plain r] := by
      rw [rules, if_neg hblank]
      exact ⟨_, rfl⟩
    have hskeleton := skeletonAll_plain pos selectors body
    rw [← skeletonAll_plain pos', hr] at hskeleton
    rw [keep, goes_part hr, hr, Rule.deleteAll, Rule.deleteAll, List.append_nil, Rule.delete]
    split
    · rfl
    · rw [rulesAll, rulesAll, List.append_nil, hskeleton]

/-- An at-rule that is kept whole is never deleted. -/
theorem deleteAll_atRule (name : Text) (span : Span) (text : Text) :
    Rule.deleteAll (Rule.isRemoved u) [.atRule name span text] = [.atRule name span text] := by
  simp [Rule.deleteAll, Rule.delete, Rule.isRemoved, Rule.verdict]

/-- What stays of one piece, and of the pieces behind it. -/
theorem skeletonAll_keep_cons {pos pos' : Nat} {p : Piece} {ps : List Piece}
    (hp : Rule.skeletonAll (rulesAll pos (keep u p)) =
      Rule.skeletonAll (Rule.deleteAll (Rule.isRemoved u) (rules pos' p)))
    (hps : ∀ pos pos', Rule.skeletonAll (rulesAll pos (keepAll u ps)) =
      Rule.skeletonAll (Rule.deleteAll (Rule.isRemoved u) (rulesAll pos' ps))) :
    Rule.skeletonAll (rulesAll pos (keepAll u (p :: ps))) =
      Rule.skeletonAll (Rule.deleteAll (Rule.isRemoved u) (rulesAll pos' (p :: ps))) := by
  rw [keepAll, rulesAll_append, Rule.skeletonAll_append, hp, hps _ (pos' + byteLength (print p)), rulesAll,
    Rule.deleteAll_append, Rule.skeletonAll_append]

/-- What stays of the pieces has the skeletons of the rules that are not to go. -/
theorem skeletonAll_keepAll (pos pos' : Nat) (s : List Piece) :
    Rule.skeletonAll (rulesAll pos (keepAll u s)) =
      Rule.skeletonAll (Rule.deleteAll (Rule.isRemoved u) (rulesAll pos' s)) := by
  induction s using pieces_induction generalizing pos pos' with
  | nil => simp [keepAll, rulesAll, Rule.deleteAll]
  | blank c ascii ps ih =>
    refine skeletonAll_keep_cons ?_ ih
    simp [keep, rulesAll, rules, Rule.deleteAll]
  | comment inner ps ih =>
    refine skeletonAll_keep_cons ?_ ih
    simp [keep, rulesAll, rules, Rule.deleteAll]
  | plain selectors body ps ih => exact skeletonAll_keep_cons (skeletonAll_keep_plain pos pos' selectors body) ih
  | statement name prelude ps ih =>
    refine skeletonAll_keep_cons ?_ ih
    simp [keep, rulesAll, rules, deleteAll_atRule, Rule.skeletonAll, Rule.skeleton]
  | block name prelude body whole ps ih =>
    refine skeletonAll_keep_cons ?_ ih
    simp [keep, rulesAll, rules, deleteAll_atRule, Rule.skeletonAll, Rule.skeleton]
  | group prelude inside ps ihinside ih =>
    refine skeletonAll_keep_cons ?_ ih
    obtain ⟨innerStart, span, text, inner, hgroup⟩ : ∃ innerStart span text inner,
        rules pos' (.group prelude inside) =
          [.group media.full span text inner (rulesAll innerStart inside) none] := by
      rw [rules]
      exact ⟨_, _, _, _, rfl⟩
    rw [keep, goes_part hgroup, hgroup, Rule.deleteAll, Rule.deleteAll, List.append_nil, Rule.delete]
    split
    · rfl
    · rw [rulesAll, rulesAll, List.append_nil, rules]
      simp only [Rule.skeletonAll, Rule.skeleton]
      rw [ihinside]

end Piece

/-! ### Pruning -/

/-- What pruning makes of a written stylesheet is written too: the pieces that stay, squeezed. -/
theorem prune_printAll {s : List Piece} (hascii : Piece.AsciiBlanks (Piece.printAll s)) {text : Text} {n : Nat}
    (h : prune (Piece.printAll s) u = .changed text n) :
    text = Piece.printAll (Piece.squeezedAll 0 (Piece.keepAll u s)) := by
  have hkept : Piece.AsciiBlanks (Piece.printAll (Piece.keepAll u s)) := by
    refine hascii.mono ?_
    rw [← Piece.kept_printAll]
    exact (sieve_sublist _ _ _).subset
  rw [Piece.printAll_squeezedAll hkept, ← Piece.kept_printAll]
  exact prune_eq_changed h

/-- Pruning a written stylesheet whose blanks are ASCII deletes the planned rules from its tree, and
changes nothing else in it: the result is read whole at every depth, and its rules have the skeletons of
the rules that are left, in the same order and with the same nesting. -/
theorem prune_printAll_skeleton {s : List Piece} {text : Text} {n : Nat}
    (hascii : ∀ c ∈ Piece.printAll s, isBlank c = true → isAsciiBlank c = true)
    (h : prune (Piece.printAll s) u = .changed text n) :
    (parse text).unparsed = none ∧ (∀ r ∈ (parse text).nodes, r.IsWhole) ∧
    Rule.skeletonAll (parse text).rules =
      Rule.skeletonAll ((parse (Piece.printAll s)).without ((parse (Piece.printAll s)).plan u)) := by
  have htext := prune_printAll hascii h
  have hparse := parse_eq_rulesAll (Piece.squeezedAll 0 (Piece.keepAll u s))
  rw [← htext] at hparse
  refine ⟨by rw [hparse], fun r hr => ?_, ?_⟩
  · rw [hparse] at hr
    exact Piece.isWhole_rulesAll 0 _ r hr
  · rw [without_plan, hparse, parse_eq_rulesAll s, Piece.skeletonAll_squeezedAll 0 0, Piece.skeletonAll_keepAll 0 0]

/-- A prelude that is a string with a semicolon in it. -/
def samplePrelude : Prelude where
  text := " \"p;q\"".toList
  front := by simp [isAsciiBlank]
  closes := by decide +kernel
  noMark := by
    rw [show outside " \"p;q\"".toList = [" \"p;q\"".toList, "\"p;q\"".toList, []] by decide +kernel]
    simp [atMark, isPreludeEnd, isBrace]

/-- Marks stand in strings and in a comment, and blank lines between rules. -/
def sample : List Piece :=
  [.plain ⟨".a".toList, by simp [isBrace, isQuote], by decide +kernel, by simp [isAsciiBlank]⟩
      ⟨"x:1".toList, by decide +kernel⟩,
    .blank '\n' (by decide), .blank '\n' (by decide), .blank '\n' (by decide),
    .comment ⟨"\x7b*/".toList, by decide +kernel⟩,
    .statement ⟨"import".toList, by simp [isAsciiBlank, isQuote, isBrace], by decide +kernel⟩ samplePrelude,
    .group samplePrelude
      [.plain ⟨".b .c, .e".toList, by simp [isBrace, isQuote], by decide +kernel, by simp [isAsciiBlank]⟩
          ⟨"y:\"\x7d\"".toList, by decide +kernel⟩,
        .blank ' ' (by decide),
        .plain ⟨".d".toList, by simp [isBrace, isQuote], by decide +kernel, by simp [isAsciiBlank]⟩
          ⟨"z:3".toList, by decide +kernel⟩]]

/-- A rule goes in front of blank lines, and one from a group. -/
theorem prune_printAll_skeleton_sample :
    (∀ c ∈ Piece.printAll sample, isBlank c = true → isAsciiBlank c = true) ∧
    prune (Piece.printAll sample) (.ofList [".d".toList]) =
      .changed "\n\n/*\x7b*/@import \"p;q\";@media \"p;q\"\x7b .d\x7bz:3\x7d\x7d".toList 2 ∧
    (parse "\n\n/*\x7b*/@import \"p;q\";@media \"p;q\"\x7b .d\x7bz:3\x7d\x7d".toList).unparsed = none ∧
    (∀ r ∈ (parse "\n\n/*\x7b*/@import \"p;q\";@media \"p;q\"\x7b .d\x7bz:3\x7d\x7d".toList).nodes, r.IsWhole) ∧
    Rule.skeletonAll (parse "\n\n/*\x7b*/@import \"p;q\";@media \"p;q\"\x7b .d\x7bz:3\x7d\x7d".toList).rules =
      Rule.skeletonAll ((parse (Piece.printAll sample)).without
        ((parse (Piece.printAll sample)).plan (.ofList [".d".toList]))) := by
  have hprint : Piece.printAll sample =
      (".a\x7bx:1\x7d\n\n\n/*\x7b*/@import \"p;q\";" ++
        "@media \"p;q\"\x7b.b .c, .e\x7by:\"\x7d\"\x7d .d\x7bz:3\x7d\x7d").toList := by
    decide +kernel
  have hascii : ∀ c ∈ Piece.printAll sample, isBlank c = true → isAsciiBlank c = true := by
    have hall : (Piece.printAll sample).all (fun c => !isBlank c || isAsciiBlank c) = true := by
      rw [hprint]
      decide +kernel
    intro c hc hblank
    simpa [hblank] using List.all_eq_true.1 hall c hc
  have hprune : prune (Piece.printAll sample) (.ofList [".d".toList]) =
      .changed "\n\n/*\x7b*/@import \"p;q\";@media \"p;q\"\x7b .d\x7bz:3\x7d\x7d".toList 2 := by
    rw [hprint, prune, Plan.cut?, Span.merge_eq_of_perm (.refl _) (by decide +kernel)]
    decide +kernel
  exact ⟨hascii, hprune, prune_printAll_skeleton hascii hprune⟩

end Sheet

end Cull
