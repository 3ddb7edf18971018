import Cull.Proofs.Outside
import Cull.Proofs.PruneAgain

/-!
# Written stylesheets

A stylesheet that someone writes is a list of pieces: blanks and comments, plain
rules, at-rules that are statements or have a block, and groups with pieces inside
them. Each text that a piece is made of carries what makes it well formed: a
comment ends, the header of a rule holds no braces and no quotation marks, a block
is closed by its own brace. `printAll` writes the pieces one after the other, and
`rulesAll` says which rules they are and where they come to stand.

Reading what was written gives these rules (`parse_printAll`). Two things make this
so: a piece is read in front of any text (`readable_partAll`), and the text of a piece
closes what it opens (`opens_printAll`), so that a group is closed by its own brace
whatever pieces are inside it.
-/

namespace Cull

open Text Stylesheet

/-- Nothing in the block of the rule is left unread. -/
def Rule.IsWhole : Rule → Prop
  | .group _ _ _ _ _ unparsed => unparsed = none
  | _ => True

/-- A rule that is whole, with whole rules inside it and behind it. -/
theorem Rule.isWhole_cons {r : Rule} {rest : List Rule} (hr : r.IsWhole)
    (hchildren : ∀ n ∈ nodesAll r.children, n.IsWhole) (hrest : ∀ n ∈ nodesAll rest, n.IsWhole) :
    ∀ n ∈ nodesAll (r :: rest), n.IsWhole := by
  intro n hn
  rcases mem_nodesAll_cons.1 hn with rfl | hn | hn
  · exact hr
  · exact hchildren n hn
  · exact hrest n hn

namespace Sheet

/-! ### Texts -/

/-- The selectors of a plain rule, as they are written. -/
structure SelectorText where
  /-- The text before the opening brace. -/
  text : Text
  /-- No brace and no quotation mark is in it. -/
  noMark : ∀ c ∈ text, isBrace c = false ∧ isQuote c = false
  /-- No comment begins in it. -/
  noComment : hasPart ['/', '*'] text = false
  /-- It begins neither an at-rule nor with an ASCII blank. -/
  front : ∀ c ∈ text.head?, c ≠ '@' ∧ isAsciiBlank c = false

/-- The text inside the braces of a block. -/
structure BlockText where
  /-- The text between the braces. -/
  text : Text
  /-- The opening brace is closed by the closing one. -/
  closed : matchingBrace? ('\x7b' :: (text ++ ['}'])) 0 = some (some (1 + byteLength text))

/-- The name of an at-rule, without the at-sign. -/
structure AtName where
  /-- The name. -/
  text : Text
  /-- No blank, quotation mark, brace or semicolon is in it. -/
  noMark : ∀ c ∈ text, isAsciiBlank c = false ∧ isQuote c = false ∧ isBrace c = false ∧ c ≠ ';'
  /-- No comment begins in it. -/
  noComment : hasPart ['/', '*'] text = false

/-- The name as it is written. -/
def AtName.full (name : AtName) : Text := '@' :: name.text

/-- The name of a group. -/
def media : AtName where
  text := ['m', 'e', 'd', 'i', 'a']
  noMark := by simp [isAsciiBlank, isQuote, isBrace]
  noComment := by decide

/-- A brace or a semicolon. -/
def isPreludeEnd (c : Char) : Bool := isBrace c || c = ';'

/-- What stands between the name of an at-rule and the mark that ends its header. -/
structure Prelude where
  /-- The text. -/
  text : Text
  /-- It is empty or begins with an ASCII blank. -/
  front : ∀ c ∈ text.head?, isAsciiBlank c = true
  /-- Its strings and comments are closed. -/
  closes : closesAll text = true
  /-- No brace and no semicolon stands outside them. -/
  noMark : ∀ s ∈ outside text, atMark isPreludeEnd s = false

/-- What follows the opening mark of a comment. -/
structure CommentText where
  /-- The text, with the closing mark. -/
  text : Text
  /-- It ends at its first closing mark. -/
  closed : closeComment text = some (text, [])

/-! ### Pieces -/

/-- A piece of a stylesheet. -/
inductive Piece where
  /-- An ASCII blank. -/
  | blank (c : Char) (ascii : isAsciiBlank c = true)
  /-- A comment. -/
  | comment (inner : CommentText)
  /-- A plain rule. If its selectors or its block are blank, it is no rule for the reader. -/
  | plain (selectors : SelectorText) (body : BlockText)
  /-- An at-rule that ends with a semicolon. -/
  | statement (name : AtName) (prelude : Prelude)
  /-- An at-rule with a block that is kept whole. -/
  | block (name : AtName) (prelude : Prelude) (body : BlockText)
      (whole : groupNames.contains name.full = false)
  /-- A media group, with pieces inside it. -/
  | group (prelude : Prelude) (inside : List Piece)

namespace Piece

/-- Induction on a list of pieces, and on the pieces inside each group of it. -/
theorem pieces_induction {motive : List Piece → Prop} (nil : motive [])
    (blank : ∀ c ascii ps, motive ps → motive (.blank c ascii :: ps))
    (comment : ∀ inner ps, motive ps → motive (.comment inner :: ps))
    (plain : ∀ selectors body ps, motive ps → motive (.plain selectors body :: ps))
    (statement : ∀ name prelude ps, motive ps → motive (.statement name prelude :: ps))
    (block : ∀ name prelude body whole ps, motive ps → motive (.block name prelude body whole :: ps))
    (group : ∀ prelude inside ps, motive inside → motive ps → motive (.group prelude inside :: ps)) :
    ∀ ps, motive ps
  | [] => nil
  | .blank c ascii :: ps => blank c ascii ps (pieces_induction nil blank comment plain statement block group ps)
  | .comment inner :: ps => comment inner ps (pieces_induction nil blank comment plain statement block group ps)
  | .plain selectors body :: ps =>
    plain selectors body ps (pieces_induction nil blank comment plain statement block group ps)
  | .statement name prelude :: ps =>
    statement name prelude ps (pieces_induction nil blank comment plain statement block group ps)
  | .block name prelude body whole :: ps =>
    block name prelude body whole ps (pieces_induction nil blank comment plain statement block group ps)
  | .group prelude inside :: ps =>
    group prelude inside ps (pieces_induction nil blank comment plain statement block group inside)
      (pieces_induction nil blank comment plain statement block group ps)

/-- The header of an at-rule, with the mark that ends it. -/
def header (name : AtName) (prelude : Prelude) (e : HeaderEnd) : Text := name.full ++ prelude.text ++ [e.mark]

/-- A header that ends with an opening brace, and its block. -/
def braced (header body : Text) : Text := header ++ (body ++ ['}'])

mutual

/-- The piece as it is written. -/
def print : Piece → Text
  | blank c _ => [c]
  | comment inner => '/' :: '*' :: inner.text
  | plain selectors body => braced (selectors.text ++ ['\x7b']) body.text
  | statement name prelude => header name prelude .semicolon
  | block name prelude body _ => braced (header name prelude .brace) body.text
  | group prelude inside => braced (header media prelude .brace) (printAll inside)

/-- The pieces as they are written, one after the other. -/
def printAll : List Piece → Text
  | [] => []
  | p :: ps => print p ++ printAll ps

end

mutual

/-- The rule that a piece at byte `pos` is, if it is one. -/
def rules (pos : Nat) : Piece → List Rule
  | blank _ _ => []
  | comment _ => []
  | plain selectors body =>
    if trim selectors.text = [] ∨ trim body.text = [] then []
    else
      [.plain
        { selectors := (splitOn (· = ',') (trim selectors.text)).map trim
          declarations := trim body.text
          span := .ofText pos (print (.plain selectors body))
          text := print (.plain selectors body) }]
  | statement name prelude =>
    [.atRule name.full (.ofText pos (print (.statement name prelude))) (print (.statement name prelude))]
  | block name prelude body whole =>
    [.atRule name.full (.ofText pos (print (.block name prelude body whole)))
      (print (.block name prelude body whole))]
  | group prelude inside =>
    let innerStart := pos + byteLength (header media prelude .brace)
    [.group media.full (.ofText pos (print (.group prelude inside))) (print (.group prelude inside))
      (.ofText innerStart (printAll inside)) (rulesAll innerStart inside) none]

/-- The rules of pieces of which the first begins at byte `pos`. -/
def rulesAll (pos : Nat) : List Piece → List Rule
  | [] => []
  | p :: ps => rules pos p ++ rulesAll (pos + byteLength (print p)) ps

end

mutual

/-- The piece as a part of the layout. -/
def part : Piece → Part
  | blank c _ => .blank c
  | comment inner => .comment inner.text
  | plain selectors body => .plain selectors.text body.text
  | statement name prelude => .atRule name.full (print (.statement name prelude))
  | block name prelude body whole => .atRule name.full (print (.block name prelude body whole))
  | group prelude inside => .group media.full (header media prelude .brace) (partAll inside) []

/-- The pieces as parts. -/
def partAll : List Piece → List Part
  | [] => []
  | p :: ps => part p :: partAll ps

end

/-- The parts have the text that is written. -/
theorem textAll_partAll (s : List Piece) : Part.textAll (partAll s) = printAll s := by
  induction s using pieces_induction with
  | nil => simp [partAll, printAll]
  | blank c ascii ps ih => simp [partAll, printAll, part, print, Part.text, ih]
  | comment inner ps ih => simp [partAll, printAll, part, print, Part.text, ih]
  | plain selectors body ps ih => simp [partAll, printAll, part, print, Part.text, braced, ih]
  | statement name prelude ps ih => simp [partAll, printAll, part, Part.text, ih]
  | block name prelude body whole ps ih => simp [partAll, printAll, part, Part.text, ih]
  | group prelude inside ps ihinside ih =>
    simp [partAll, printAll, part, print, Part.text, braced, ih, ihinside]

theorem text_part (p : Piece) : p.part.text = p.print := by
  have h := textAll_partAll [p]
  simpa [partAll, printAll] using h

/-- The parts are the rules of the pieces, wherever they stand. -/
theorem placeAll_partAll (pos : Nat) (s : List Piece) : Part.placeAll pos (partAll s) = rulesAll pos s := by
  induction s using pieces_induction generalizing pos with
  | nil => simp [partAll, rulesAll]
  | blank c ascii ps ih => simp [partAll, rulesAll, rules, part, Part.place, Part.text, print, ih]
  | comment inner ps ih => simp [partAll, rulesAll, rules, part, Part.place, Part.text, print, ih]
  | plain selectors body ps ih =>
    rw [partAll, Part.placeAll_cons, text_part, ih, rulesAll]
    congr 1
    rw [part, Part.place, plainRule?, rules]
    by_cases hblank : trim selectors.text = [] ∨ trim body.text = []
    · rw [if_pos hblank, if_pos (by simpa using hblank)]
      rfl
    · rw [if_neg hblank, if_neg (by simpa using hblank)]
      simp [print, braced]
  | statement name prelude ps ih => simp [partAll, rulesAll, rules, part, Part.place, Part.text, ih]
  | block name prelude body whole ps ih => simp [partAll, rulesAll, rules, part, Part.place, Part.text, ih]
  | group prelude inside ps ihinside ih =>
    rw [partAll, Part.placeAll_cons, text_part, ih, rulesAll]
    congr 1
    rw [part, Part.place, rules]
    simp [ihinside, textAll_partAll, leftover, print, braced]

end Piece

/-! ### What the readers make of the texts -/

/-- The blocks open around a block make no difference to where it is closed. -/
theorem closeBlock_deeper {e : Nat} {t a rest : Text} (h : closeBlock e t = some (a, rest)) (d : Nat) :
    closeBlock (e + d + 1) t = (closeBlock d rest).map fun (b, r) => (a ++ '}' :: b, r) := by
  induction t using lexeme_induction generalizing e a with
  | step t ih =>
    rcases closeBlock_eq_some h with ⟨hl, rfl, rfl⟩ | ⟨r, e, b, hl, rfl, hb, rfl⟩ | ⟨l, r, b, hl, hne, hb, rfl⟩
    · rw [closeBlock_eq, hl, Nat.zero_add]
      simp
    · have hdepth : e + 1 + d = e + d + 1 := by omega
      rw [closeBlock_eq, hl, hdepth]
      simp [ih _ _ hl hb, Function.comp_def]
    · have hdepth : (if l = ['\x7b'] then e + d + 1 + 1 else e + d + 1) =
          (if l = ['\x7b'] then e + 1 else e) + d + 1 := by
        split
        · omega
        · rfl
      rw [closeBlock_eq, hl]
      simp [hne, hdepth, ih _ _ hl hb, Function.comp_def]

/-- A block that its brace closes, behind a text that opens it. Its text alone need not be read the same
way in front of another: it may end with a slash. -/
theorem opens_braced {x b : Text} (hx : Opens 1 x) (hb : closeBlock 0 (b ++ ['}']) = some (b, [])) :
    Opens 0 (Piece.braced x b) := by
  intro depth y
  have hlocal := closeBlock_local hb y
  have hdeeper := closeBlock_deeper hlocal depth
  rw [Nat.zero_add] at hdeeper
  rw [Piece.braced, List.append_assoc, hx, List.append_assoc, List.singleton_append, hdeeper, Nat.add_zero]
  simp [Function.comp_def]

theorem opens_of_passes {x : Text} (h : Passes isBrace x) (hlast : x.getLast? ≠ some '/') : Opens 0 x :=
  fun depth _ => closeBlock_passes h (fun hslash => absurd hslash hlast) depth

/-- A text without braces of its own, and the brace that opens a block. -/
theorem opens_brace {x : Text} (h : Passes isBrace x) : Opens 1 (x ++ ['\x7b']) := by
  intro depth y
  have hapart : Apart x ('\x7b' :: y) := fun _ => by simp
  rw [List.append_assoc, List.singleton_append, closeBlock_passes h hapart, closeBlock_open]
  simp [Function.comp_def]

theorem BlockText.closeBlock_eq (b : BlockText) : closeBlock 0 (b.text ++ ['}']) = some (b.text, []) := by
  have hclosed := b.closed
  rw [matchingBrace?, show splitAtByte? 0 ('\x7b' :: (b.text ++ ['}'])) = some ([], _) from rfl] at hclosed
  obtain ⟨⟨body, rest⟩, hbody, hlength⟩ := Option.map_eq_some_iff.1 (Option.some.inj hclosed)
  -- the brace that is found stands where the text ends
  have hsplit := splitAtByte?_append body ('}' :: rest)
  rw [closeBlock_append hbody, show byteLength body = byteLength b.text by simpa using hlength,
    splitAtByte?_append] at hsplit
  cases hsplit
  exact hbody

theorem Prelude.passes (p : Prelude) : Passes isPreludeEnd p.text := passes_iff.2 ⟨p.closes, p.noMark⟩

theorem SelectorText.passes (s : SelectorText) : Passes isBrace s.text :=
  passes_of_unmarked (fun c hc => (s.noMark c hc).2) s.noComment fun c hc => (s.noMark c hc).1

theorem AtName.passes (n : AtName) : Passes isBrace n.full := by
  apply passes_of_unmarked
  · exact List.forall_mem_cons.2 ⟨rfl, fun c hc => (n.noMark c hc).2.1⟩
  · simpa [full, hasPart, dropLead?] using n.noComment
  · exact List.forall_mem_cons.2 ⟨rfl, fun c hc => (n.noMark c hc).2.2.1⟩

/-- A name and what follows it hold no braces of their own. -/
theorem passes_prelude (n : AtName) (p : Prelude) : Passes isBrace (n.full ++ p.text) := by
  refine n.passes.append (p.passes.mono fun c hc => by simp [isPreludeEnd, hc]) fun _ hstar => ?_
  have hblank := p.front '*' hstar
  cases hblank

theorem opens_header_brace (n : AtName) (p : Prelude) : Opens 1 (Piece.header n p .brace) :=
  opens_brace (passes_prelude n p)

theorem opens_header_semicolon (n : AtName) (p : Prelude) : Opens 0 (Piece.header n p .semicolon) := by
  refine opens_of_passes ((passes_prelude n p).append (passes_of_unmarked ?_ rfl ?_) fun _ => ?_) ?_
  all_goals simp [Piece.header, HeaderEnd.mark, isQuote, isBrace]

/-- The name of an at-rule is read up to its end, and its header up to its mark. -/
theorem readAtRule_header (n : AtName) (p : Prelude) (e : HeaderEnd) (rest : Text) :
    (n.text ++ (p.text ++ e.mark :: rest)).takeWhile isAtNameChar = n.text ∧
    closeHeader ((n.text ++ (p.text ++ e.mark :: rest)).dropWhile isAtNameChar) = some (p.text, e, rest) := by
  have hname : ∀ c ∈ n.text, isAtNameChar c = true := by
    intro c hc
    obtain ⟨hblank, -, hbrace, hsemicolon⟩ := n.noMark c hc
    rw [isBrace, Bool.or_eq_false_iff] at hbrace
    simp [isAtNameChar, hblank, hbrace.1, hsemicolon]
  have hstop : ∀ c ∈ (p.text ++ e.mark :: rest).head?, isAtNameChar c = false := by
    cases hp : p.text with
    | nil => cases e <;> simp [HeaderEnd.mark, isAtNameChar]
    | cons c w =>
      have hblank := p.front c (by rw [hp]; rfl)
      simp [isAtNameChar, hblank]
  have hheader : closeHeader (p.text ++ e.mark :: rest) = some (p.text, e, rest) := by
    have hpasses : Passes endsHeader p.text := p.passes.mono fun c hc => by
      rcases Bool.or_eq_true_iff.1 hc with hc | hc <;> simp [isPreludeEnd, isBrace, hc]
    rw [closeHeader_passes hpasses fun _ => by cases e <;> simp [HeaderEnd.mark]]
    cases e <;> simp [HeaderEnd.mark, closeHeader]
  rw [List.takeWhile_append_of_pos hname, List.dropWhile_append_of_pos hname]
  cases hrest : p.text ++ e.mark :: rest with
  | nil => simp at hrest
  | cons c r =>
    rw [hrest] at hstop hheader
    simp [hstop c rfl, hheader]

namespace Piece

/-! ### Reading what was written -/

/-- What is written closes what it opens. -/
theorem opens_printAll (s : List Piece) : Opens 0 (printAll s) := by
  induction s using pieces_induction with
  | nil => exact opens_nil
  | blank c ascii ps ih => exact (opens_blank ascii).append ih
  | comment inner ps ih => exact (opens_comment inner.closed).append ih
  | plain selectors body ps ih => exact (opens_braced (opens_brace selectors.passes) body.closeBlock_eq).append ih
  | statement name prelude ps ih => exact (opens_header_semicolon name prelude).append ih
  | block name prelude body whole ps ih =>
    exact (opens_braced (opens_header_brace name prelude) body.closeBlock_eq).append ih
  | group prelude inside ps ihinside ih =>
    exact (opens_braced (opens_header_brace media prelude) ihinside.closeBlock_eq).append ih

theorem readConstruct_plain (selectors : SelectorText) (body : BlockText) :
    readConstruct (print (.plain selectors body)) = some (.plain selectors.text body.text, []) := by
  have hplain : readPlain (selectors.text ++ '\x7b' :: (body.text ++ ['}'])) =
      some (selectors.text, body.text, []) := by
    rw [readPlain_header, body.closeBlock_eq]
    · rfl
    · rintro c hc rfl
      cases (selectors.noMark _ hc).1
  rw [print, braced, List.append_assoc, List.singleton_append]
  cases hs : selectors.text with
  | nil =>
    rw [hs, List.nil_append] at hplain
    rw [List.nil_append, readConstruct_cons (by decide) (fun h => absurd h (by decide)), if_neg (by decide), hplain]
    rfl
  | cons c w =>
    obtain ⟨hat, hblank⟩ := selectors.front c (by rw [hs]; rfl)
    rw [hs] at hplain
    rw [List.cons_append] at hplain ⊢
    rw [readConstruct_cons hat, if_neg (by simp [hblank]), hplain]
    · rfl
    · -- no comment begins in the selectors
      rintro rfl hstar
      have hcomment := selectors.noComment
      cases w with
      | nil => simp at hstar
      | cons d w =>
        rw [List.cons_append, List.head?_cons, Option.some.injEq] at hstar
        simp [hs, hstar, hasPart, dropLead?] at hcomment

theorem readConstruct_statement (name : AtName) (prelude : Prelude) :
    readConstruct (print (.statement name prelude)) =
      some (.atRule (.statement name.full (print (.statement name prelude))), []) := by
  obtain ⟨htake, hheader⟩ := readAtRule_header name prelude .semicolon []
  have hread : readAtRule (name.text ++ (prelude.text ++ [';'])) =
      some (.statement name.full (print (.statement name prelude)), []) := by
    rw [readAtRule]
    simp only [HeaderEnd.mark] at htake hheader
    simp [htake, hheader, AtName.full, print, header, HeaderEnd.mark]
  have hsplit : print (.statement name prelude) = '@' :: (name.text ++ (prelude.text ++ [';'])) := by
    simp [print, header, AtName.full, HeaderEnd.mark]
  rw [hsplit, readConstruct, hread, hsplit]
  rfl

/-- An at-rule with a block that its brace closes. -/
theorem readConstruct_braced (name : AtName) (prelude : Prelude) {body : Text}
    (hbody : closeBlock 0 (body ++ ['}']) = some (body, [])) :
    readConstruct (braced (header name prelude .brace) body) =
      some (.atRule (.block name.full (header name prelude .brace) body), []) := by
  obtain ⟨htake, hheader⟩ := readAtRule_header name prelude .brace (body ++ ['}'])
  have hread : readAtRule (name.text ++ (prelude.text ++ '\x7b' :: (body ++ ['}']))) =
      some (.block name.full (header name prelude .brace) body, []) := by
    rw [readAtRule]
    simp only [HeaderEnd.mark] at htake hheader
    simp [htake, hheader, hbody, AtName.full, header, HeaderEnd.mark]
  have hsplit : braced (header name prelude .brace) body =
      '@' :: (name.text ++ (prelude.text ++ '\x7b' :: (body ++ ['}']))) := by
    simp [braced, header, AtName.full, HeaderEnd.mark]
  rw [hsplit, readConstruct, hread]
  rfl

theorem readable_of_readConstruct {p : Part} {c : Construct} (h : readConstruct p.text = some (c, []))
    (hpart : c.part = p) : p.Readable := by
  intro rest
  refine ⟨c, ?_, hpart⟩
  rw [← hpart, c.part_text]
  exact readConstruct_text_append h rest

/-- Every piece is read in front of any text, and a group with the pieces inside it. -/
theorem readable_partAll (s : List Piece) : ∀ p ∈ partAll s, p.Readable := by
  induction s using pieces_induction with
  | nil => simp [partAll]
  | blank c ascii ps ih =>
    refine List.forall_mem_cons.2 ⟨?_, ih⟩
    have hread : readConstruct [c] = some (.blank c, []) := by
      rw [readConstruct_cons, if_pos ascii]
      · rintro rfl
        cases ascii
      · simp
    exact readable_of_readConstruct hread rfl
  | comment inner ps ih =>
    refine List.forall_mem_cons.2 ⟨?_, ih⟩
    have hread : readConstruct ('/' :: '*' :: inner.text) = some (.comment inner.text, []) := by
      rw [readConstruct, inner.closed]
      rfl
    exact readable_of_readConstruct hread rfl
  | plain selectors body ps ih =>
    refine List.forall_mem_cons.2 ⟨?_, ih⟩
    refine readable_of_readConstruct (c := .plain selectors.text body.text) ?_ rfl
    rw [text_part, readConstruct_plain]
  | statement name prelude ps ih =>
    refine List.forall_mem_cons.2 ⟨?_, ih⟩
    exact readable_of_readConstruct (readConstruct_statement name prelude) rfl
  | block name prelude body whole ps ih =>
    refine List.forall_mem_cons.2 ⟨?_, ih⟩
    refine readable_of_readConstruct (readConstruct_braced name prelude body.closeBlock_eq) ?_
    rw [Construct.part, Part.ofBlock, if_neg (Bool.eq_false_iff.1 whole)]
    rfl
  | group prelude inside ps ihinside ih =>
    refine List.forall_mem_cons.2 ⟨?_, ih⟩
    have hlayout := layout_textAll ihinside
    rw [textAll_partAll] at hlayout
    refine readable_of_readConstruct (c := .atRule (.block media.full (header media prelude .brace) (printAll inside)))
      ?_ ?_
    · rw [text_part]
      exact readConstruct_braced media prelude (opens_printAll inside).closeBlock_eq
    · rw [Construct.part, hlayout, Part.ofBlock, if_pos (by decide)]
      rfl

theorem layout_printAll (s : List Piece) : layout (printAll s) = (partAll s, []) := by
  rw [← textAll_partAll]
  exact layout_textAll (readable_partAll s)

/-- Nothing is left unread in the rules of pieces. -/
theorem isWhole_rulesAll (pos : Nat) (s : List Piece) : ∀ n ∈ Rule.nodesAll (rulesAll pos s), n.IsWhole := by
  have hleaf : ∀ n ∈ Rule.nodesAll [], n.IsWhole := by simp [Rule.nodesAll]
  induction s using pieces_induction generalizing pos with
  | nil =>
    rw [rulesAll]
    exact hleaf
  | blank c ascii ps ih =>
    rw [rulesAll, rules]
    exact ih _
  | comment inner ps ih =>
    rw [rulesAll, rules]
    exact ih _
  | plain selectors body ps ih =>
    rw [rulesAll, rules]
    split
    · exact ih _
    · exact Rule.isWhole_cons trivial hleaf (ih _)
  | statement name prelude ps ih =>
    rw [rulesAll, rules]
    exact Rule.isWhole_cons trivial hleaf (ih _)
  | block name prelude body whole ps ih =>
    rw [rulesAll, rules]
    exact Rule.isWhole_cons trivial hleaf (ih _)
  | group prelude inside ps ihinside ih =>
    rw [rulesAll, rules]
    exact Rule.isWhole_cons rfl (ihinside _) (ih _)

end Piece

theorem parse_eq_rulesAll (s : List Piece) :
    parse (Piece.printAll s) = ⟨Piece.printAll s, Piece.rulesAll 0 s, none⟩ := by
  rw [parse_eq_placeAll, Piece.layout_printAll, Piece.placeAll_partAll]
  rfl

/-- Reading what was written gives the pieces that are rules, in their order and with the same nesting,
each in its place, and leaves nothing unread at any depth. -/
theorem parse_printAll (s : List Piece) :
    parse (Piece.printAll s) = ⟨Piece.printAll s, Piece.rulesAll 0 s, none⟩ ∧
    ∀ n ∈ (parse (Piece.printAll s)).nodes, n.IsWhole := by
  have hparse := parse_eq_rulesAll s
  refine ⟨hparse, fun n hn => ?_⟩
  rw [hparse] at hn
  exact Piece.isWhole_rulesAll 0 s n hn

end Sheet

end Cull
