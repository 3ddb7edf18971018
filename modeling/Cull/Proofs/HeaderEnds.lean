import Cull.Proofs.Outside
import Cull.Proofs.Tree

/-!
# Where a header ends

The header of a rule ends at an opening brace, that of an at-rule also at a
semicolon. Three readers look for this mark: the header of a plain rule reaches to
the next opening brace whatever stands before it, the name of an at-rule to the
next blank or mark, and only the reader that goes on behind the name knows of
strings and comments. `HeaderSafe` says that the mark is the first one outside
strings and comments. That is so exactly if what stands before the mark closes its
strings and comments and holds no mark outside them (`headerSafe_iff`). In a plain
rule there is no brace before the mark, and in an at-rule it is enough that the name
closes its strings and comments (`header_ends_at_first_mark`); it is not so of every
rule that is read (`header_ends_in_string`).
-/

namespace Cull.Stylesheet

open Text

/-! ### The mark that was taken -/

/-- The name of an at-rule, with the at-sign. -/
def AtForm.name : AtForm → Text
  | statement name _ => name
  | block name _ _ => name

/-- The character can end the header of the construct. -/
def Construct.isMark : Construct → Char → Bool
  | plain _ _ => fun c => c = '\x7b'
  | _ => endsHeader

/-- The text of a rule from the mark on that was taken for the end of its header. -/
def Construct.fromMark : Construct → Text
  | blank _ => []
  | comment _ => []
  | atRule (.statement _ _) => [';']
  | atRule (.block _ _ body) => '\x7b' :: (body ++ ['}'])
  | plain _ body => '\x7b' :: (body ++ ['}'])

/-- The header ends at the first of its marks outside every string and comment of the rule. -/
def Construct.HeaderSafe (c : Construct) : Prop := firstOutside c.isMark c.text = some c.fromMark

instance (c : Construct) : Decidable c.HeaderSafe :=
  inferInstanceAs (Decidable (firstOutside c.isMark c.text = some c.fromMark))

/-- The rule was read as the construct, where it stands in the source: the reader came to its first
byte, with `t` before it, and read the construct from `t`. -/
def ReadFrom (source : Text) (n : Rule) (c : Construct) : Prop :=
  ∃ pre t post rest, source = pre ++ (t ++ post) ∧ readConstruct t = some (c, rest) ∧ n ∈ c.rules pre.byteLength

/-- Every rule of a piece of text was read as some construct. -/
theorem exists_readFrom_of_mem {source t : Text} {n : Rule} (pre post : Text) (hsource : source = pre ++ (t ++ post))
    (h : n ∈ Rule.nodesAll (readRules pre.byteLength t).1) : ∃ c, ReadFrom source n c := by
  induction t using construct_induction generalizing pre post with
  | stop t hnone =>
    rw [readRules_of_readConstruct_eq_none hnone] at h
    simp [Rule.nodesAll] at h
  | step t c rest hc ihbody ih =>
    have happend := readConstruct_append hc
    rw [readRules_of_readConstruct hc, Rule.mem_nodesAll] at h
    obtain ⟨r, hr, hn⟩ := h
    rcases List.mem_append.1 hr with hr | hr
    · rcases c.mem_nodesAll_rules (Rule.mem_nodesAll.2 ⟨r, hr, hn⟩) with hn | ⟨name, header, body, rfl, hn⟩
      · exact ⟨c, pre, t, post, rest, hsource, hc, hn⟩
      · -- a rule in the block of a group, which begins behind the header
        refine ihbody name header body rfl (pre ++ header) ('}' :: (rest ++ post)) ?_ (by rwa [byteLength_append])
        rw [hsource, ← happend]
        simp [Construct.text, AtForm.text]
    · refine ih (pre ++ c.text) post ?_ ?_
      · rw [hsource, ← happend]
        simp
      · rw [byteLength_append]
        exact Rule.mem_nodesAll.2 ⟨r, hr, hn⟩

theorem exists_readFrom {source : Text} {n : Rule} (h : n ∈ (parse source).nodes) : ∃ c, ReadFrom source n c :=
  exists_readFrom_of_mem [] [] (by simp) h

/-- The first construct of a stylesheet is read as the rules that it is. -/
theorem readFrom_front {source rest : Text} {c : Construct} {n : Rule} (h : readConstruct source = some (c, rest))
    (hn : n ∈ c.rules 0) : n ∈ (parse source).nodes ∧ ReadFrom source n c := by
  constructor
  · show n ∈ Rule.nodesAll (readRules 0 source).1
    rw [readRules_of_readConstruct h, Rule.mem_nodesAll]
    refine ⟨n, List.mem_append_left _ hn, ?_⟩
    rw [Rule.nodes_eq]
    exact .head _
  · exact ⟨[], source, [], rest, by simp, h, hn⟩

/-- The header ends at the first of its marks outside strings and comments exactly if what stands before it is
passed over when that mark is looked for. -/
theorem headerSafe_iff {c : Construct} {header back : Text} {m : Char} (htext : c.text = header ++ m :: back)
    (hfrom : c.fromMark = m :: back) (hm : c.isMark m = true) (hends : endsHeader m = true) :
    c.HeaderSafe ↔ Passes c.isMark header := by
  rw [Construct.HeaderSafe, htext, hfrom]
  refine ⟨passes_of_firstOutside, fun hpasses => ?_⟩
  obtain ⟨hquote, hslash, hstar⟩ : isQuote m = false ∧ m ≠ '/' ∧ m ≠ '*' := by
    rw [endsHeader, Bool.or_eq_true, decide_eq_true_eq, decide_eq_true_eq] at hends
    rcases hends with rfl | rfl <;> decide
  have hapart : Apart header (m :: back) := fun _ hhead => hstar (Option.some.inj hhead)
  rw [firstOutside_append hpasses hapart, firstOutside, outside_lexeme (lexeme?_char hquote fun h => absurd h hslash),
    List.find?_cons_of_pos]
  simpa [atMark] using hm

/-! ### Headers of plain rules -/

/-- The header of a plain rule ends at the first opening brace outside strings and comments exactly if it
closes its strings and comments. -/
theorem headerSafe_plain_iff {t rest header body : Text} (h : readConstruct t = some (.plain header body, rest)) :
    (Construct.plain header body).HeaderSafe ↔ closesAll header = true := by
  have hbraces : ∀ c ∈ header, c ≠ '\x7b' := by
    rcases readConstruct_cases h with ⟨_, _, ⟨⟩, _⟩ | ⟨_, _, ⟨⟩, _⟩ | ⟨_, ⟨⟩, _⟩ | ⟨_, _, _, _, ⟨⟩, -, hr, -⟩
    exact (readPlain_eq_some hr).1
  rw [headerSafe_iff rfl rfl rfl rfl, passes_iff, and_iff_left]
  intro s hs
  obtain ⟨w, rfl⟩ := isSuffix_of_mem_outside hs
  cases s with
  | nil => rfl
  | cons c s => simpa [atMark, Construct.isMark] using hbraces c (by simp)

/-! ### Headers of at-rules -/

/-- What an at-rule is read from: a name, a prelude that does not go on with the name, and the mark that
ends the prelude. -/
theorem readAtRule_cases {t rest : Text} {form : AtForm} (h : readAtRule t = some (form, rest)) :
    ∃ name prelude e back, form.name = '@' :: name ∧ form.text = '@' :: name ++ (prelude ++ HeaderEnd.mark e :: back) ∧
      (Construct.atRule form).fromMark = e.mark :: back ∧ (∀ c ∈ name, isAtNameChar c = true) ∧
      (∀ c ∈ (prelude ++ e.mark :: back).head?, isAtNameChar c = false) ∧
      closeHeader (prelude ++ e.mark :: back) = some (prelude, e, back) := by
  have hname : ∀ c ∈ t.takeWhile isAtNameChar, isAtNameChar c = true := List.all_eq_true.1 List.all_takeWhile
  -- no name goes on with the mark, so what follows the mark may be anything
  have hfront : ∀ {prelude rest' : Text} {e : HeaderEnd},
      closeHeader (t.dropWhile isAtNameChar) = some (prelude, e, rest') → ∀ back,
        ∀ c ∈ (prelude ++ e.mark :: back).head?, isAtNameChar c = false := by
    intro prelude rest' e hh back c hc
    have hdrop := (readAtRule_name hh back).2
    have hhead := List.head?_dropWhile_not isAtNameChar (t.takeWhile isAtNameChar ++ (prelude ++ e.mark :: back))
    rw [hdrop, Option.mem_def.1 hc] at hhead
    simpa using hhead
  revert h
  fun_cases readAtRule t with
  | case1 => simp
  | case2 name prelude rest' hh =>
    rintro ⟨⟩
    exact ⟨name, prelude, .semicolon, [], rfl, by simp [AtForm.text, HeaderEnd.mark], rfl, hname, hfront hh [],
      closeHeader_local hh []⟩
  | case3 => simp
  | case4 name prelude rest' hh body rest'' hb =>
    rintro ⟨⟩
    exact ⟨name, prelude, .brace, body ++ ['}'], rfl, by simp [AtForm.text, HeaderEnd.mark], rfl, hname,
      hfront hh _, closeHeader_local hh _⟩

/-- The header of an at-rule ends at the first mark outside strings and comments exactly if it closes its strings and
comments and holds no mark outside them. That is so if the name closes its strings and comments. -/
theorem headerSafe_atRule_iff {t rest : Text} {form : AtForm} (h : readConstruct t = some (.atRule form, rest)) :
    ∃ header, form.text = header ++ (Construct.atRule form).fromMark ∧
      ((Construct.atRule form).HeaderSafe ↔
        closesAll header = true ∧ ∀ s ∈ outside header, atMark endsHeader s = false) ∧
      (closesAll form.name = true → (Construct.atRule form).HeaderSafe) := by
  obtain ⟨t', rfl, hr⟩ := readConstruct_atRule h
  obtain ⟨name, prelude, e, back, hname, htext, hmark, hchars, hfront, hheader⟩ := readAtRule_cases hr
  have hends : endsHeader e.mark = true := by cases e <;> rfl
  have htext' : form.text = ('@' :: name ++ prelude) ++ e.mark :: back := by rw [htext, List.append_assoc]
  have hsafe : (Construct.atRule form).HeaderSafe ↔ Passes endsHeader ('@' :: name ++ prelude) :=
    headerSafe_iff htext' hmark hends hends
  refine ⟨_, hmark ▸ htext', hsafe.trans passes_iff, fun hcloses => hsafe.2 ?_⟩
  -- the name holds no mark, and what follows it was read as if it stood by itself
  rw [hname] at hcloses
  have hpasses : Passes endsHeader ('@' :: name) := by
    rw [passes_iff]
    refine ⟨hcloses, fun s hs => ?_⟩
    obtain ⟨w, hw⟩ := isSuffix_of_mem_outside hs
    cases s with
    | nil => rfl
    | cons c s =>
      have hc : c ∈ '@' :: name := by
        rw [← hw]
        simp
      rcases List.mem_cons.1 hc with rfl | hc
      · rfl
      · have hc := hchars c hc
        simp only [isAtNameChar, Bool.not_eq_true', Bool.or_eq_false_iff] at hc
        simp [atMark, endsHeader, hc.1]
  have hapart : Apart ('@' :: name) prelude := by
    intro _ hhead
    obtain ⟨p, rfl⟩ := List.head?_eq_some_iff.1 hhead
    cases hfront '*' rfl
  exact hpasses.append (passes_of_firstOutside (firstOutside_of_closeHeader hheader)) hapart

/-! ### The rules of a stylesheet -/

/-- The header of a plain rule ends at the first opening brace outside strings and comments exactly if it
closes its strings and comments. The header of an at-rule ends at the first opening brace or semicolon outside
strings and comments exactly if what stands before that mark closes its strings and comments and holds no such
mark outside them, and this is so if the name closes its strings and comments. -/
theorem header_ends_at_first_mark {source : Text} {n : Rule} (h : n ∈ (parse source).nodes) :
    (∃ c, ReadFrom source n c) ∧
    ∀ c, ReadFrom source n c →
      (∃ header body, c = .plain header body ∧ (c.HeaderSafe ↔ closesAll header = true)) ∨
      (∃ form header, c = .atRule form ∧ c.text = header ++ c.fromMark ∧
        (c.HeaderSafe ↔ closesAll header = true ∧ ∀ s ∈ outside header, atMark endsHeader s = false) ∧
        (closesAll form.name = true → c.HeaderSafe)) := by
  refine ⟨exists_readFrom h, ?_⟩
  rintro c ⟨pre, t, post, rest, -, hc, hn⟩
  cases c with
  | blank d => cases hn
  | comment inner => cases hn
  | plain header body => exact .inl ⟨header, body, rfl, headerSafe_plain_iff hc⟩
  | atRule form =>
    obtain ⟨header, htext, hiff, hname⟩ := headerSafe_atRule_iff hc
    exact .inr ⟨form, header, rfl, htext, hiff, hname⟩

/-- The closing brace in an attribute value is passed over. -/
theorem header_ends_at_first_mark_attribute :
    (∃ n, n ∈ (parse ".a[t=\"\x7d\"]\x7bb:1\x7d".toList).nodes ∧
      ReadFrom ".a[t=\"\x7d\"]\x7bb:1\x7d".toList n (.plain ".a[t=\"\x7d\"]".toList "b:1".toList)) ∧
    closesAll ".a[t=\"\x7d\"]".toList = true ∧
    (Construct.plain ".a[t=\"\x7d\"]".toList "b:1".toList).HeaderSafe := by
  have hread : readConstruct ".a[t=\"\x7d\"]\x7bb:1\x7d".toList =
      some (.plain ".a[t=\"\x7d\"]".toList "b:1".toList, []) := by
    decide +kernel
  have hcloses : closesAll ".a[t=\"\x7d\"]".toList = true := by
    decide +kernel
  obtain ⟨hn, hfrom⟩ := readFrom_front hread (List.mem_singleton.2 rfl)
  refine ⟨⟨_, hn, hfrom⟩, hcloses, ?_⟩
  rcases (header_ends_at_first_mark hn).2 _ hfrom with ⟨header, body, hplain, hiff⟩ | ⟨form, header, hform, -⟩
  · cases hplain
    exact hiff.2 hcloses
  · cases hform

/-- The header of a plain rule can end at a brace inside a string, in front of which the reader does not
look for strings; and that of an at-rule at a semicolon inside a string that its name opens. -/
theorem header_ends_in_string :
    (∃ n c, n ∈ (parse "a[b=\"\x7b\"]\x7bc:1\x7dd[e=\"\x7d\"]\x7bf:1\x7d".toList).nodes ∧
      ReadFrom "a[b=\"\x7b\"]\x7bc:1\x7dd[e=\"\x7d\"]\x7bf:1\x7d".toList n c ∧ ¬ c.HeaderSafe) ∧
    ∃ n c, n ∈ (parse "@import\"a;\";.x\x7bd:1\x7d".toList).nodes ∧
      ReadFrom "@import\"a;\";.x\x7bd:1\x7d".toList n c ∧ ¬ c.HeaderSafe := by
  constructor
  · have hread : readConstruct "a[b=\"\x7b\"]\x7bc:1\x7dd[e=\"\x7d\"]\x7bf:1\x7d".toList =
        some (.plain "a[b=\"".toList "\"]\x7bc:1\x7dd[e=\"".toList, "\"]\x7bf:1\x7d".toList) := by
      decide +kernel
    obtain ⟨hn, hfrom⟩ := readFrom_front hread (List.mem_singleton.2 rfl)
    exact ⟨_, _, hn, hfrom, by decide +kernel⟩
  · have hread : readConstruct "@import\"a;\";.x\x7bd:1\x7d".toList =
        some (.atRule (.statement "@import\"a".toList "@import\"a;".toList), "\";.x\x7bd:1\x7d".toList) := by
      decide +kernel
    obtain ⟨hn, hfrom⟩ := readFrom_front hread (List.mem_singleton.2 rfl)
    exact ⟨_, _, hn, hfrom, by decide +kernel⟩

end Cull.Stylesheet
