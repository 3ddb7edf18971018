import Cull.Proofs.OffsetsAgree
import Cull.Selector.Compound

/-!
# Finding compounds by byte offsets

The search for the compounds of a selector as a program over a buffer of bytes. It keeps the offset
at which the open compound begins, the combinator of the next one and the number of open
parentheses, jumps over attributes, and cuts a compound out of the selector when it comes to a
separator. As for stylesheets, an offset past the buffer, a cut inside a character, an inverted span
and a loop that does not get on count as going wrong. Nothing of this happens: the search finds the
compounds of the selector, each where it stands (`compounds_eq`).
-/

namespace Cull.Selector.Offsets

open Text Stylesheet.Offsets

/-- The combinator that the byte of a mark stands for. -/
def ofByte? (b : UInt8) : Option Combinator :=
  if b = mark '>' then some .child
  else if b = mark '+' then some .adjacent
  else if b = mark '~' then some .sibling
  else none

/-- The byte separates compounds when it stands outside brackets and parentheses. -/
def isSeparatorByte (b : UInt8) : Bool := isBlankByte b || (ofByte? b).isSome

/-- The parenthesis depth after a byte. -/
def depthAfterByte (depth : Nat) (b : UInt8) : Nat :=
  if b = mark '(' then depth + 1 else if b = mark ')' then depth - 1 else depth

/-- The offset behind an attribute, from behind its opening bracket. `quote` is the byte of the quotation
mark that is open, if any. A backslash in quotes takes one byte with it. -/
def skipAttribute (bs : List UInt8) (quote : Option UInt8) (pos : Nat) : Scan Nat := do
  if pos < bs.length then
    let b ← byteAt bs pos
    match quote with
    | some q =>
      if b = mark '\\' then skipAttribute bs (some q) (pos + 2)
      else skipAttribute bs (if b = q then none else some q) (pos + 1)
    | none =>
      if b = mark ']' then return pos + 1
      else skipAttribute bs (if isQuoteByte b then some b else none) (pos + 1)
  else return bs.length
  termination_by bs.length - pos

/-- A compound and the bytes of the selector that it takes up. -/
structure Found where
  /-- The bytes. -/
  span : Span
  /-- The compound. -/
  compound : Compound

/-- How far a selector has been searched. -/
structure Progress where
  /-- The compounds that have been closed, in order. -/
  found : List Found
  /-- The combinator of the next compound to be closed. -/
  tie : Option Combinator
  /-- The offset at which the open compound begins. -/
  start : Option Nat
  /-- The number of open parentheses. -/
  depth : Nat

namespace Progress

/-- Opens a compound, unless one is open. -/
def begin (p : Progress) (pos : Nat) : Progress := { p with start := p.start.or (some pos) }

/-- Closes the compound that is open, if any. -/
def close (p : Progress) (source : Text) (pos : Nat) : Scan Progress :=
  match p.start with
  | none => return p
  | some start => do
    let span ← spanOf start pos
    let text ← cut source start pos
    return { p with found := p.found ++ [⟨span, ⟨p.tie, text⟩⟩], tie := some .descendant, start := none }

/-- Takes down the combinator that a byte stands for. In front of the first compound there is none. -/
def note (p : Progress) (b : UInt8) : Progress :=
  if (ofByte? b).isSome && !p.found.isEmpty then { p with tie := ofByte? b } else p

end Progress

/-- Searches the rest of a selector. -/
def search (source : Text) (bs : List UInt8) (p : Progress) (pos : Nat) : Scan (List Found) := do
  if pos < bs.length then
    let b ← byteAt bs pos
    if b = mark '[' then
      let next ← skipAttribute bs none (pos + 1)
      if pos < next then search source bs (p.begin pos) next else throw (.stalled pos)
    else
      let depth := depthAfterByte p.depth b
      if depth = 0 && isSeparatorByte b then
        let p ← p.close source pos
        search source bs { p.note b with depth := depth } (pos + 1)
      else search source bs { p.begin pos with depth := depth } (pos + 1)
  else
    let p ← p.close source bs.length
    return p.found
  termination_by bs.length - pos

/-- Finds the compounds of a selector. -/
def compounds (s : Text) : Scan (List Found) := search s (bytes s) ⟨[], none, none, 0⟩ 0

/-! ### Bytes and characters -/

variable {bs : List UInt8} {pre t : Text} {c : Char} {b : UInt8}

theorem ofByte?_lead (c : Char) : ofByte? (lead c) = Combinator.ofMark? c := by
  simp [ofByte?, Combinator.ofMark?, lead_eq_mark_iff]

theorem isSeparatorByte_lead (c : Char) : isSeparatorByte (lead c) = isSeparator c := by
  rw [isSeparatorByte, isSeparator, isBlankByte_lead, ofByte?_lead]

theorem depthAfterByte_lead (depth : Nat) (c : Char) : depthAfterByte depth (lead c) = depthAfter depth c := by
  simp [depthAfterByte, depthAfter, lead_eq_mark_iff]

theorem isSeparatorByte_of_le (hb : 128 ≤ b.toNat) : isSeparatorByte b = false := by
  have hne : ∀ m : Char, m.val.toNat < 128 → b ≠ mark m := fun m hm => ne_mark hm hb
  simp [isSeparatorByte, isBlankByte, ofByte?, hne ' ' (by decide), hne '\t' (by decide), hne '\n' (by decide),
    hne '\x0c' (by decide), hne '\r' (by decide), hne '>' (by decide), hne '+' (by decide), hne '~' (by decide)]

theorem depthAfterByte_of_le (depth : Nat) (hb : 128 ≤ b.toNat) : depthAfterByte depth b = depth := by
  simp [depthAfterByte, ne_mark (m := '(') (by decide) hb, ne_mark (m := ')') (by decide) hb]

/-- A separator takes up one byte. -/
theorem lt_of_isSeparator (hc : isSeparator c = true) : c.val.toNat < 128 := by
  have hcases : c = ' ' ∨ c = '\t' ∨ c = '\n' ∨ c = '\x0c' ∨ c = '\r' ∨ c = '>' ∨ c = '+' ∨ c = '~' := by
    grind [isSeparator, isAsciiBlank, Combinator.ofMark?]
  rcases hcases with rfl | rfl | rfl | rfl | rfl | rfl | rfl | rfl <;> decide

/-! ### Attributes -/

theorem skipAttribute_skip {quote : Option Char} (hquote : ∀ q ∈ quote, q.val.toNat < 128) (pos : Nat) (b : UInt8)
    (h : bs[pos]? = some b) (hb : 128 ≤ b.toNat) :
    skipAttribute bs (quote.map mark) pos = skipAttribute bs (quote.map mark) (pos + 1) := by
  conv => lhs; rw [skipAttribute]
  cases quote with
  | none =>
    simp [lt_length_of_getElem? h, byteAt_of_getElem? h, ne_mark (m := ']') (by decide) hb, not_isQuoteByte hb]
  | some q =>
    simp [lt_length_of_getElem? h, byteAt_of_getElem? h, ne_mark (m := '\\') (by decide) hb,
      ne_mark (hquote q rfl) hb]

/-- One character of an attribute. -/
theorem skipAttribute_lead {quote : Option Char} (hquote : ∀ q ∈ quote, q.val.toNat < 128)
    (hbs : bs = bytes (pre ++ c :: t)) :
    skipAttribute bs (quote.map mark) (byteLength pre) =
      match quote with
      | some q =>
        if c = '\\' then skipAttribute bs (some (mark q)) (byteLength pre + 2)
        else skipAttribute bs ((if c = q then none else some q).map mark) (byteLength pre + 1)
      | none =>
        if c = ']' then pure (byteLength pre + 1)
        else skipAttribute bs ((if c = '"' || c = '\'' then some c else none).map mark) (byteLength pre + 1) := by
  conv => lhs; rw [skipAttribute]
  cases quote with
  | none =>
    have hopen : (if isQuoteByte (lead c) then some (lead c) else none) =
        (if c = '"' || c = '\'' then some c else none).map mark := by
      have hc : isQuoteByte (lead c) = (c = '"' || c = '\'') := isQuoteByte_lead c
      rw [hc]
      split
      · next h => rw [lead_eq_mark (Stylesheet.Offsets.lt_of_isQuote (by simpa [Stylesheet.isQuote] using h))]; rfl
      · rfl
    simp only [lt_length_lead hbs, if_true, byteAt_lead hbs, pure_bind, Option.map_none, hopen,
      lead_eq_mark_iff (m := ']') (by decide)]
  | some q =>
    have hclose : (if lead c = mark q then none else some (mark q)) = (if c = q then none else some q).map mark := by
      rw [ite_congr (propext (lead_eq_mark_iff (hquote q rfl))) (fun _ => rfl) fun _ => rfl]
      split <;> rfl
    simp only [lt_length_lead hbs, if_true, byteAt_lead hbs, pure_bind, Option.map_some, hclose,
      lead_eq_mark_iff (m := '\\') (by decide)]

/-- The search for the end of an attribute finds where the attribute is cut. -/
theorem skipAttribute_eq {quote : Option Char} (hquote : ∀ q ∈ quote, q.val.toNat < 128)
    (hbs : bs = bytes (pre ++ t)) :
    skipAttribute bs (quote.map mark) (byteLength pre) = pure (byteLength (pre ++ (splitAttribute quote t).1)) := by
  have hback : '\\'.utf8Size = 1 := rfl
  fun_induction splitAttribute quote t generalizing pre with
  | case1 quote =>
    rw [skipAttribute, if_neg (not_lt_length_end hbs), hbs]
    simp
  | case2 q =>
    -- the escaped character is missing: the offset is past the end
    have hlt : ¬ byteLength pre + 2 < bs.length := by simp [hbs, hback]
    rw [skipAttribute_lead hquote hbs]
    dsimp only
    rw [if_pos rfl, skipAttribute, if_neg hlt, hbs]
    simp
  | case3 q d t a rest hrec ih =>
    -- the offset may now lie inside the escaped character
    have hnext := next_char hbs
    have hpos : byteLength (pre ++ ['\\']) + 1 = byteLength pre + 2 := by simp [hback]
    rw [hrec] at ih
    rw [skipAttribute_lead hquote hbs]
    dsimp only
    rw [if_pos rfl, ← hpos]
    refine (skip_char (skipAttribute_skip hquote) hnext).trans ?_
    rw [ih hquote (next_char hnext)]
    simp
  | case4 c t q hc a rest hrec ih =>
    have hnext : ∀ r ∈ (if c = q then none else some q), r.val.toNat < 128 := by
      intro r hr
      split at hr
      · cases hr
      · exact hquote r hr
    rw [hrec] at ih
    rw [skipAttribute_lead hquote hbs]
    dsimp only
    rw [if_neg hc, skip_char (skipAttribute_skip hnext) hbs, ih hnext (next_char hbs)]
    simp
  | case5 t =>
    rw [skipAttribute_lead hquote hbs]
    dsimp only
    rw [if_pos rfl, byteLength_mark (c := ']') (by decide)]
  | case6 c t hc a rest hrec ih =>
    have hnext : ∀ q ∈ (if c = '"' || c = '\'' then some c else none), q.val.toNat < 128 := by
      intro q hq
      split at hq
      · next h =>
        cases hq
        exact lt_of_isQuote (by simpa [Stylesheet.isQuote] using h)
      · cases hq
    rw [hrec] at ih
    rw [skipAttribute_lead hquote hbs]
    dsimp only
    rw [if_neg hc, skip_char (skipAttribute_skip hnext) hbs, ih hnext (next_char hbs)]
    simp

theorem skipAttribute_bracket (hbs : bs = bytes (pre ++ '[' :: t)) :
    skipAttribute bs none (byteLength pre + 1) = pure (byteLength (pre ++ '[' :: (splitAttribute none t).1)) := by
  have hnone : ∀ q ∈ (none : Option Char), q.val.toNat < 128 := by simp
  have hskip := skipAttribute_eq hnone (next_char hbs)
  rwa [← byteLength_mark (by decide), List.append_assoc, List.singleton_append] at hskip

/-! ### Compounds in their places -/

/-- The compounds of the rest of a selector, as `compoundsFrom` gives them, in their places. The part of the
open compound that has been read begins at the offset `pos`. -/
def placedFrom (pos : Nat) (tie : Option Combinator) (depth : Nat) (current : Text) : Text → List Found
  | [] => if current.isEmpty then [] else [⟨.ofText pos current, ⟨tie, current⟩⟩]
  | c :: t =>
    if c = '[' then
      have := length_splitAttribute_le none t
      placedFrom pos tie depth (current ++ c :: (splitAttribute none t).1) (splitAttribute none t).2
    else
      let depth := depthAfter depth c
      if depth = 0 && isSeparator c then
        let next := pos + byteLength (current ++ [c])
        if current.isEmpty then placedFrom next (tie.map fun d => (Combinator.ofMark? c).getD d) depth [] t
        else
          ⟨.ofText pos current, ⟨tie, current⟩⟩ ::
            placedFrom next (some ((Combinator.ofMark? c).getD .descendant)) depth [] t
      else placedFrom pos tie depth (current ++ [c]) t
  termination_by t => t.length
  decreasing_by all_goals simp_wf; try omega

theorem map_compound_placedFrom (pos : Nat) (tie : Option Combinator) (depth : Nat) (current t : Text) :
    (placedFrom pos tie depth current t).map Found.compound = compoundsFrom tie depth current t := by
  fun_induction placedFrom pos tie depth current t with
  | case1 pos tie depth current hempty => rw [compoundsFrom, if_pos hempty, List.map_nil]
  | case2 pos tie depth current hempty => rw [compoundsFrom, if_neg hempty, List.map_singleton]
  | case3 pos tie depth current t hle ih => rw [compoundsFrom, if_pos rfl, ih]
  | case4 pos tie depth current c t hbracket depth' hsep next hempty ih =>
    rw [compoundsFrom, if_neg hbracket, if_pos hsep, if_pos hempty, ih]
  | case5 pos tie depth current c t hbracket depth' hsep next hempty ih =>
    rw [compoundsFrom, if_neg hbracket, if_pos hsep, if_neg hempty, List.map_cons, ih]
  | case6 pos tie depth current c t hbracket depth' hsep ih =>
    rw [compoundsFrom, if_neg hbracket, if_neg hsep, ih]

/-! ### The search -/

section

variable {source : Text} {p : Progress} {found : List Found} {tie : Option Combinator} {depth : Nat}

theorem Progress.begin_of_isSome {pos : Nat} (h : p.start.isSome = true) : p.begin pos = p := by
  obtain ⟨start, hstart⟩ := Option.isSome_iff_exists.1 h
  rw [begin, hstart, Option.some_or, ← hstart]

theorem Progress.isSome_begin (p : Progress) (pos : Nat) : (p.begin pos).start.isSome = true := by
  simp [begin]

/-- The open compound is the text between its start and here. -/
theorem Progress.close_eq {current post : Text} (hsource : source = pre ++ (current ++ post)) :
    (⟨found, tie, some (byteLength pre), depth⟩ : Progress).close source (byteLength (pre ++ current)) =
      pure ⟨found ++ [⟨.ofText (byteLength pre) current, ⟨tie, current⟩⟩], some .descendant, none, depth⟩ := by
  rw [close]
  dsimp only
  rw [spanOf_eq, pure_bind, cut_eq pre current post hsource, pure_bind]

theorem search_skip (hstart : p.start.isSome = true) (pos : Nat) (b : UInt8) (h : bs[pos]? = some b)
    (hb : 128 ≤ b.toNat) : search source bs p pos = search source bs p (pos + 1) := by
  conv => lhs; rw [search]
  simp [lt_length_of_getElem? h, byteAt_of_getElem? h, ne_mark (m := '[') (by decide) hb, depthAfterByte_of_le _ hb,
    isSeparatorByte_of_le hb, Progress.begin_of_isSome hstart]

theorem search_end (hbs : bs = bytes (pre ++ [])) :
    search source bs p (byteLength pre) = (p.close source (byteLength pre)).map Progress.found := by
  rw [search, if_neg (not_lt_length_end hbs), hbs, length_bytes, List.append_nil]
  cases p.close source (byteLength pre) <;> rfl

/-- The search jumps over an attribute. -/
theorem search_attribute (hbs : bs = bytes (pre ++ '[' :: t)) :
    search source bs p (byteLength pre) =
      search source bs (p.begin (byteLength pre)) (byteLength (pre ++ '[' :: (splitAttribute none t).1)) := by
  have hlt : byteLength pre < byteLength (pre ++ '[' :: (splitAttribute none t).1) :=
    byteLength_lt_append (by simp) pre
  conv => lhs; rw [search]
  rw [if_pos (lt_length_lead hbs), byteAt_lead hbs, pure_bind, if_pos (lead_eq_mark (by decide)),
    skipAttribute_bracket hbs, pure_bind, if_pos hlt]

/-- At a separator the open compound is closed. -/
theorem search_separator (hbs : bs = bytes (pre ++ c :: t)) (hbracket : c ≠ '[')
    (hsep : (depthAfter p.depth c = 0 && isSeparator c) = true) :
    search source bs p (byteLength pre) = p.close source (byteLength pre) >>= fun p' =>
      search source bs { p'.note (lead c) with depth := depthAfter p.depth c } (byteLength (pre ++ [c])) := by
  have hsep' := Bool.and_eq_true_iff.1 hsep
  conv => lhs; rw [search]
  rw [if_pos (lt_length_lead hbs), byteAt_lead hbs, pure_bind,
    if_neg (by rwa [lead_eq_mark_iff (by decide)]), depthAfterByte_lead, isSeparatorByte_lead, if_pos hsep,
    byteLength_mark (lt_of_isSeparator hsep'.2)]

/-- Any other character belongs to a compound. -/
theorem search_plain (hbs : bs = bytes (pre ++ c :: t)) (hbracket : c ≠ '[')
    (hsep : ¬(depthAfter p.depth c = 0 && isSeparator c) = true) :
    search source bs p (byteLength pre) =
      search source bs { p.begin (byteLength pre) with depth := depthAfter p.depth c } (byteLength (pre ++ [c])) := by
  conv => lhs; rw [search]
  rw [if_pos (lt_length_lead hbs), byteAt_lead hbs, pure_bind,
    if_neg (by rwa [lead_eq_mark_iff (by decide)]), depthAfterByte_lead, isSeparatorByte_lead, if_neg hsep]
  exact skip_char (search_skip (p := { p.begin (byteLength pre) with depth := depthAfter p.depth c })
    (p.isSome_begin (byteLength pre))) hbs

/-- A mark between two compounds is taken down, one in front of the first is not. -/
theorem Progress.note_lead {start : Option Nat} (htie : tie.isNone = found.isEmpty) (c : Char) :
    (⟨found, tie, start, depth⟩ : Progress).note (lead c) =
      ⟨found, tie.map fun d => (Combinator.ofMark? c).getD d, start, depth⟩ := by
  rw [note, ofByte?_lead]
  cases hmark : Combinator.ofMark? c with
  | none => simp
  | some k =>
    cases tie with
    | none => simp [← htie]
    | some d => simp [← htie]

/-- A compound is open from the offset at which what has been read of it begins. -/
theorem Progress.begin_eq {pos : Nat} {current : Text} (hpos : pos = byteLength pre) :
    (⟨found, tie, if current.isEmpty then none else some pos, depth⟩ : Progress).begin (byteLength (pre ++ current)) =
      ⟨found, tie, some pos, depth⟩ := by
  rw [begin]
  cases current with
  | nil => simp [hpos]
  | cons c current => simp

theorem search_eq (pos : Nat) (tie : Option Combinator) (depth : Nat) (current t : Text) :
    ∀ (pre : Text) (found : List Found), source = pre ++ (current ++ t) → pos = byteLength pre →
      tie.isNone = found.isEmpty →
      search source (bytes source) ⟨found, tie, if current.isEmpty then none else some pos, depth⟩
        (byteLength (pre ++ current)) = pure (found ++ placedFrom pos tie depth current t) := by
  have hbytes : ∀ pre current t : Text, source = pre ++ (current ++ t) → bytes source = bytes ((pre ++ current) ++ t) :=
    fun pre current t hsource => by rw [hsource, List.append_assoc]
  fun_induction placedFrom pos tie depth current t with
  | case1 pos tie depth current hempty =>
    intro pre found hsource hpos htie
    rw [search_end (hbytes _ _ _ hsource), if_pos hempty, List.append_nil]
    rfl
  | case2 pos tie depth current hempty =>
    intro pre found hsource hpos htie
    rw [search_end (hbytes _ _ _ hsource), if_neg hempty, hpos, Progress.close_eq hsource]
    rfl
  | case3 pos tie depth current t hle ih =>
    intro pre found hsource hpos htie
    have hrest : source = pre ++ ((current ++ '[' :: (splitAttribute none t).1) ++ (splitAttribute none t).2) := by
      rw [hsource, List.append_assoc, List.cons_append, splitAttribute_append]
    have hsearch := ih pre found hrest hpos htie
    rw [if_neg (by simp), ← List.append_assoc] at hsearch
    rw [search_attribute (hbytes _ _ _ hsource), Progress.begin_eq hpos, hsearch]
  | case4 pos tie depth current c t hbracket depth' hsep next hempty ih =>
    intro pre found hsource hpos htie
    obtain rfl : current = [] := List.isEmpty_iff.1 hempty
    have hsearch := ih (pre ++ [c]) found (by rw [hsource]; simp) (by simp [next, hpos]) (by simpa using htie)
    rw [List.append_nil] at hsearch
    rw [search_separator (hbytes _ _ _ hsource) hbracket hsep, List.append_nil, if_pos hempty, Progress.close]
    dsimp only
    rw [pure_bind, Progress.note_lead htie]
    exact hsearch
  | case5 pos tie depth current c t hbracket depth' hsep next hempty ih =>
    intro pre found hsource hpos htie
    have hsearch := ih (pre ++ current ++ [c]) (found ++ [⟨.ofText pos current, ⟨tie, current⟩⟩])
      (by rw [hsource]; simp) (by simp [next, hpos]) (by simp)
    rw [List.append_nil, List.append_assoc found, List.singleton_append] at hsearch
    rw [search_separator (hbytes _ _ _ hsource) hbracket hsep, if_neg hempty, hpos, Progress.close_eq hsource,
      pure_bind, Progress.note_lead (by simp), ← hpos]
    exact hsearch
  | case6 pos tie depth current c t hbracket depth' hsep ih =>
    intro pre found hsource hpos htie
    have hsearch := ih pre found (by rw [hsource]; simp) hpos htie
    rw [if_neg (by simp), ← List.append_assoc] at hsearch
    rw [search_plain (hbytes _ _ _ hsource) hbracket hsep, Progress.begin_eq hpos]
    exact hsearch

/-- The search never goes wrong, and finds every compound in its place. -/
theorem compounds_eq (s : Text) : compounds s = pure (placedFrom 0 none 0 [] s) :=
  search_eq 0 none 0 [] s [] [] rfl rfl rfl

end

end Cull.Selector.Offsets
