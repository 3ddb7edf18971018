import Cull.Proofs.BraceAutomaton
import Cull.Proofs.CompoundOffsets
import Cull.Proofs.CutText
import Mathlib.Data.List.Chain

/-!
# Compounds and separators make up a selector

The search for compounds jumps over attributes. The automaton of this module takes one byte of a
selector after the other instead, and keeps whether it is in an attribute and how many parentheses
are open. A blank or a mark separates compounds where the automaton is in no attribute and no
parenthesis is open. The bytes that do are exactly the ones that lie in no compound, and each
compound but the first is tied to the one before by the last mark between them
(`compounds_partition`).
-/

namespace Cull.Selector

open Text Stylesheet.Offsets Offsets

theorem depthAfter_of_isSeparator {c : Char} (hc : isSeparator c = true) (depth : Nat) :
    depthAfter depth c = depth := by
  have hopen : c ≠ '(' := by
    rintro rfl
    exact absurd hc (by decide)
  have hclose : c ≠ ')' := by
    rintro rfl
    exact absurd hc (by decide)
  rw [depthAfter, if_neg hopen, if_neg hclose]

/-! ### The automaton -/

namespace Automaton

/-- What the automaton is in the middle of. -/
inductive Mode where
  /-- Nothing. -/
  | plain
  /-- An attribute. -/
  | bracket
  /-- A string in an attribute, which the given byte closes. -/
  | string (quote : UInt8)
  /-- Such a string, behind a backslash. -/
  | escape (quote : UInt8)
  deriving DecidableEq

/-- A state of the automaton. -/
structure State where
  /-- What the automaton is in the middle of. -/
  mode : Mode
  /-- The number of open parentheses. -/
  depth : Nat
  deriving DecidableEq

/-- The state after a byte. -/
def step (s : State) (b : UInt8) : State :=
  match s.mode with
  | .plain => if b = mark '[' then ⟨.bracket, s.depth⟩ else ⟨.plain, depthAfterByte s.depth b⟩
  | .bracket =>
    if b = mark ']' then ⟨.plain, s.depth⟩
    else if isQuoteByte b then ⟨.string b, s.depth⟩
    else s
  | .string q =>
    if b = mark '\\' then ⟨.escape q, s.depth⟩
    else if b = q then ⟨.bracket, s.depth⟩
    else s
  | .escape q => ⟨.string q, s.depth⟩

/-- The state in which the automaton comes to an offset. -/
def stateAt (bs : List UInt8) (pos : Nat) : State := (bs.take pos).foldl step ⟨.plain, 0⟩

/-- The byte at the offset separates compounds: it is a blank or a mark, and the automaton comes to it in the middle
of nothing and with no parenthesis open. -/
def SeparatesAt (bs : List UInt8) (pos : Nat) : Prop :=
  stateAt bs pos = ⟨.plain, 0⟩ ∧ ∃ b ∈ bs[pos]?, isSeparatorByte b = true

/-- An attribute reaches from its bracket at `start` to `stop`: in between the automaton is in the
middle of something, and then it goes on as it was. -/
structure Encloses (bs : List UInt8) (start stop : Nat) : Prop where
  /-- The bracket belongs to it. -/
  lt : start < stop
  /-- It ends in the selector. -/
  le : stop ≤ bs.length
  /-- Everything behind the bracket is in the attribute. -/
  inside : ∀ pos, start < pos → pos < stop → (stateAt bs pos).mode ≠ .plain
  /-- Behind the attribute the automaton is in the middle of nothing. -/
  back : stop < bs.length → stateAt bs stop = stateAt bs start

variable {bs : List UInt8} {pos : Nat} {b : UInt8} {d : Nat} {pre t : Text} {c : Char}

theorem stateAt_succ (h : bs[pos]? = some b) : stateAt bs (pos + 1) = step (stateAt bs pos) b := by
  rw [stateAt, List.take_add_one, h, List.foldl_append]
  rfl

/-! ### Attributes -/

/-- What the automaton is in the middle of when a quotation mark is open in an attribute, or none is. -/
def Mode.within : Option UInt8 → Mode
  | none => .bracket
  | some q => .string q

theorem Mode.within_ne_plain (quote : Option UInt8) : within quote ≠ .plain := by
  cases quote <;> exact Mode.noConfusion

/-- The rest of an attribute, of which a byte or more has been read, reaches from `pos` to `stop`. An escaped byte
may be missing, so that `pos` is past the end. -/
structure Closes (bs : List UInt8) (d pos stop : Nat) : Prop where
  /-- The rest may be empty. -/
  ge : pos ≤ bs.length → pos ≤ stop
  /-- It ends in the selector. -/
  le : stop ≤ bs.length
  /-- All of it is in the attribute. -/
  inside : ∀ p, pos ≤ p → p < stop → (stateAt bs p).mode ≠ .plain
  /-- Behind it the automaton is in the middle of nothing. -/
  back : stop < bs.length → stateAt bs stop = ⟨.plain, d⟩

theorem closes_end (h : bs.length ≤ pos) : Closes bs d pos bs.length where
  ge := id
  le := Nat.le_refl _
  inside _ hp hstop := absurd (Nat.lt_of_lt_of_le hstop h) (Nat.not_lt_of_le hp)
  back h := absurd h (Nat.lt_irrefl _)

/-- One more byte in front. -/
theorem Closes.before {stop : Nat} (h : Closes bs d (pos + 1) stop) (hpos : pos < bs.length)
    (hmode : (stateAt bs pos).mode ≠ .plain) : Closes bs d pos stop where
  ge _ := Nat.le_of_succ_le (h.ge hpos)
  le := h.le
  inside p hp hstop := by
    rcases Nat.eq_or_lt_of_le hp with rfl | hlt
    · exact hmode
    · exact h.inside p hlt hstop
  back := h.back

theorem closes_bracket (hstate : stateAt bs pos = ⟨.bracket, d⟩) (hb : bs[pos]? = some (mark ']')) :
    Closes bs d pos (pos + 1) where
  ge _ := Nat.le_succ pos
  le := lt_length_of_getElem? hb
  inside p hp hstop := by
    obtain rfl : p = pos := by omega
    rw [hstate]
    exact Mode.noConfusion
  back _ := by
    rw [stateAt_succ hb, hstate]
    rfl

/-- The jump over an attribute ends where the automaton comes out of it. -/
theorem skipAttribute_closes (bs : List UInt8) (pos : Nat) : ∀ (quote : Option UInt8) (d : Nat),
    stateAt bs pos = ⟨.within quote, d⟩ → ∃ stop, skipAttribute bs quote pos = pure stop ∧ Closes bs d pos stop := by
  induction pos using Stylesheet.Automaton.offset_induction bs with | step pos ih => ?_
  intro quote d hstate
  have hmode : (stateAt bs pos).mode ≠ .plain := by
    rw [hstate]
    exact Mode.within_ne_plain quote
  by_cases hpos : pos < bs.length
  · obtain ⟨b, hb⟩ : ∃ b, bs[pos]? = some b := ⟨_, List.getElem?_eq_getElem hpos⟩
    have hsucc := stateAt_succ hb
    rw [hstate] at hsucc
    rw [skipAttribute, if_pos hpos, byteAt_of_getElem? hb, pure_bind]
    cases quote with
    | none =>
      by_cases hclose : b = mark ']'
      · subst hclose
        exact ⟨pos + 1, if_pos rfl, closes_bracket hstate hb⟩
      · have hnext : stateAt bs (pos + 1) = ⟨.within (if isQuoteByte b then some b else none), d⟩ := by
          rw [hsucc]
          simp only [step, Mode.within, if_neg hclose]
          split <;> rfl
        obtain ⟨stop, hstop, hcloses⟩ := ih (pos + 1) (Nat.lt_succ_self pos) hpos _ d hnext
        exact ⟨stop, by rw [← hstop]; exact if_neg hclose, hcloses.before hpos hmode⟩
    | some q =>
      by_cases hback : b = mark '\\'
      · subst hback
        have hescape : stateAt bs (pos + 1) = ⟨.escape q, d⟩ := hsucc
        by_cases hnext : pos + 1 < bs.length
        · -- the escaped byte is taken whatever it is
          have hstring : stateAt bs (pos + 2) = ⟨.within (some q), d⟩ := by
            rw [stateAt_succ (List.getElem?_eq_getElem hnext), hescape]
            rfl
          have hmode' : (stateAt bs (pos + 1)).mode ≠ .plain := by
            rw [hescape]
            exact Mode.noConfusion
          obtain ⟨stop, hstop, hcloses⟩ := ih (pos + 2) (by omega) hpos _ d hstring
          exact ⟨stop, by rw [← hstop]; exact if_pos rfl, (hcloses.before hnext hmode').before hpos hmode⟩
        · have hend : skipAttribute bs (some q) (pos + 2) = pure bs.length := by
            rw [skipAttribute, if_neg (by omega)]
          exact ⟨bs.length, by rw [← hend]; exact if_pos rfl, (closes_end (by omega)).before hpos hmode⟩
      · have hnext : stateAt bs (pos + 1) = ⟨.within (if b = q then none else some q), d⟩ := by
          rw [hsucc]
          simp only [step, Mode.within, if_neg hback]
          split <;> rfl
        obtain ⟨stop, hstop, hcloses⟩ := ih (pos + 1) (Nat.lt_succ_self pos) hpos _ d hnext
        exact ⟨stop, by rw [← hstop]; exact if_neg hback, hcloses.before hpos hmode⟩
  · refine ⟨bs.length, ?_, closes_end (Nat.le_of_not_lt hpos)⟩
    rw [skipAttribute, if_neg hpos]

/-- The attribute that begins with a bracket ends where the jump leads. -/
theorem skipAttribute_encloses (hmode : (stateAt bs pos).mode = .plain) (hb : bs[pos]? = some (mark '[')) :
    ∃ stop, skipAttribute bs none (pos + 1) = pure stop ∧ Encloses bs pos stop := by
  have hpos := lt_length_of_getElem? hb
  have hstate : stateAt bs (pos + 1) = ⟨.within none, (stateAt bs pos).depth⟩ := by
    rw [stateAt_succ hb, step, hmode]
    rfl
  obtain ⟨stop, hstop, hcloses⟩ := skipAttribute_closes bs (pos + 1) none _ hstate
  refine ⟨stop, hstop, hcloses.ge hpos, hcloses.le, hcloses.inside, fun hlt => ?_⟩
  rw [hcloses.back hlt, ← hmode]

/-! ### Characters -/

/-- The automaton has read the text in front. -/
theorem stateAt_byteLength (hbs : bs = bytes (pre ++ t)) :
    stateAt bs (byteLength pre) = (bytes pre).foldl step ⟨.plain, 0⟩ := by
  rw [stateAt, hbs, bytes_append, List.take_append_of_le_length (by simp), List.take_of_length_le (by simp)]

/-- Bytes above the marks leave the automaton outside attributes as it is. -/
theorem foldl_step_plain {l : List UInt8} (h : ∀ b ∈ l, 128 ≤ b.toNat) :
    l.foldl step ⟨.plain, d⟩ = ⟨.plain, d⟩ := by
  induction l with
  | nil => rfl
  | cons b l ih =>
    obtain ⟨hb, hl⟩ := List.forall_mem_cons.1 h
    have hstep : step ⟨.plain, d⟩ b = ⟨.plain, d⟩ := by
      simp only [step, if_neg (ne_mark (m := '[') (by decide) hb), depthAfterByte_of_le d hb]
    rw [List.foldl_cons, hstep, ih hl]

/-- A character outside attributes, other than a bracket, at most opens or closes a parenthesis. -/
theorem stateAt_char (hbs : bs = bytes (pre ++ c :: t)) (hstate : stateAt bs (byteLength pre) = ⟨.plain, d⟩)
    (hc : c ≠ '[') : stateAt bs (byteLength (pre ++ [c])) = ⟨.plain, depthAfter d c⟩ := by
  rw [stateAt_byteLength hbs] at hstate
  rw [stateAt_byteLength (next_char hbs), bytes_append, List.foldl_append, hstate, bytes_cons, bytes_nil,
    List.append_nil, ← depthAfterByte_lead]
  rcases utf8EncodeChar_cases c with ⟨hone, hlt⟩ | ⟨hall, -⟩
  · have hne : lead c ≠ mark '[' := by rwa [ne_eq, lead_eq_mark_iff (by decide)]
    rw [hone, ← lead_eq_mark hlt, List.foldl_cons, List.foldl_nil]
    exact if_neg hne
  · rw [foldl_step_plain hall, depthAfterByte_of_le d (hall _ (lead_mem c))]

/-- What separates compounds is a whole character. -/
theorem separatesAt_lead_iff (hbs : bs = bytes (pre ++ c :: t)) :
    SeparatesAt bs (byteLength pre) ↔ stateAt bs (byteLength pre) = ⟨.plain, 0⟩ ∧ isSeparator c = true := by
  simp [SeparatesAt, getElem?_lead hbs, isSeparatorByte_lead]

/-- No byte from `start` up to, but not including, `stop` separates compounds. -/
def Solid (bs : List UInt8) (start stop : Nat) : Prop := ∀ i, start ≤ i → i < stop → ¬SeparatesAt bs i

theorem solid_self : Solid bs pos pos := fun _ hle hlt => absurd hlt (Nat.not_lt_of_le hle)

theorem Solid.append {start stop : Nat} (h : Solid bs start pos) (h' : Solid bs pos stop) : Solid bs start stop := by
  intro i hstart hstop
  rcases Nat.lt_or_ge i pos with hlt | hge
  · exact h i hstart hlt
  · exact h' i hge hstop

theorem solid_char (hbs : bs = bytes (pre ++ c :: t)) (h : ¬SeparatesAt bs (byteLength pre)) :
    Solid bs (byteLength pre) (byteLength (pre ++ [c])) := by
  intro i hstart hstop
  obtain ⟨j, rfl⟩ := Nat.exists_eq_add_of_le hstart
  rcases Nat.eq_zero_or_pos j with rfl | hj
  · exact h
  · -- the byte lies inside the character
    have hlt : j < c.utf8Size := by
      rw [byteLength_append, byteLength_cons, byteLength_nil] at hstop
      omega
    obtain ⟨b, hb, hge⟩ := getElem?_bytes_inside pre c t hj hlt
    rintro ⟨-, b', hb', hsep⟩
    rw [hbs, hb, Option.mem_some_iff] at hb'
    rw [← hb', isSeparatorByte_of_le hge] at hsep
    cases hsep

theorem Encloses.solid {start stop : Nat} (h : Encloses bs start stop) (hstart : bs[start]? = some (mark '[')) :
    Solid bs start stop := by
  intro i hle hlt
  rcases Nat.eq_or_lt_of_le hle with rfl | hinside
  · rintro ⟨-, b, hb, hsep⟩
    rw [hstart, Option.mem_some_iff] at hb
    rw [← hb] at hsep
    exact absurd hsep (by decide)
  · rintro ⟨hstate, -⟩
    refine h.inside i hinside hlt ?_
    rw [hstate]

/-- An attribute holds no separator, and behind it the automaton is as it was before. -/
theorem stateAt_attribute (hbs : bs = bytes (pre ++ '[' :: t)) (hstate : stateAt bs (byteLength pre) = ⟨.plain, d⟩) :
    Solid bs (byteLength pre) (byteLength (pre ++ '[' :: (splitAttribute none t).1)) ∧
      ((splitAttribute none t).2 = [] ∨
        stateAt bs (byteLength (pre ++ '[' :: (splitAttribute none t).1)) = ⟨.plain, d⟩) := by
  have hbracket : bs[byteLength pre]? = some (mark '[') := by
    rw [getElem?_lead hbs, lead_eq_mark (by decide)]
  obtain ⟨stop, hstop, hencloses⟩ := skipAttribute_encloses (by rw [hstate]) hbracket
  rw [skipAttribute_bracket hbs] at hstop
  obtain rfl := Except.ok.inj hstop
  refine ⟨hencloses.solid hbracket, ?_⟩
  by_cases hrest : (splitAttribute none t).2 = []
  · exact .inl hrest
  · refine .inr ?_
    have hlength := byteLength_lt_append hrest (pre ++ '[' :: (splitAttribute none t).1)
    rw [List.append_assoc, List.cons_append, splitAttribute_append] at hlength
    rw [hencloses.back (by rwa [hbs, length_bytes]), hstate]

/-- Outside attributes the search closes a compound exactly at what separates compounds. -/
theorem separatesAt_iff (hbs : bs = bytes (pre ++ c :: t)) (hstate : stateAt bs (byteLength pre) = ⟨.plain, d⟩) :
    SeparatesAt bs (byteLength pre) ↔ (depthAfter d c = 0 && isSeparator c) = true := by
  rw [separatesAt_lead_iff hbs, hstate, Bool.and_eq_true, decide_eq_true_eq]
  refine and_congr_left fun hc => ?_
  rw [depthAfter_of_isSeparator hc]
  simp

end Automaton

open Automaton

/-! ### The layout of a selector -/

namespace Combinator

/-- The combinator of the last mark in a text, or another one if there is no mark in it. -/
def lastMark (otherwise : Combinator) (gap : Text) : Combinator := (gap.filterMap ofMark?).getLast?.getD otherwise

@[simp]
theorem lastMark_nil (d : Combinator) : lastMark d [] = d := rfl

theorem lastMark_cons (d : Combinator) (c : Char) (gap : Text) :
    lastMark d (c :: gap) = lastMark ((ofMark? c).getD d) gap := by
  rw [lastMark, List.filterMap_cons]
  cases ofMark? c with
  | none => rfl
  | some k => rw [List.getLast?_cons]; rfl

end Combinator

/-- The rest of a selector, behind `pre`, goes on with separators and the compounds that have been found, and `tie`
is the combinator of the next one as far as it is known. -/
inductive Layout (source : Text) : Text → Option Combinator → List Found → Text → Prop where
  /-- Nothing follows. -/
  | done {pre : Text} {tie : Option Combinator} : Layout source pre tie [] []
  /-- A separator follows. -/
  | separator {pre rest : Text} {tie : Option Combinator} {c : Char} {found : List Found} (hc : isSeparator c = true)
    (hat : SeparatesAt (bytes source) (byteLength pre))
    (h : Layout source (pre ++ [c]) (tie.map fun d => (Combinator.ofMark? c).getD d) found rest) :
    Layout source pre tie found (c :: rest)
  /-- A compound follows, and then nothing. -/
  | last {pre w : Text} {tie : Option Combinator} (hne : w ≠ [])
    (hw : Solid (bytes source) (byteLength pre) (byteLength (pre ++ w))) :
    Layout source pre tie [⟨.ofText (byteLength pre) w, ⟨tie, w⟩⟩] w
  /-- A compound follows, and then a separator. -/
  | compound {pre w rest : Text} {tie : Option Combinator} {c : Char} {found : List Found} (hne : w ≠ [])
    (hw : Solid (bytes source) (byteLength pre) (byteLength (pre ++ w))) (hc : isSeparator c = true)
    (hat : SeparatesAt (bytes source) (byteLength (pre ++ w)))
    (h : Layout source (pre ++ w ++ [c]) (some ((Combinator.ofMark? c).getD .descendant)) found rest) :
    Layout source pre tie (⟨.ofText (byteLength pre) w, ⟨tie, w⟩⟩ :: found) (w ++ c :: rest)

section

variable {source : Text}

/-- The compounds that are found are laid out so. -/
theorem layout_placedFrom (pos : Nat) (tie : Option Combinator) (depth : Nat) (current t : Text) : ∀ pre : Text,
    source = pre ++ (current ++ t) → pos = byteLength pre →
    t = [] ∨ stateAt (bytes source) (byteLength (pre ++ current)) = ⟨.plain, depth⟩ →
    Solid (bytes source) (byteLength pre) (byteLength (pre ++ current)) →
    Layout source pre tie (placedFrom pos tie depth current t) (current ++ t) := by
  have hbytes : ∀ pre current t : Text, source = pre ++ (current ++ t) → bytes source = bytes ((pre ++ current) ++ t) :=
    fun pre current t hsource => by rw [hsource, List.append_assoc]
  fun_induction placedFrom pos tie depth current t with
  | case1 pos tie depth current hempty =>
    intro pre hsource hpos hstate hsolid
    obtain rfl : current = [] := List.isEmpty_iff.1 hempty
    exact .done
  | case2 pos tie depth current hempty =>
    intro pre hsource hpos hstate hsolid
    rw [hpos, List.append_nil]
    exact .last (mt List.isEmpty_iff.2 hempty) hsolid
  | case3 pos tie depth current t hle ih =>
    intro pre hsource hpos hstate hsolid
    have hrest : (current ++ '[' :: (splitAttribute none t).1) ++ (splitAttribute none t).2 = current ++ '[' :: t := by
      rw [List.append_assoc, List.cons_append, splitAttribute_append]
    obtain ⟨hattribute, hbehind⟩ := stateAt_attribute (hbytes _ _ _ hsource) (hstate.resolve_left (by simp))
    rw [List.append_assoc] at hattribute hbehind
    rw [← hrest] at hsource ⊢
    exact ih pre hsource hpos hbehind (hsolid.append hattribute)
  | case4 pos tie depth current c t hbracket depth' hsep next hempty ih =>
    intro pre hsource hpos hstate hsolid
    obtain rfl : current = [] := List.isEmpty_iff.1 hempty
    have hbs := hbytes _ _ _ hsource
    have hplain := hstate.resolve_left (by simp)
    have hat := (separatesAt_iff hbs hplain).2 hsep
    have hafter := stateAt_char hbs hplain hbracket
    rw [List.append_nil] at hat hafter
    refine .separator (Bool.and_eq_true_iff.1 hsep).2 hat (ih (pre ++ [c]) ?_ ?_ (.inr ?_) ?_)
    · rw [hsource]
      simp
    · simp [next, hpos]
    · rwa [List.append_nil]
    · rw [List.append_nil]
      exact solid_self
  | case5 pos tie depth current c t hbracket depth' hsep next hempty ih =>
    intro pre hsource hpos hstate hsolid
    have hbs := hbytes _ _ _ hsource
    have hplain := hstate.resolve_left (by simp)
    have hat := (separatesAt_iff hbs hplain).2 hsep
    have hafter := stateAt_char hbs hplain hbracket
    rw [hpos]
    refine .compound (mt List.isEmpty_iff.2 hempty) hsolid (Bool.and_eq_true_iff.1 hsep).2 hat
      (ih (pre ++ current ++ [c]) ?_ ?_ (.inr ?_) ?_)
    · rw [hsource]
      simp
    · simp [next, hpos]
    · rwa [List.append_nil]
    · rw [List.append_nil]
      exact solid_self
  | case6 pos tie depth current c t hbracket depth' hsep ih =>
    intro pre hsource hpos hstate hsolid
    have hbs := hbytes _ _ _ hsource
    have hplain := hstate.resolve_left (by simp)
    have hchar := solid_char hbs (mt (separatesAt_iff hbs hplain).1 hsep)
    have hafter := stateAt_char hbs hplain hbracket
    have hrest : (current ++ [c]) ++ t = current ++ c :: t := by simp
    rw [List.append_assoc] at hchar hafter
    rw [← hrest] at hsource ⊢
    exact ih pre hsource hpos (.inr hafter) (hsolid.append hchar)

/-- Everything that is found stands behind what has been read. -/
theorem Layout.le_start {pre rest : Text} {tie : Option Combinator} {found : List Found}
    (h : Layout source pre tie found rest) : ∀ f ∈ found, byteLength pre ≤ f.span.start := by
  induction h with
  | done => simp
  | separator _ _ _ ih =>
    intro f hf
    have hle := ih f hf
    rw [byteLength_append] at hle
    omega
  | last => simp
  | compound _ _ _ _ _ ih =>
    refine List.forall_mem_cons.2 ⟨Nat.le_refl _, fun f hf => ?_⟩
    have hle := ih f hf
    rw [byteLength_append, byteLength_append] at hle
    omega

theorem Layout.slice {pre rest : Text} {tie : Option Combinator} {found : List Found}
    (h : Layout source pre tie found rest) (hsource : source = pre ++ rest) :
    ∀ f ∈ found, f.compound.text ≠ [] ∧ f.span.slice? source = some f.compound.text := by
  induction h with
  | done => simp
  | separator _ _ _ ih => exact ih (by rw [hsource]; simp)
  | @last pre w tie hne _ =>
    refine List.forall_mem_singleton.2 ⟨hne, ?_⟩
    rw [hsource]
    simpa using Span.slice?_ofText pre w []
  | @compound pre w rest tie c found hne _ _ _ _ ih =>
    refine List.forall_mem_cons.2 ⟨⟨hne, ?_⟩, ih (by rw [hsource]; simp)⟩
    rw [hsource]
    exact Span.slice?_ofText pre w (c :: rest)

theorem Layout.ordered {pre rest : Text} {tie : Option Combinator} {found : List Found}
    (h : Layout source pre tie found rest) : found.Pairwise fun f g => f.span.stop < g.span.start := by
  induction h with
  | done => exact .nil
  | separator _ _ _ ih => exact ih
  | last => exact List.pairwise_singleton _ _
  | @compound pre w rest tie c found _ _ hc _ h ih =>
    refine List.pairwise_cons.2 ⟨fun f hf => ?_, ih⟩
    have hle := h.le_start f hf
    rw [← byteLength_mark (lt_of_isSeparator hc), byteLength_append] at hle
    exact hle

/-- A byte lies in a compound exactly if it does not separate compounds. -/
theorem Layout.hits_iff {pre rest : Text} {tie : Option Combinator} {found : List Found}
    (h : Layout source pre tie found rest) (hsource : source = pre ++ rest) :
    ∀ i, byteLength pre ≤ i → i < byteLength source →
      (Span.hits (found.map Found.span) i = true ↔ ¬SeparatesAt (bytes source) i) := by
  induction h with
  | done =>
    intro i hi hlt
    rw [hsource, List.append_nil] at hlt
    omega
  | @separator pre rest tie c found hc hat h ih =>
    intro i hi hlt
    have hone := byteLength_mark (lt_of_isSeparator hc) pre
    rcases Nat.eq_or_lt_of_le hi with rfl | hbehind
    · refine iff_of_false ?_ (not_not_intro hat)
      rw [Bool.not_eq_true, Span.hits_eq_false_iff, List.forall_mem_map]
      intro f hf
      have hle := h.le_start f hf
      omega
    · exact ih (by rw [hsource]; simp) i (by omega) hlt
  | @last pre w tie hne hw =>
    intro i hi hlt
    rw [hsource] at hlt
    refine iff_of_true ?_ (hw i hi hlt)
    rw [byteLength_append] at hlt
    simpa [Span.hits_iff] using ⟨hi, hlt⟩
  | @compound pre w rest tie c found hne hw hc hat h ih =>
    intro i hi hlt
    have hone := byteLength_mark (lt_of_isSeparator hc) (pre ++ w)
    have hlater : i < byteLength (pre ++ w ++ [c]) → Span.hits (found.map Found.span) i = false := by
      intro hbefore
      rw [Span.hits_eq_false_iff, List.forall_mem_map]
      intro f hf
      have hle := h.le_start f hf
      omega
    rw [List.map_cons, Span.hits_cons, Span.ofText_start, Span.ofText_stop, ← byteLength_append, Bool.or_eq_true,
      Bool.and_eq_true, decide_eq_true_eq, decide_eq_true_eq]
    rcases Nat.lt_trichotomy i (byteLength (pre ++ w)) with hin | rfl | hbehind
    · exact iff_of_true (.inl ⟨hi, hin⟩) (hw i hi hin)
    · refine iff_of_false ?_ (not_not_intro hat)
      rintro (⟨-, hin⟩ | hhit)
      · exact Nat.lt_irrefl _ hin
      · rw [hlater (by omega)] at hhit
        cases hhit
    · rw [or_iff_right (by omega)]
      exact ih (by rw [hsource]; simp) i (by omega) hlt

/-- What stands in front of the next compound tells its combinator. -/
theorem Layout.head {pre rest : Text} {tie : Option Combinator} {found : List Found}
    (h : Layout source pre tie found rest) : ∀ f ∈ found.head?, ∃ gap behind, rest = gap ++ behind ∧
      f.span.start = byteLength (pre ++ gap) ∧ f.compound.combinator = tie.map (Combinator.lastMark · gap) := by
  induction h with
  | done => simp
  | @separator pre rest tie c found _ _ _ ih =>
    intro f hf
    obtain ⟨gap, behind, rfl, hstart, htie⟩ := ih f hf
    refine ⟨c :: gap, behind, rfl, ?_, ?_⟩
    · rw [hstart, List.append_assoc, List.singleton_append]
    · rw [htie, Option.map_map]
      simp only [Function.comp_def, Combinator.lastMark_cons]
  | @last pre w tie _ _ =>
    rintro f ⟨⟩
    exact ⟨[], w, rfl, by simp, by simp⟩
  | @compound pre w rest tie c found _ _ _ _ _ _ =>
    rintro f ⟨⟩
    exact ⟨[], w ++ c :: rest, rfl, by simp, by simp⟩

/-- The last mark between two compounds is the combinator of the second. -/
theorem Layout.tied {pre rest : Text} {tie : Option Combinator} {found : List Found}
    (h : Layout source pre tie found rest) (hsource : source = pre ++ rest) :
    found.IsChain fun f g => ∃ gap, source.slice? f.span.stop g.span.start = some gap ∧
      g.compound.combinator = some (Combinator.lastMark .descendant gap) := by
  induction h with
  | done => exact .nil
  | separator _ _ _ ih => exact ih (by rw [hsource]; simp)
  | last => exact .singleton _
  | @compound pre w rest tie c found _ _ _ _ h ih =>
    refine List.isChain_cons.2 ⟨fun g hg => ?_, ih (by rw [hsource]; simp)⟩
    obtain ⟨gap, behind, rfl, hstart, htie⟩ := h.head g hg
    refine ⟨c :: gap, ?_, ?_⟩
    · have hslice := slice?_append (pre ++ w) (c :: gap) behind
      rw [← byteLength_append, List.append_assoc] at hslice
      rw [hsource, hstart, Span.ofText_stop, ← byteLength_append]
      simpa using hslice
    · rw [htie, Combinator.lastMark_cons]
      rfl

end

/-! ### The partition -/

/-- The compounds that were found make up the selector, together with the separators between them. -/
structure Partition (s : Text) (found : List Found) : Prop where
  /-- Each is a piece of the selector and not empty. -/
  slice : ∀ f ∈ found, f.compound.text ≠ [] ∧ f.span.slice? s = some f.compound.text
  /-- They stand in order, with a gap between one and the next. -/
  ordered : found.Pairwise fun f g => f.span.stop < g.span.start
  /-- They cover the bytes that do not separate compounds. -/
  hits_iff : ∀ i < byteLength s, Span.hits (found.map Found.span) i = true ↔ ¬SeparatesAt (bytes s) i
  /-- The first is tied to nothing. -/
  first : ∀ f ∈ found.head?, f.compound.combinator = none
  /-- Every other one is tied by the last mark in the gap in front of it, or by a blank if there is no mark. -/
  tied : found.IsChain fun f g => ∃ gap, s.slice? f.span.stop g.span.start = some gap ∧
    g.compound.combinator = some (Combinator.lastMark .descendant gap)

theorem Layout.partition {s : Text} {found : List Found} (h : Layout s [] none found s) : Partition s found where
  slice := h.slice rfl
  ordered := h.ordered
  hits_iff i hi := h.hits_iff rfl i (Nat.zero_le i) hi
  first f hf := by
    obtain ⟨gap, behind, -, -, htie⟩ := h.head f hf
    exact htie
  tied := h.tied rfl

/-- The search for compounds never goes wrong. The compounds that it finds are those of the selector, and
together with the bytes that separate compounds they make up the selector. Whether a byte stands in
an attribute is told by the jump over attributes. -/
theorem compounds_partition (s : Text) :
    (∃ found, Offsets.compounds s = pure found ∧ found.map Found.compound = compounds s ∧ Partition s found) ∧
      ∀ pos, (stateAt (bytes s) pos).mode = .plain → (bytes s)[pos]? = some (mark '[') →
        ∃ stop, skipAttribute (bytes s) none (pos + 1) = pure stop ∧ Encloses (bytes s) pos stop := by
  refine ⟨⟨_, compounds_eq s, map_compound_placedFrom 0 none 0 [] s, ?_⟩, fun pos => skipAttribute_encloses⟩
  exact Layout.partition (layout_placedFrom 0 none 0 [] s [] rfl rfl (.inr rfl) solid_self)

/-- A selector with a mark in front, a bracket and an escaped quotation mark in a string, two marks in a row, a
character of two bytes and an attribute that is not closed. -/
def knotted : Text := "> a[b=\"]\\\"é\"]:is(c > d) + ~\t.é [x y".toList

theorem compounds_partition_knotted :
    (stateAt (bytes knotted) 3).mode = .plain ∧ (bytes knotted)[3]? = some (mark '[') ∧
      (∃ stop, skipAttribute (bytes knotted) none 4 = pure stop ∧ Encloses (bytes knotted) 3 stop) ∧
      ∃ found, found.map Found.compound =
          [⟨none, "a[b=\"]\\\"é\"]:is(c > d)".toList⟩, ⟨some .sibling, ".é".toList⟩,
            ⟨some .descendant, "[x y".toList⟩] ∧
        Partition knotted found := by
  have hmode : (stateAt (bytes knotted) 3).mode = .plain := by decide +kernel
  have hbracket : (bytes knotted)[3]? = some (mark '[') := by decide +kernel
  obtain ⟨⟨found, -, hfound, hpartition⟩, hattribute⟩ := compounds_partition knotted
  refine ⟨hmode, hbracket, hattribute 3 hmode hbracket, found, ?_, hpartition⟩
  rw [hfound]
  decide +kernel

end Cull.Selector
