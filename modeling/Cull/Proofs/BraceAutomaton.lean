import Cull.Proofs.OffsetsAgree

/-!
# Matching braces one byte at a time

The search for the brace that closes a block jumps: over a string, in which it takes two bytes
at a backslash, and over a comment, whose end it looks for as a pair of bytes. The automaton of
this module does without jumps. It takes one byte after the other and keeps the depth and what
it is in the middle of. Its depth is an integer and might fall below zero, but does not: the
search finds the first offset at which the automaton returns from depth one to depth zero, and
nothing if there is none (`closing_brace_is_first_return`).
-/

namespace Cull.Stylesheet.Automaton

open Text Offsets

/-- What the automaton is in the middle of. -/
inductive Mode where
  /-- Nothing. -/
  | normal
  /-- Nothing, but the last byte was a slash, which opens a comment if a star follows. -/
  | slash
  /-- A string that the given byte closes. -/
  | string (quote : UInt8)
  /-- Such a string, behind a backslash. -/
  | escape (quote : UInt8)
  /-- A comment. -/
  | comment
  /-- A comment, in which the last byte was a star, so that a slash closes it. -/
  | star
  deriving DecidableEq

/-- A state of the automaton. -/
structure State where
  /-- What the automaton is in the middle of. -/
  mode : Mode
  /-- The number of braces that have been opened, less those that have been closed. -/
  depth : Int
  deriving DecidableEq

/-- The state after a byte outside strings and comments. -/
def plainStep (depth : Int) (b : UInt8) : State :=
  if b = mark '\x7b' then ⟨.normal, depth + 1⟩
  else if b = mark '}' then ⟨.normal, depth - 1⟩
  else if b = mark '"' ∨ b = mark '\'' then ⟨.string b, depth⟩
  else if b = mark '/' then ⟨.slash, depth⟩
  else ⟨.normal, depth⟩

/-- The state after a byte. The star that opens a comment is not one that may close it. -/
def step (s : State) (b : UInt8) : State :=
  match s.mode with
  | .normal => plainStep s.depth b
  | .slash => if b = mark '*' then ⟨.comment, s.depth⟩ else plainStep s.depth b
  | .string q =>
    if b = mark '\\' then ⟨.escape q, s.depth⟩
    else if b = q then ⟨.normal, s.depth⟩
    else s
  | .escape q => ⟨.string q, s.depth⟩
  | .comment => if b = mark '*' then ⟨.star, s.depth⟩ else s
  | .star =>
    if b = mark '/' then ⟨.normal, s.depth⟩
    else if b = mark '*' then s
    else ⟨.comment, s.depth⟩

/-- The state in which the automaton comes to the offset `pos` when it is set going at `start`. -/
def stateAt (bs : List UInt8) (start pos : Nat) : State := ((bs.take pos).drop start).foldl step ⟨.normal, 0⟩

/-- With the byte at `pos` the automaton returns from depth one to depth zero. -/
def ReturnsAt (bs : List UInt8) (start pos : Nat) : Prop :=
  (stateAt bs start pos).depth = 1 ∧ (stateAt bs start (pos + 1)).depth = 0

variable {bs : List UInt8} {start pos : Nat} {d : Int} {b q : UInt8}

theorem stateAt_of_le (h : pos ≤ start) : stateAt bs start pos = ⟨.normal, 0⟩ := by
  rw [stateAt, List.drop_eq_nil_of_le (by simp; omega), List.foldl_nil]

theorem stateAt_succ (hstart : start ≤ pos) (h : bs[pos]? = some b) :
    stateAt bs start (pos + 1) = step (stateAt bs start pos) b := by
  have hpos := lt_length_of_getElem? h
  rw [stateAt, List.take_add_one, h, List.drop_append_of_le_length (by simp; omega), List.foldl_append]
  rfl

/-- Behind the last byte the state stays as it is. -/
theorem stateAt_end (h : bs.length ≤ pos) : stateAt bs start pos = stateAt bs start bs.length := by
  rw [stateAt, List.take_of_length_le h, stateAt, List.take_length]

/-- Induction along offsets that grow until they have passed the last byte. -/
theorem offset_induction (bs : List UInt8) {motive : Nat → Prop}
    (step : ∀ pos, (∀ next, pos < next → pos < bs.length → motive next) → motive pos) (pos : Nat) : motive pos := by
  induction hleft : bs.length - pos using Nat.strongRecOn generalizing pos with
  | ind left ih =>
    subst hleft
    exact step pos fun next hnext hpos => ih (bs.length - next) (by omega) next rfl

/-! ### Strings and comments -/

/-- The depth of the automaton is as `P` says from `pos` up to, but not including, `stop`. -/
def Along (P : Int → Prop) (bs : List UInt8) (start pos stop : Nat) : Prop :=
  ∀ p, pos ≤ p → p < stop → P (stateAt bs start p).depth

theorem Along.append {P : Int → Prop} {next stop : Nat} (h : Along P bs start pos next)
    (h' : Along P bs start next stop) : Along P bs start pos stop := by
  intro p hp hstop
  rcases Nat.lt_or_ge p next with hlt | hge
  · exact h p hp hlt
  · exact h' p hge hstop

theorem along_one {P : Int → Prop} (h : P (stateAt bs start pos).depth) : Along P bs start pos (pos + 1) := by
  intro p hp hstop
  rwa [show p = pos by omega]

/-- The automaton comes to `pos` outside strings and comments, and no comment opens with the byte
before. -/
def Between (bs : List UInt8) (start : Nat) (d : Int) (pos : Nat) : Prop :=
  stateAt bs start pos = ⟨.normal, d⟩ ∨ stateAt bs start pos = ⟨.slash, d⟩ ∧ bs[pos]? ≠ some (mark '*')

theorem Between.depth (h : Between bs start d pos) : (stateAt bs start pos).depth = d := by
  rcases h with h | ⟨h, -⟩ <;> rw [h]

theorem Between.step (h : Between bs start d pos) (hstart : start ≤ pos) (hb : bs[pos]? = some b) :
    stateAt bs start (pos + 1) = plainStep d b := by
  rw [stateAt_succ hstart hb]
  rcases h with h | ⟨h, hstar⟩
  · rw [h]
    rfl
  · have hne : b ≠ mark '*' := fun heq => hstar (hb.trans (congrArg some heq))
    rw [h]
    exact if_neg hne

/-- What a jump from `pos` passes over at depth `d`: all up to where it ends, or all there is. -/
def Jump (bs : List UInt8) (start : Nat) (d : Int) (pos : Nat) : Option Nat → Prop
  | some next => pos < next ∧ Between bs start d next ∧ Along (· = d) bs start pos next
  | none => Along (· = d) bs start pos (bs.length + 1)

theorem Jump.cons {r : Option Nat} (hd : (stateAt bs start pos).depth = d) (h : Jump bs start d (pos + 1) r) :
    Jump bs start d pos r := by
  cases r with
  | none => exact Along.append (P := (· = d)) (along_one hd) h
  | some next =>
    obtain ⟨hlt, hnext, halong⟩ := h
    exact ⟨by omega, hnext, Along.append (P := (· = d)) (along_one hd) halong⟩

theorem jump_next (hd : (stateAt bs start pos).depth = d) (h : Between bs start d (pos + 1)) :
    Jump bs start d pos (some (pos + 1)) :=
  ⟨Nat.lt_succ_self pos, h, along_one hd⟩

/-- From the end of the bytes on there is nothing to pass over. -/
theorem jump_end (hlen : bs.length ≤ pos) (hd : (stateAt bs start pos).depth = d) : Jump bs start d pos none := by
  intro p hp hstop
  rwa [show p = pos by omega]

theorem skipString_jump (hq : q ≠ mark '\\') (hstart : start ≤ pos)
    (hstate : stateAt bs start pos = ⟨.string q, d⟩) :
    ∃ r, skipString bs q pos = .ok r ∧ Jump bs start d pos r := by
  induction pos using offset_induction bs with | step pos ih => ?_
  have hd : (stateAt bs start pos).depth = d := by rw [hstate]
  rw [skipString]
  by_cases hpos : pos < bs.length
  · obtain ⟨b, hb⟩ : ∃ b, bs[pos]? = some b := ⟨_, List.getElem?_eq_getElem hpos⟩
    have hnext := stateAt_succ hstart hb
    rw [hstate] at hnext
    simp only [if_pos hpos, byteAt_of_getElem? hb, pure_bind]
    by_cases hback : b = mark '\\'
    · have hescape : stateAt bs start (pos + 1) = ⟨.escape q, d⟩ := by simpa [step, hback] using hnext
      rw [if_pos hback]
      by_cases hlast : pos + 1 < bs.length
      · -- the byte behind the backslash is taken whatever it is
        have htwo : stateAt bs start (pos + 2) = ⟨.string q, d⟩ := by
          rw [stateAt_succ (by omega) (List.getElem?_eq_getElem hlast), hescape]
          rfl
        obtain ⟨r, hr, hjump⟩ := ih (pos + 2) (by omega) hpos (by omega) htwo
        exact ⟨r, hr, (hjump.cons (by rw [hescape])).cons hd⟩
      · refine ⟨none, ?_, (jump_end (by omega) (by rw [hescape])).cons hd⟩
        rw [skipString, if_neg (by omega)]
        rfl
    · rw [if_neg hback]
      by_cases hclose : b = q
      · have hnormal : stateAt bs start (pos + 1) = ⟨.normal, d⟩ := by simpa [step, hback, hclose, hq] using hnext
        rw [if_pos hclose]
        exact ⟨_, rfl, jump_next hd (.inl hnormal)⟩
      · have hstring : stateAt bs start (pos + 1) = ⟨.string q, d⟩ := by simpa [step, hback, hclose] using hnext
        rw [if_neg hclose]
        obtain ⟨r, hr, hjump⟩ := ih (pos + 1) (by omega) hpos (by omega) hstring
        exact ⟨r, hr, hjump.cons hd⟩
  · exact ⟨none, by rw [if_neg hpos]; rfl, jump_end (by omega) hd⟩

/-- The automaton comes to `pos` in a comment that the byte at `pos` does not close. -/
def InComment (bs : List UInt8) (start : Nat) (d : Int) (pos : Nat) : Prop :=
  stateAt bs start pos = ⟨.comment, d⟩ ∨ stateAt bs start pos = ⟨.star, d⟩ ∧ bs[pos]? ≠ some (mark '/')

theorem InComment.depth (h : InComment bs start d pos) : (stateAt bs start pos).depth = d := by
  rcases h with h | ⟨h, -⟩ <;> rw [h]

theorem InComment.step (h : InComment bs start d pos) (hstart : start ≤ pos) (hb : bs[pos]? = some b) :
    stateAt bs start (pos + 1) = if b = mark '*' then ⟨.star, d⟩ else ⟨.comment, d⟩ := by
  rw [stateAt_succ hstart hb]
  rcases h with h | ⟨h, hslash⟩
  · simp [Automaton.step, h]
  · have hne : b ≠ mark '/' := fun heq => hslash (hb.trans (congrArg some heq))
    simp [Automaton.step, h, hne]

theorem skipComment_jump (hstart : start ≤ pos) (hstate : InComment bs start d pos) :
    ∃ r, skipComment bs pos = .ok r ∧ Jump bs start d pos r := by
  induction pos using offset_induction bs with | step pos ih => ?_
  rw [skipComment]
  by_cases hpos : pos + 1 < bs.length
  · obtain ⟨b, hb⟩ : ∃ b, bs[pos]? = some b := ⟨_, List.getElem?_eq_getElem (by omega)⟩
    obtain ⟨b', hb'⟩ : ∃ b', bs[pos + 1]? = some b' := ⟨_, List.getElem?_eq_getElem hpos⟩
    have hnext := hstate.step hstart hb
    simp only [if_pos hpos, byteAt_of_getElem? hb, byteAt_of_getElem? hb', pure_bind]
    by_cases hclose : b = mark '*' ∧ b' = mark '/'
    · rw [if_pos (by simpa using hclose)]
      obtain ⟨rfl, rfl⟩ := hclose
      rw [if_pos rfl] at hnext
      have hnormal : stateAt bs start (pos + 2) = ⟨.normal, d⟩ := by
        rw [stateAt_succ (by omega) hb', hnext]
        rfl
      exact ⟨_, rfl, (jump_next (by rw [hnext]) (.inl hnormal)).cons hstate.depth⟩
    · rw [if_neg (by simpa using hclose)]
      have hin : InComment bs start d (pos + 1) := by
        by_cases hstar : b = mark '*'
        · rw [if_pos hstar] at hnext
          refine .inr ⟨hnext, fun hslash => hclose ⟨hstar, ?_⟩⟩
          rw [hb', Option.some.injEq] at hslash
          exact hslash
        · rw [if_neg hstar] at hnext
          exact .inl hnext
      obtain ⟨r, hr, hjump⟩ := ih (pos + 1) (by omega) (by omega) (by omega) hin
      exact ⟨r, hr, hjump.cons hstate.depth⟩
  · refine ⟨none, by rw [if_neg hpos]; rfl, ?_⟩
    cases hb : bs[pos]? with
    | none => exact jump_end (List.getElem?_eq_none_iff.1 hb) hstate.depth
    | some b =>
      refine (jump_end (by omega) ?_).cons hstate.depth
      rw [hstate.step hstart hb]
      split <;> rfl

/-! ### The search -/

/-- What begins at `pos` and is no brace is passed over at the same depth. -/
theorem skipLexeme_jump (hstart : start ≤ pos) (hstate : Between bs start d pos) (hb : bs[pos]? = some b)
    (hopen : b ≠ mark '\x7b') (hclose : b ≠ mark '}') :
    ∃ r, skipLexeme bs pos b = .ok r ∧ Jump bs start d pos r := by
  have hnext := hstate.step hstart hb
  rw [plainStep, if_neg hopen, if_neg hclose] at hnext
  rw [skipLexeme]
  by_cases hquote : b = mark '"' ∨ b = mark '\''
  · have hback : b ≠ mark '\\' := by
      rintro rfl
      exact absurd hquote (by decide)
    rw [if_pos hquote] at hnext
    rw [if_pos (by simpa [isQuoteByte] using hquote)]
    obtain ⟨r, hr, hjump⟩ := skipString_jump hback (by omega) hnext
    exact ⟨r, hr, hjump.cons hstate.depth⟩
  · rw [if_neg hquote] at hnext
    rw [if_neg (by simpa [isQuoteByte] using hquote)]
    by_cases hslash : b = mark '/'
    · rw [if_pos hslash] at hnext
      by_cases hstar : bs[pos + 1]? = some (mark '*')
      · have hin : stateAt bs start (pos + 2) = ⟨.comment, d⟩ := by
          rw [stateAt_succ (by omega) hstar, hnext]
          rfl
        rw [if_pos (by simp [hslash, hstar])]
        obtain ⟨r, hr, hjump⟩ := skipComment_jump (by omega) (.inl hin)
        exact ⟨r, hr, (hjump.cons (by rw [hnext])).cons hstate.depth⟩
      · rw [if_neg (by simp [hstar])]
        exact ⟨_, rfl, jump_next hstate.depth (.inr ⟨hnext, hstar⟩)⟩
    · rw [if_neg hslash] at hnext
      rw [if_neg (by simp [hslash])]
      exact ⟨_, rfl, jump_next hstate.depth (.inl hnext)⟩

/-- What the search from `pos` on finds: the offset at which the automaton returns, with a positive
depth up to there, or nothing, and the depth is positive up to the end. -/
def Search (bs : List UInt8) (start pos : Nat) : Option Nat → Prop
  | some c => ReturnsAt bs start c ∧ Along (0 < ·) bs start pos (c + 1)
  | none => Along (0 < ·) bs start pos (bs.length + 1)

theorem Search.append {r : Option Nat} {next : Nat} (halong : Along (0 < ·) bs start pos next)
    (h : Search bs start next r) : Search bs start pos r := by
  cases r with
  | none => exact halong.append h
  | some c => exact ⟨h.1, halong.append h.2⟩

/-- The search goes wrong nowhere, and its depth is that of the automaton. -/
theorem findBrace_search {depth : Nat} (hdepth : 0 < depth) (hstart : start ≤ pos)
    (hstate : Between bs start depth pos) : ∃ r, findBrace bs depth pos = .ok r ∧ Search bs start pos r := by
  induction pos using offset_induction bs generalizing depth with | step pos ih => ?_
  have hd : 0 < (depth : Int) := by omega
  rw [findBrace]
  by_cases hpos : pos < bs.length
  · obtain ⟨b, hb⟩ : ∃ b, bs[pos]? = some b := ⟨_, List.getElem?_eq_getElem hpos⟩
    have hnext := hstate.step hstart hb
    have hhere : 0 < (stateAt bs start pos).depth := by rwa [hstate.depth]
    simp only [if_pos hpos, byteAt_of_getElem? hb, pure_bind]
    by_cases hopen : b = mark '\x7b'
    · rw [plainStep, if_pos hopen] at hnext
      rw [if_pos hopen]
      obtain ⟨r, hr, hsearch⟩ := ih (pos + 1) (by omega) hpos (Nat.succ_pos depth) (by omega) (.inl hnext)
      exact ⟨r, hr, Search.append (along_one hhere) hsearch⟩
    rw [if_neg hopen]
    by_cases hclose : b = mark '}'
    · rw [plainStep, if_neg hopen, if_pos hclose] at hnext
      rw [if_pos hclose, if_neg (by omega)]
      by_cases hlast : depth - 1 = 0
      · rw [if_pos hlast]
        have hone : (depth : Int) = 1 := by omega
        refine ⟨some pos, rfl, ⟨?_, ?_⟩, along_one hhere⟩
        · rw [hstate.depth, hone]
        · rw [hnext, hone]
          rfl
      · rw [if_neg hlast]
        have hpred : (depth : Int) - 1 = (depth - 1 : Nat) := by omega
        rw [hpred] at hnext
        obtain ⟨r, hr, hsearch⟩ := ih (pos + 1) (by omega) hpos (by omega) (by omega) (.inl hnext)
        exact ⟨r, hr, Search.append (along_one hhere) hsearch⟩
    rw [if_neg hclose]
    obtain ⟨jump, hjump, hpassed⟩ := skipLexeme_jump hstart hstate hb hopen hclose
    rw [hjump]
    cases jump with
    | none => exact ⟨none, rfl, fun p hp hstop => by rwa [hpassed p hp hstop]⟩
    | some next =>
      obtain ⟨hlt, hbetween, halong⟩ := hpassed
      obtain ⟨r, hr, hsearch⟩ := ih next hlt hpos hdepth (by omega) hbetween
      refine ⟨r, ?_, Search.append (fun p hp hn => by rwa [halong p hp hn]) hsearch⟩
      rw [← hr]
      exact if_pos hlt
  · refine ⟨none, by rw [if_neg hpos]; rfl, fun p hp hstop => ?_⟩
    rwa [show p = pos by omega, hstate.depth]

theorem matchingBrace_search (hopen : bs[start]? = some (mark '\x7b')) :
    ∃ r, matchingBrace bs start = .ok r ∧ Search bs start (start + 1) r := by
  have hstate : stateAt bs start (start + 1) = ⟨.normal, 1⟩ := by
    rw [stateAt_succ (Nat.le_refl start) hopen, stateAt_of_le (Nat.le_refl start)]
    rfl
  obtain ⟨r, hr, hsearch⟩ := findBrace_search Nat.one_pos (Nat.le_succ start) (.inl hstate)
  refine ⟨r, ?_, hsearch⟩
  rw [matchingBrace, if_pos hopen, findBrace, if_pos (lt_length_of_getElem? hopen), byteAt_of_getElem? hopen,
    pure_bind, if_pos rfl, Nat.zero_add, hr]

/-- Where the depth stays positive the automaton does not return. -/
theorem Along.not_returnsAt {stop c : Nat} (h : Along (0 < ·) bs start (start + 1) stop) (hc : c + 1 < stop) :
    ¬ReturnsAt bs start c := by
  rintro ⟨hone, hzero⟩
  rcases Nat.lt_or_ge c start with hlt | hge
  · rw [stateAt_of_le (Nat.le_of_lt hlt)] at hone
    exact absurd hone (by decide)
  · have hpositive := h (c + 1) (by omega) hc
    omega

/-- The automaton does not return behind the last byte. -/
theorem not_returnsAt_end {c : Nat} (h : bs.length ≤ c) : ¬ReturnsAt bs start c := by
  rintro ⟨hone, hzero⟩
  rw [stateAt_end (by omega)] at hone hzero
  omega

theorem Search.eq_none_iff {r : Option Nat} (h : Search bs start (start + 1) r) :
    r = none ↔ ∀ c, ¬ReturnsAt bs start c := by
  cases r with
  | none =>
    refine iff_of_true rfl fun c => ?_
    rcases Nat.lt_or_ge c bs.length with hlt | hge
    · exact Along.not_returnsAt h (Nat.succ_lt_succ hlt)
    · exact not_returnsAt_end hge
  | some c => exact iff_of_false (by simp) fun hnever => hnever c h.1

theorem Search.eq_some_iff {r : Option Nat} (h : Search bs start (start + 1) r) (c : Nat) :
    r = some c ↔ ReturnsAt bs start c ∧ ∀ c' < c, ¬ReturnsAt bs start c' := by
  cases r with
  | none => exact iff_of_false (by simp) fun hfirst => h.eq_none_iff.1 rfl c hfirst.1
  | some found =>
    have hfirst : ∀ c' < found, ¬ReturnsAt bs start c' := fun c' hc' => h.2.not_returnsAt (Nat.succ_lt_succ hc')
    constructor
    · rintro ⟨⟩
      exact ⟨h.1, hfirst⟩
    · rintro ⟨hreturns, hfirst'⟩
      rcases Nat.lt_trichotomy found c with hlt | rfl | hlt
      · exact absurd h.1 (hfirst' found hlt)
      · rfl
      · exact absurd hreturns (hfirst c hlt)

/-- As long as the automaton has not returned its depth is positive. -/
theorem Search.depth_pos {r : Option Nat} (h : Search bs start (start + 1) r) (hstart : start < bs.length)
    (hpos : start < pos) (hbefore : ∀ c < pos, ¬ReturnsAt bs start c) : 0 < (stateAt bs start pos).depth := by
  cases r with
  | none =>
    rcases Nat.lt_or_ge pos bs.length with hlt | hge
    · exact h pos hpos (by omega)
    · rw [stateAt_end hge]
      exact h bs.length hstart (Nat.lt_succ_self _)
  | some c =>
    have hc : pos ≤ c := Nat.le_of_not_lt fun hlt => hbefore c hlt h.1
    exact h.2 pos hpos (by omega)

/-- The brace that closes the one at `start` stands where the automaton returns from depth one to
depth zero for the first time. The search by offsets comes to the same answer and nothing goes
wrong in it, and until the automaton returns its depth is positive. -/
theorem closing_brace_is_first_return {t : Text} {start : Nat} (hopen : (bytes t)[start]? = some (mark '\x7b')) :
    ∃ close, matchingBrace? t start = some close ∧ matchingBrace (bytes t) start = .ok close ∧
      (∀ c, close = some c ↔ ReturnsAt (bytes t) start c ∧ ∀ c' < c, ¬ReturnsAt (bytes t) start c') ∧
      (close = none ↔ ∀ c, ¬ReturnsAt (bytes t) start c) ∧
      ∀ pos, start < pos → (∀ c < pos, ¬ReturnsAt (bytes t) start c) → 0 < (stateAt (bytes t) start pos).depth := by
  obtain ⟨close, hclose, hsearch⟩ := matchingBrace_search hopen
  refine ⟨close, ?_, hclose, hsearch.eq_some_iff, hsearch.eq_none_iff, fun pos hpos hbefore =>
    hsearch.depth_pos (lt_length_of_getElem? hopen) hpos hbefore⟩
  -- the search over characters is the one over bytes, from the brace on
  obtain ⟨pre, rest, rfl, rfl⟩ := exists_of_getElem?_mark (by decide) hopen
  rw [matchingBrace_eq rfl] at hclose
  rw [matchingBrace?, splitAtByte?_append, ← Except.ok.inj hclose, byteLength_mark (c := '\x7b') (by decide)]
  rfl

/-- A block with an escaped quotation mark and a brace in a string, a comment whose opening star does
not close it, and a slash before another comment. -/
def tangled : Text := "p\x7b'\\'\x7d'/*/\x7d*/\x7b\x7d//**/\x7d".toList

theorem closing_brace_is_first_return_tangled :
    (bytes tangled)[1]? = some (mark '\x7b') ∧ matchingBrace? tangled 1 = some (some 20) ∧
      ReturnsAt (bytes tangled) 1 20 ∧ ∀ c < 20, ¬ReturnsAt (bytes tangled) 1 c := by
  have hopen : (bytes tangled)[1]? = some (mark '\x7b') := by decide +kernel
  have hfound : matchingBrace? tangled 1 = some (some 20) := by decide +kernel
  obtain ⟨close, hclose, -, hfirst, -⟩ := closing_brace_is_first_return hopen
  obtain rfl : close = some 20 := Option.some.inj (hclose.symm.trans hfound)
  exact ⟨hopen, hfound, (hfirst 20).1 rfl⟩

end Cull.Stylesheet.Automaton
