import Cull.Proofs.Lexemes

/-!
# Outside strings and comments

A position of a text lies outside every string and comment if one comes to it by
going through the text lexeme by lexeme. `outside` lists these positions, each as
the text from there on, and `firstOutside` finds the first of them that holds a
mark. A text that closes all its strings and comments can be put in front of
another without changing where the other has its marks (`firstOutside_append`),
and the readers that close a block or a header pass over it if it holds no mark of
theirs (`closeBlock_passes`, `closeHeader_passes`).
-/

namespace Cull.Stylesheet

open Text

/-- The positions of a text that lie outside its strings and comments, each as the text from there on.
The last is the end of the text, or the opening mark of a string or comment that does not end. -/
def outside (t : Text) : List Text :=
  match h : lexeme? t with
  | none => [t]
  | some (_, rest) =>
    have := length_lexeme?_lt h
    t :: outside rest
  termination_by t.length

/-- Every string and comment of the text ends in it. -/
def closesAll (t : Text) : Bool := (outside t).contains []

/-- The position holds a mark. -/
def atMark (isMark : Char → Bool) (t : Text) : Bool := t.head?.any isMark

/-- The text from its first mark outside strings and comments on. -/
def firstOutside (isMark : Char → Bool) (t : Text) : Option Text := (outside t).find? (atMark isMark)

theorem outside_lexeme {t l rest : Text} (h : lexeme? t = some (l, rest)) : outside t = t :: outside rest := by
  rw [outside]
  split
  · next hnone => simp [hnone] at h
  · next l' rest' hsome =>
    rw [h] at hsome
    cases hsome
    rfl

theorem outside_stop {t : Text} (h : lexeme? t = none) : outside t = [t] := by
  rw [outside]
  split
  · rfl
  · next l rest hsome => simp [hsome] at h

/-- A position of a text is the end of it. -/
theorem isSuffix_of_mem_outside {s t : Text} (h : s ∈ outside t) : s <:+ t := by
  induction t using lexeme_induction with
  | step t ih =>
    cases hl : lexeme? t with
    | none =>
      rw [outside_stop hl, List.mem_singleton] at h
      subst h
      exact List.suffix_refl s
    | some p =>
      obtain ⟨l, rest⟩ := p
      rw [outside_lexeme hl] at h
      rcases List.mem_cons.1 h with rfl | h
      · exact List.suffix_refl s
      · refine (ih l rest hl h).trans ?_
        exact ⟨l, lexeme?_append hl⟩

/-! ### Text that a reader passes over -/

/-- The text is made up of whole strings, whole comments and other characters, and none of the others is
a mark. -/
inductive Passes (isMark : Char → Bool) : Text → Prop where
  /-- Nothing is left. -/
  | nil : Passes isMark []
  /-- A lexeme that is no mark, and what follows it. -/
  | step {t l rest : Text} (lexeme : lexeme? t = some (l, rest)) (noMark : atMark isMark t = false)
      (next : Passes isMark rest) : Passes isMark t

theorem passes_iff {isMark : Char → Bool} {t : Text} :
    Passes isMark t ↔ closesAll t = true ∧ ∀ s ∈ outside t, atMark isMark s = false := by
  constructor
  · intro h
    induction h with
    | nil =>
      have hnil : outside [] = [[]] := outside_stop rfl
      simp [closesAll, hnil, atMark]
    | @step t l rest hl hmark _ ih =>
      obtain ⟨hcloses, hmarks⟩ := ih
      rw [closesAll, List.contains_iff_mem] at hcloses ⊢
      rw [outside_lexeme hl]
      exact ⟨.tail _ hcloses, List.forall_mem_cons.2 ⟨hmark, hmarks⟩⟩
  · rintro ⟨hcloses, hmarks⟩
    induction t using lexeme_induction with
    | step t ih =>
      rw [closesAll, List.contains_iff_mem] at hcloses
      cases hl : lexeme? t with
      | none =>
        rw [outside_stop hl, List.mem_singleton] at hcloses
        subst hcloses
        exact .nil
      | some p =>
        obtain ⟨l, rest⟩ := p
        rw [outside_lexeme hl] at hcloses hmarks
        obtain ⟨hmark, hmarks⟩ := List.forall_mem_cons.1 hmarks
        have hrest : [] ∈ outside rest := by
          rcases List.mem_cons.1 hcloses with rfl | hcloses
          · cases hl
          · exact hcloses
        exact .step hl hmark (ih l rest hl (by simpa [closesAll] using hrest) hmarks)

/-- With fewer marks a text is passed over too. -/
theorem Passes.mono {isMark isMark' : Char → Bool} {t : Text} (h : Passes isMark t)
    (himp : ∀ c, isMark' c = true → isMark c = true) : Passes isMark' t := by
  induction h with
  | nil => exact .nil
  | @step t l rest hl hmark _ ih =>
    refine .step hl ?_ ih
    rw [atMark, Option.any_eq_false] at hmark ⊢
    intro c hc
    have hc' := hmark c hc
    rw [Bool.eq_false_iff] at hc' ⊢
    exact fun h => hc' (himp c h)

/-- A text without quotation marks and opening marks of comments is passed over if it holds no mark. -/
theorem passes_of_unmarked {isMark : Char → Bool} {t : Text} (hquote : ∀ c ∈ t, isQuote c = false)
    (hcomment : hasPart ['/', '*'] t = false) (hmark : ∀ c ∈ t, isMark c = false) : Passes isMark t := by
  induction t with
  | nil => exact .nil
  | cons c t ih =>
    rw [hasPart, Bool.or_eq_false_iff] at hcomment
    have hstar : c = '/' → t.head? ≠ some '*' := by
      rintro rfl hhead
      obtain ⟨t, rfl⟩ := List.head?_eq_some_iff.1 hhead
      simp [dropLead?] at hcomment
    refine .step (lexeme?_char (hquote c (.head _)) hstar) ?_ ?_
    · simpa [atMark] using hmark c (.head _)
    · exact ih (fun d hd => hquote d (.tail _ hd)) hcomment.2 fun d hd => hmark d (.tail _ hd)

/-- No comment opens where the two texts meet. -/
def Apart (x y : Text) : Prop := x.getLast? = some '/' → y.head? ≠ some '*'

theorem Apart.of_append {l x y : Text} (h : Apart (l ++ x) y) : Apart x y := by
  intro hlast
  apply h
  rw [List.getLast?_append, hlast]
  rfl

/-- A lexeme of a text is read in front of another text too. -/
theorem lexeme?_append_apart {l x y : Text} (h : lexeme? (l ++ x) = some (l, x)) (hapart : Apart (l ++ x) y) :
    lexeme? (l ++ (x ++ y)) = some (l, x ++ y) := by
  refine lexeme?_local h fun hslash hstar => ?_
  cases x with
  | nil => exact absurd hstar (hapart (by rw [hslash]; rfl))
  | cons c x => simpa using hstar

theorem atMark_append {isMark : Char → Bool} {x : Text} (hx : x ≠ []) (y : Text) :
    atMark isMark (x ++ y) = atMark isMark x := by
  obtain ⟨c, w, rfl⟩ := List.exists_cons_of_ne_nil hx
  rfl

/-- Induction along the lexemes of a text that is passed over, read in front of `y`. -/
theorem Passes.append_induction {isMark : Char → Bool} {y : Text} {motive : Text → Prop} (nil : motive [])
    (step : ∀ l x, lexeme? (l ++ (x ++ y)) = some (l, x ++ y) → atMark isMark l = false → motive x →
      motive (l ++ x)) {x : Text} (h : Passes isMark x) (hapart : Apart x y) : motive x := by
  induction h with
  | nil => exact nil
  | @step t l x hl hmark _ ih =>
    obtain rfl := lexeme?_append hl
    rw [atMark_append (lexeme?_ne_nil hl)] at hmark
    exact step l x (lexeme?_append_apart hl hapart) hmark (ih hapart.of_append)

theorem Passes.append {isMark : Char → Bool} {x y : Text} (hx : Passes isMark x) (hy : Passes isMark y)
    (hapart : Apart x y) : Passes isMark (x ++ y) := by
  refine hx.append_induction (motive := fun x => Passes isMark (x ++ y)) hy (fun l x hl hmark ih => ?_) hapart
  rw [List.append_assoc]
  refine .step hl ?_ ih
  rwa [atMark_append (lexeme?_ne_nil hl)]

/-- The first mark behind a text that is passed over is the first mark of all. -/
theorem firstOutside_append {isMark : Char → Bool} {x y : Text} (h : Passes isMark x) (hapart : Apart x y) :
    firstOutside isMark (x ++ y) = firstOutside isMark y := by
  refine h.append_induction (motive := fun x => firstOutside isMark (x ++ y) = firstOutside isMark y) rfl
    (fun l x hl hmark ih => ?_) hapart
  rw [List.append_assoc, firstOutside, outside_lexeme hl, List.find?_cons_of_neg, ← firstOutside, ih]
  rw [atMark_append (lexeme?_ne_nil hl), hmark]
  exact Bool.false_ne_true

/-- A text behind which the first mark of all stands is passed over. -/
theorem passes_of_firstOutside {isMark : Char → Bool} {x y : Text} (h : firstOutside isMark (x ++ y) = some y) :
    Passes isMark x := by
  induction hn : x.length using Nat.strongRecOn generalizing x with
  | ind n ih =>
    subst hn
    by_cases hx : x = []
    · rw [hx]
      exact .nil
    have hne : x ++ y ≠ y := fun heq => hx (List.self_eq_append_left.1 heq.symm)
    cases hl : lexeme? (x ++ y) with
    | none =>
      rw [firstOutside, outside_stop hl] at h
      exact absurd (List.mem_singleton.1 (List.mem_of_find?_eq_some h)).symm hne
    | some p =>
      obtain ⟨l, rest⟩ := p
      rw [firstOutside, outside_lexeme hl, List.find?_cons] at h
      split at h
      · exact absurd (Option.some.inj h) hne
      · next hmark =>
        -- the end of `x` is not inside the lexeme, so the lexeme is one of `x`
        obtain ⟨w, rfl⟩ := isSuffix_of_mem_outside (List.mem_of_find?_eq_some h)
        have happend := lexeme?_append hl
        rw [← List.append_assoc, List.append_cancel_right_eq] at happend
        subst happend
        have hl' : lexeme? (l ++ w) = some (l, w) := by
          rw [List.append_assoc] at hl
          refine lexeme?_local hl fun _ hstar => ?_
          cases w with
          | nil => cases hstar
          | cons c w => simpa using hstar
        rw [atMark_append hx] at hmark
        exact .step hl' hmark (ih w.length (length_lexeme?_lt hl') h rfl)

/-! ### The readers -/

/-- A brace. -/
def isBrace (c : Char) : Bool := c = '\x7b' || c = '}'

/-- A mark that ends the header of an at-rule. -/
def endsHeader (c : Char) : Bool := c = '\x7b' || c = ';'

/-- A lexeme that begins with no mark is no mark. -/
theorem ne_mark_of_atMark {isMark : Char → Bool} {l : Text} {m : Char} (h : atMark isMark l = false)
    (hm : isMark m = true) : l ≠ [m] := by
  rintro rfl
  simp [atMark, hm] at h

/-- A lexeme that is no mark begins with none, if every mark is a lexeme by itself. -/
theorem atMark_eq_false_of_lexeme {isMark : Char → Bool} {t l rest : Text} (h : lexeme? t = some (l, rest))
    (hmark : ∀ c, isMark c = true → isQuote c = false ∧ c ≠ '/' ∧ l ≠ [c]) : atMark isMark t = false := by
  cases t with
  | nil => rfl
  | cons c t =>
    rw [Bool.eq_false_iff]
    intro hc
    obtain ⟨hquote, hslash, hne⟩ := hmark c (by simpa [atMark] using hc)
    rw [lexeme?_char hquote fun h => absurd h hslash] at h
    cases h
    exact hne rfl

/-- The reader that closes a block passes over text without braces of its own. -/
theorem closeBlock_passes {x y : Text} (h : Passes isBrace x) (hapart : Apart x y) (depth : Nat) :
    closeBlock depth (x ++ y) = (closeBlock depth y).map fun (a, rest) => (x ++ a, rest) := by
  refine h.append_induction (motive := fun x => closeBlock depth (x ++ y) =
    (closeBlock depth y).map fun (a, rest) => (x ++ a, rest)) (by simp) (fun l x hl hmark ih => ?_) hapart
  have hclose : l ≠ ['}'] := ne_mark_of_atMark hmark rfl
  have hopen : l ≠ ['\x7b'] := ne_mark_of_atMark hmark rfl
  rw [List.append_assoc, closeBlock_pass hl hclose hopen, ih]
  simp [Function.comp_def]

/-- The reader that closes a header passes over text without marks of its own. -/
theorem closeHeader_passes {x y : Text} (h : Passes endsHeader x) (hapart : Apart x y) :
    closeHeader (x ++ y) = (closeHeader y).map fun (a, e, rest) => (x ++ a, e, rest) := by
  refine h.append_induction (motive := fun x => closeHeader (x ++ y) =
    (closeHeader y).map fun (a, e, rest) => (x ++ a, e, rest)) (by simp) (fun l x hl hmark ih => ?_) hapart
  have hsemicolon : l ≠ [';'] := ne_mark_of_atMark hmark rfl
  have hopen : l ≠ ['\x7b'] := ne_mark_of_atMark hmark rfl
  rw [List.append_assoc, closeHeader_pass hl hsemicolon hopen, ih]
  simp [Function.comp_def]

/-- The reader that closes a header finds the first mark outside strings and comments. -/
theorem firstOutside_of_closeHeader {t a rest : Text} {e : HeaderEnd} (h : closeHeader t = some (a, e, rest)) :
    firstOutside endsHeader t = some (e.mark :: rest) := by
  induction t using lexeme_induction generalizing a with
  | step t ih =>
    rcases closeHeader_eq_some h with ⟨hl, -⟩ | ⟨l, r, b, hl, hsemicolon, hopen, hb, -⟩
    · have happend := lexeme?_append hl
      rw [List.singleton_append] at happend
      rw [firstOutside, outside_lexeme hl, ← happend, List.find?_cons_of_pos]
      cases e <;> rfl
    · rw [firstOutside, outside_lexeme hl, List.find?_cons_of_neg, ← firstOutside, ih l r hl hb]
      rw [atMark_eq_false_of_lexeme hl]
      · exact Bool.false_ne_true
      · intro c hc
        rw [endsHeader, Bool.or_eq_true, decide_eq_true_eq, decide_eq_true_eq] at hc
        rcases hc with rfl | rfl
        · exact ⟨rfl, by decide, hopen⟩
        · exact ⟨rfl, by decide, hsemicolon⟩

end Cull.Stylesheet
