import Cull.Proofs.SqueezedReading
import Cull.Proofs.Survivors

/-!
# Squeezed parts

Blanks that are not ASCII begin a plain rule for the reader of a stylesheet, but
they are left out like all others among blank lines. What follows them is then
read as if it had always stood alone: an at-rule or a comment, if its mark comes
to the front. Parts to which that does not happen are steady, and a text of
steady parts has the same outline when it is squeezed
(`squeezes_of_isSteadyAll`).
-/

namespace Cull

open Text

namespace Stylesheet

open Stylesheet.Part

/-! ### Outlines from the front -/

/-- Reading the text gives rules with the outline `front`, and then what reading `rest` gives. -/
structure ReadsAs (t : Text) (front : List Outline) (rest : Text) : Prop where
  /-- The outline. -/
  outline : outlineAll (layout t).1 = front ++ outlineAll (layout rest).1
  /-- What cannot be read. -/
  tail : (layout t).2 = (layout rest).2

theorem ReadsAs.refl (t : Text) : ReadsAs t [] t := ⟨rfl, rfl⟩

theorem ReadsAs.trans {t rest rest' : Text} {front more : List Outline} (h : ReadsAs t front rest)
    (h' : ReadsAs rest more rest') : ReadsAs t (front ++ more) rest' :=
  ⟨by rw [h.outline, h'.outline, List.append_assoc], h.tail.trans h'.tail⟩

theorem readsAs_of_readConstruct {t rest : Text} {c : Construct} (h : readConstruct t = some (c, rest)) :
    ReadsAs t c.part.outline rest := by
  constructor
  · rw [layout_of_readConstruct h, outlineAll]
  · rw [layout_of_readConstruct h]

theorem readsAs_blank {c : Char} (hc : isAsciiBlank c = true) (t : Text) : ReadsAs (c :: t) [] t := by
  have hat : c ≠ '@' := by
    rintro rfl
    cases hc
  have hslash : c ≠ '/' := by
    rintro rfl
    cases hc
  have hread : readConstruct (c :: t) = some (.blank c, t) := by
    rw [readConstruct_cons hat fun h => absurd h hslash, if_pos hc]
  have h := readsAs_of_readConstruct hread
  rwa [Construct.part, Part.outline] at h

/-- ASCII blanks in front of a text leave no trace. -/
theorem readsAs_dropWhile (t : Text) : ReadsAs t [] (t.dropWhile isAsciiBlank) := by
  induction t with
  | nil => exact .refl []
  | cons c t ih =>
    by_cases hc : isAsciiBlank c = true
    · rw [List.dropWhile_cons_of_pos hc]
      exact (readsAs_blank hc t).trans ih
    · rw [List.dropWhile_cons_of_neg hc]
      exact .refl _

theorem readPlain_dropWhile (t : Text) :
    readPlain (t.dropWhile isAsciiBlank) =
      (readPlain t).map fun (header, body, rest) => (header.dropWhile isAsciiBlank, body, rest) := by
  by_cases hopen : '\x7b' ∈ t
  · obtain ⟨header, rest, rfl, hnot⟩ := List.eq_append_cons_of_mem hopen
    have hheader : ∀ c ∈ header, c ≠ '\x7b' := by
      rintro c hc rfl
      exact hnot hc
    have hdrop : (header ++ '\x7b' :: rest).dropWhile isAsciiBlank = header.dropWhile isAsciiBlank ++ '\x7b' :: rest := by
      rw [List.dropWhile_append]
      split
      · next h => rw [List.isEmpty_iff.1 h]; rfl
      · rfl
    rw [hdrop, readPlain_header hheader,
      readPlain_header fun c hc => hheader c ((List.dropWhile_sublist isAsciiBlank).subset hc)]
    cases closeBlock 0 rest with
    | none => rfl
    | some p => rfl
  · have hnone : ∀ c ∈ t, c ≠ '\x7b' := by
      rintro c hc rfl
      exact hopen hc
    rw [readPlain_none hnone, readPlain_none fun c hc => hnone c ((List.dropWhile_sublist isAsciiBlank).subset hc)]
    rfl

/-! ### Steady parts -/

/-- What is read of a text behind `k` newlines once it is squeezed. -/
def remainder (k : Nat) (t : Text) : Text := (squeeze k 0 t).dropWhile isAsciiBlank

namespace Part

mutual

/-- The part is read as before when the text that it stands in is squeezed, with `k` newlines in
front of it: no blank that hides a mark at the front of a plain rule, and no tail of a group, is
left out. -/
def isSteady (k : Nat) : Part → Bool
  | plain header _ => !opensMark (remainder k header)
  | group _ _ parts tail =>
    isSteadyAll 0 tail parts && (tail.isEmpty || !(remainder (newlinesBehind 0 (textAll parts)) tail).isEmpty)
  | _ => true

/-- Parts, and the tail that is left behind them, are read as before when their text is squeezed. -/
def isSteadyAll (k : Nat) (tail : Text) : List Part → Bool
  | [] => opensMark tail || !opensMark (remainder k tail)
  | p :: ps => isSteady k p && isSteadyAll (newlinesBehind k p.text) tail ps

end

end Part

theorem head?_remainder (k : Nat) (t : Text) : ∀ c ∈ (remainder k t).head?, isAsciiBlank c = false := by
  have h := List.head?_dropWhile_not isAsciiBlank (squeeze k 0 t)
  intro c hc
  rw [remainder, Option.mem_def] at hc
  rw [hc] at h
  simpa using h

/-- Only blanks are passed over. -/
theorem squeeze_eq_append_remainder (k : Nat) (t : Text) :
    ∃ b, squeeze k 0 t = b ++ remainder k t ∧ ∀ c ∈ b, isBlank c = true := by
  refine ⟨(squeeze k 0 t).takeWhile isAsciiBlank, List.takeWhile_append_dropWhile.symm, fun c hc => ?_⟩
  exact isBlank_of_isAsciiBlank (List.all_eq_true.1 List.all_takeWhile c hc)

theorem headerTokens_remainder (k : Nat) (t : Text) :
    Selector.headerTokens (remainder k t) = Selector.headerTokens t := by
  obtain ⟨b, hsqueeze, hb⟩ := squeeze_eq_append_remainder k t
  rw [← Selector.headerTokens_squeeze k 0 t, hsqueeze, Selector.headerTokens_blanks_append hb]

theorem trim_remainder_eq_nil_iff (k : Nat) (t : Text) : trim (remainder k t) = [] ↔ trim t = [] := by
  obtain ⟨b, hsqueeze, hb⟩ := squeeze_eq_append_remainder k t
  rw [← Selector.trim_squeeze_eq_nil_iff k 0 t, hsqueeze, Selector.trim_eq_nil_iff, Selector.trim_eq_nil_iff,
    List.forall_mem_append, and_iff_right hb]

/-- A mark at the front stays there. -/
theorem remainder_mark {t : Text} (h : opensMark t = true) (k : Nat) : remainder k t = squeeze k 0 t := by
  revert h
  fun_cases opensMark t with
  | case1 t =>
    intro _
    rw [remainder, squeeze_solid (by decide)]
    rfl
  | case2 t =>
    intro _
    rw [remainder, squeeze_solid (by decide)]
    rfl
  | case3 => simp

/-- A text from which no construct can be read gives none once it is squeezed, unless it shows a
mark that blanks hid. -/
theorem readConstruct_remainder {k : Nat} {t : Text} (h : readConstruct t = none)
    (hmark : (opensMark t || !opensMark (remainder k t)) = true) : readConstruct (remainder k t) = none := by
  cases ht : opensMark t with
  | true => rw [remainder_mark ht, readConstruct_squeeze ht, h, Option.map_none]
  | false =>
    have hblank : ∀ c ∈ t.head?, isAsciiBlank c = false := by
      intro c hc
      obtain ⟨t, rfl⟩ := List.head?_eq_some_iff.1 hc
      obtain ⟨hat, hstar⟩ := opensMark_cons_eq_false_iff.1 ht
      rw [readConstruct_cons hat hstar] at h
      split at h
      · cases h
      · next hnot => simpa using hnot
    rw [readConstruct_plain ht hblank, Option.map_eq_none_iff] at h
    rw [readConstruct_plain (by simpa [ht] using hmark) (head?_remainder k t), remainder, readPlain_dropWhile,
      readPlain_squeeze, h]
    rfl

/-! ### One construct -/

/-- Squeezed, the block of a group has the outline that it had, and is read whole if it was. -/
def KeepsOutline (t : Text) : Prop :=
  outlineAll (layout (squeeze 0 0 t)).1 = outlineAll (layout t).1 ∧ ((layout (squeeze 0 0 t)).2 = [] ↔ (layout t).2 = [])

/-- An at-rule has the outline that it had, if the block of a group has. -/
theorem outline_squeezed_atRule {form : AtForm} (hbody : ∀ name header body, form = .block name header body →
      groupNames.contains name = true → KeepsOutline body) :
    outline (Construct.part (.atRule form.squeezed)) = outline (Construct.part (.atRule form)) := by
  cases form with
  | statement name text => simp only [AtForm.squeezed, Construct.part, outline]
  | block name header body =>
    simp only [AtForm.squeezed, Construct.part, ofBlock]
    split
    · next hname =>
      obtain ⟨houtline, htail⟩ := hbody name header body rfl hname
      have hwhole : (layout (squeeze 0 0 body)).2.isEmpty = (layout body).2.isEmpty := by
        rw [Bool.eq_iff_iff, List.isEmpty_iff, List.isEmpty_iff, htail]
      rw [outline, outline, houtline, hwhole]
    · rw [outline, outline]

theorem readsAs_squeeze_blank {c : Char} (hc : isAsciiBlank c = true) (k : Nat) (t : Text) :
    ReadsAs (squeeze k 0 (c :: t)) [] (squeeze (runAfter k c) 0 t) := by
  rw [squeeze]
  split
  · exact .refl _
  · exact readsAs_blank hc _

/-- A plain rule in front of which no mark shows is a plain rule with the same tokens. -/
theorem readsAs_squeeze_plain {k : Nat} {t header body rest : Text} (h : readPlain t = some (header, body, rest))
    (hmark : opensMark (remainder k header) = false) :
    ReadsAs (squeeze k 0 t) (outline (.plain header body)) (squeeze 0 0 rest) := by
  have hplain : readPlain (remainder k t) = some (remainder k header, squeeze 0 0 body, squeeze 0 0 rest) := by
    rw [remainder, readPlain_dropWhile, readPlain_squeeze, h]
    rfl
  have hread : readConstruct (remainder k t) =
      some (.plain (remainder k header) (squeeze 0 0 body), squeeze 0 0 rest) := by
    rw [readConstruct_plain ?_ (head?_remainder k t), hplain]
    · rfl
    · rw [← readPlain_append hplain]
      exact opensMark_header hmark _
  have houtline : outline (.plain (remainder k header) (squeeze 0 0 body)) = outline (.plain header body) := by
    have hheader : (trim (remainder k header)).isEmpty = (trim header).isEmpty := by
      rw [Bool.eq_iff_iff, List.isEmpty_iff, List.isEmpty_iff, trim_remainder_eq_nil_iff]
    have hbody : (trim (squeeze 0 0 body)).isEmpty = (trim body).isEmpty := by
      rw [Bool.eq_iff_iff, List.isEmpty_iff, List.isEmpty_iff, Selector.trim_squeeze_eq_nil_iff]
    rw [outline, outline, hheader, hbody, headerTokens_remainder]
  have hfront := (readsAs_dropWhile (squeeze k 0 t)).trans (readsAs_of_readConstruct hread)
  rwa [List.nil_append, Construct.part, houtline] at hfront

/-! ### The whole text -/

/-- What reading a text gives once it is squeezed, behind `k` newlines. -/
structure Squeezes (k : Nat) (t : Text) : Prop where
  /-- The outline is the same. -/
  outline : outlineAll (layout (squeeze k 0 t)).1 = outlineAll (layout t).1
  /-- The tail is what squeezing leaves of it. -/
  tail : (layout (squeeze k 0 t)).2 = remainder (newlinesBehind k (textAll (layout t).1)) (layout t).2

/-- The block of a steady group keeps its outline. -/
theorem keepsOutline_of_isSteady {k : Nat} {name header body : Text} (hname : groupNames.contains name = true)
    (h : isSteady k (Construct.part (.atRule (.block name header body))) = true)
    (hbody : isSteadyAll 0 (layout body).2 (layout body).1 = true → Squeezes 0 body) : KeepsOutline body := by
  rw [Construct.part, ofBlock, if_pos hname, isSteady, Bool.and_eq_true] at h
  have hsqueezes := hbody h.1
  refine ⟨hsqueezes.outline, ?_⟩
  rw [hsqueezes.tail]
  constructor
  · intro hnil
    simpa [hnil] using h.2
  · intro hnil
    rw [hnil]
    rfl

/-- A steady construct is read with the outline that it had. -/
theorem readsAs_squeeze {k : Nat} {t rest : Text} {c : Construct} (h : readConstruct t = some (c, rest))
    (hsteady : isSteady k c.part = true)
    (hbody : ∀ name header body, c = .atRule (.block name header body) →
      isSteadyAll 0 (layout body).2 (layout body).1 = true → Squeezes 0 body) :
    ReadsAs (squeeze k 0 t) c.part.outline (squeeze (newlinesBehind k c.part.text) 0 rest) := by
  have hbehind : (∀ d, c ≠ .blank d) → newlinesBehind k c.part.text = 0 := by
    intro hc
    rw [c.part_text, (endsSolid_of_readConstruct h hc).newlinesBehind_eq]
  have hmark : opensMark t = true → ReadsAs (squeeze k 0 t) c.squeezed.part.outline (squeeze 0 0 rest) := by
    intro hmark
    refine readsAs_of_readConstruct ?_
    rw [readConstruct_squeeze hmark, h]
    rfl
  rcases readConstruct_cases h with ⟨inner, t, rfl, rfl, -⟩ | ⟨form, t, rfl, rfl, -⟩ | ⟨d, rfl, rfl, hb⟩ |
    ⟨header, body, d, t, rfl, rfl, hr, -⟩
  · rw [hbehind (by simp)]
    have hcomment := hmark rfl
    rwa [Construct.squeezed, Construct.part, outline] at hcomment
  · rw [hbehind (by simp), ← outline_squeezed_atRule]
    · exact hmark rfl
    · rintro name header body rfl hname
      exact keepsOutline_of_isSteady hname hsteady (hbody name header body rfl)
  · have hblank := readsAs_squeeze_blank hb k rest
    rwa [Construct.part, outline, text]
  · rw [Construct.part, isSteady, Bool.not_eq_true'] at hsteady
    rw [hbehind (by simp)]
    exact readsAs_squeeze_plain hr hsteady

/-- A steady text is read with the outline that it had. -/
theorem squeezes_of_isSteadyAll {k : Nat} {t : Text} (h : isSteadyAll k (layout t).2 (layout t).1 = true) :
    Squeezes k t := by
  induction t using construct_induction generalizing k with
  | stop t hnone =>
    have hread := readsAs_dropWhile (squeeze k 0 t)
    rw [layout_of_readConstruct_eq_none hnone, isSteadyAll] at h
    have hrest := layout_of_readConstruct_eq_none (readConstruct_remainder hnone h)
    rw [remainder] at hrest
    constructor
    · rw [hread.outline, hrest, layout_of_readConstruct_eq_none hnone]
      rfl
    · rw [hread.tail, hrest, layout_of_readConstruct_eq_none hnone]
      rfl
  | step t c rest hread ihbody ih =>
    rw [layout_of_readConstruct hread, isSteadyAll, Bool.and_eq_true] at h
    have hfront := readsAs_squeeze hread h.1 fun name header body hc => ihbody name header body hc
    have hrest := ih h.2
    constructor
    · rw [hfront.outline, hrest.outline, layout_of_readConstruct hread, outlineAll]
    · rw [hfront.tail, hrest.tail, layout_of_readConstruct hread, textAll_cons, newlinesBehind_append]

end Stylesheet

end Cull
