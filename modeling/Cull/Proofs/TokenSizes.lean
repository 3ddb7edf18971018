import Cull.Markup.Lexer.Step
import Cull.Proofs.Pieces

/-!
# Reading makes no text

The text of a page is read token by token, and each character in a token stands for at least one
character of the page that no other token stands for. Line ends become shorter, a character
reference stands for one or two characters but takes up as many, and a start tag takes up a
character without giving any. So what the tokens cost and what is left to read are together no
longer than what there was to read, at each step (`costs_step_le`) and where an element holds
nothing but text (`costs_readRawText_le`).
-/

namespace Cull.Markup

open Text Lexer

/-! ### The size of a token -/

/-- The number of characters that a token can add to a document. -/
def Token.size : Token → Nat
  | .text t => t.length
  | .nul => 1
  | _ => 0

/-- The number of characters that a token is known to take up. -/
def Token.cost : Token → Nat
  | .startTag _ => 1
  | t => t.size

/-- The number of characters that tokens are known to take up. -/
def costs : List Token → Nat
  | [] => 0
  | t :: ts => t.cost + costs ts

@[simp]
theorem costs_nil : costs [] = 0 := rfl

@[simp]
theorem costs_cons (t : Token) (ts : List Token) : costs (t :: ts) = t.cost + costs ts := rfl

@[simp]
theorem costs_append (ts us : List Token) : costs (ts ++ us) = costs ts + costs us := by
  induction ts with
  | nil => simp
  | cons t ts ih => simp [ih, Nat.add_assoc]

@[simp]
theorem Token.cost_text (t : Text) : (Token.text t).cost = t.length := rfl

@[simp]
theorem Token.cost_nul : Token.nul.cost = 1 := rfl

@[simp]
theorem Token.cost_startTag (tag : Tag) : (Token.startTag tag).cost = 1 := rfl

@[simp]
theorem Token.cost_endTag (name : String) : (Token.endTag name).cost = 0 := rfl

@[simp]
theorem Token.cost_comment : Token.comment.cost = 0 := rfl

@[simp]
theorem Token.cost_doctype (d : Doctype) : (Token.doctype d).cost = 0 := rfl

@[simp]
theorem Token.cost_fault : Token.fault.cost = 0 := rfl

theorem costs_chars (t : Text) : costs (t.map fun c => .text [c]) = t.length := by
  induction t with
  | nil => rfl
  | cons c t ih => simp [ih, Nat.add_comm]

/-! ### Character references -/

theorem NamedChar.length_value_le (n : NamedChar) : n.value.length ≤ 2 := by
  cases h : n.second <;> simp [value, h]

theorem length_readNumber_le (base : Nat) (digit? : Char → Option Nat) (n : Nat) (t : Text) :
    (readNumber base digit? n t).2.length ≤ t.length := by
  induction t generalizing n with
  | nil => simp [readNumber]
  | cons c t ih =>
    rw [readNumber]
    split
    · exact Nat.le_trans (ih _) (by simp)
    · exact Nat.le_refl _

/-- The name that has been found is not empty and no longer than what has been read, and it stands for at most two
characters. -/
theorem of_followNames {read : Nat} {best : Option (Nat × Text)} {names : List NamedChar} {t : Text} {n length : Nat}
    {value : Text} (h : followNames read best names t = (n, some (length, value))) :
    best = some (length, value) ∨ read < length ∧ length ≤ read + t.length ∧ value.length ≤ 2 := by
  induction t generalizing read best names with
  | nil => exact .inl (by simpa [followNames] using (Prod.mk.inj h).2)
  | cons c t ih =>
    rw [followNames] at h
    dsimp only at h
    split at h
    · exact .inl (Prod.mk.inj h).2
    · rcases ih h with hbest | ⟨hread, hlength, hvalue⟩
      · split at hbest
        · next found _ =>
          cases hbest
          exact .inr ⟨by omega, by simp, found.length_value_le⟩
        · exact .inl hbest
      · exact .inr ⟨by omega, by simp; omega, hvalue⟩

/-- What a reference stands for is an `&` if it is none. -/
def RefReading.text (r : RefReading) : Text := r.value.getD ['&']

theorem length_readDigits_le (base : Nat) (digit? : Char → Option Nat) {whole t : Text} (before : Nat)
    (h : t.length ≤ whole.length) :
    (readDigits base digit? whole before t).text.length + (readDigits base digit? whole before t).rest.length ≤
      whole.length + 1 := by
  have hnumber := length_readNumber_le base digit? 0 t
  unfold readDigits
  split
  · split
    · dsimp only
      split
      · next hrest =>
        simp only [RefReading.text, Option.getD_some, List.length_singleton]
        simp only [hrest, List.length_cons] at hnumber h
        omega
      · next hrest =>
        simp only [RefReading.text, Option.getD_some, List.length_singleton]
        omega
    · simp [RefReading.text, Nat.add_comm]
  · simp [RefReading.text, Nat.add_comm]

theorem length_readName_le (inAttribute : Bool) (t : Text) :
    (readName inAttribute t).text.length + (readName inAttribute t).rest.length ≤ t.length + 1 := by
  unfold readName
  split
  · simp [RefReading.text, Nat.add_comm]
  · next read length value hfollow =>
    extract_lets bare runsOn
    split
    · simp [RefReading.text, Nat.add_comm]
    · rcases of_followNames hfollow with hbest | ⟨hread, hlength, hvalue⟩
      · cases hbest
      · simp [RefReading.text]
        omega

/-- A reference, with its `&`, is no shorter than what it stands for. -/
theorem length_readRef_le (inAttribute : Bool) (t : Text) :
    (readRef inAttribute t).text.length + (readRef inAttribute t).rest.length ≤ t.length + 1 := by
  unfold readRef
  split
  · exact length_readDigits_le _ _ _ (by simp; omega)
  · exact length_readDigits_le _ _ _ (by simp; omega)
  · exact length_readDigits_le _ _ _ (by simp)
  · split
    · exact length_readName_le _ _
    · simp [RefReading.text, Nat.add_comm]
  · simp [RefReading.text]

theorem length_decodeRefsFrom_le (inAttribute : Bool) (fuel : Nat) (t : Text) :
    (decodeRefsFrom inAttribute fuel t).length ≤ t.length := by
  fun_induction decodeRefsFrom inAttribute fuel t with
  | case1 => exact Nat.le_refl _
  | case2 => exact Nat.le_refl _
  | case3 fuel t r value hvalue ih =>
    have hr := length_readRef_le inAttribute t
    simp only [RefReading.text] at hr
    simp [r] at hvalue ih ⊢
    simp [hvalue] at hr
    omega
  | case4 fuel t r hvalue ih => simpa using ih
  | case5 fuel c t hc ih => simpa using ih

theorem length_decodeRefs_le (inAttribute : Bool) (t : Text) : (decodeRefs inAttribute t).length ≤ t.length :=
  length_decodeRefsFrom_le inAttribute _ t

/-! ### Tags -/

theorem length_normalizeNewlines_le (t : Text) : (normalizeNewlines t).length ≤ t.length := by
  fun_induction normalizeNewlines t with
  | case1 => exact Nat.le_refl _
  | case2 t ih =>
    simp only [List.length_cons]
    omega
  | case3 c t _ ih => simpa using ih

theorem length_clean_le (t : Text) : (replaceNul (normalizeNewlines t)).length ≤ t.length := by
  simpa [replaceNul] using length_normalizeNewlines_le t

theorem suffix_of_dropWhile_eq {p : Char → Bool} {t rest : Text} {c : Char} (h : t.dropWhile p = c :: rest) :
    rest <:+ t := by
  have hdrop := List.dropWhile_suffix (l := t) p
  rw [h] at hdrop
  exact (List.suffix_cons c rest).trans hdrop

theorem suffix_of_readValue {t value rest : Text} (h : readValue t = some (value, rest)) : rest <:+ t := by
  unfold readValue at h
  split at h
  · cases h
  · next c more hdrop =>
    split at h
    · split at h
      · cases h
      · next hquote =>
        cases h
        exact (suffix_of_dropWhile_eq hquote).trans (suffix_of_dropWhile_eq hdrop)
    · cases h
      rw [← hdrop]
      exact (List.dropWhile_suffix _).trans (List.dropWhile_suffix _)

theorem suffix_of_readAttribute {first : Char} {t rest : Text} {a : Attribute}
    (h : readAttribute first t = some (a, rest)) : rest <:+ t := by
  have hname : (t.dropWhile (!endsAttributeName ·)).dropWhile isAsciiBlank <:+ t :=
    (List.dropWhile_suffix _).trans (List.dropWhile_suffix _)
  unfold readAttribute at h
  dsimp only at h
  split at h
  · cases h
  · next more hmore =>
    rw [hmore] at hname
    split at h
    · cases h
    · next hvalue =>
      cases h
      exact (suffix_of_readValue hvalue).trans ((List.suffix_cons '=' more).trans hname)
  · cases h
    exact hname

theorem suffix_of_readAttributes {attributes attributes' : List Attribute} {fuel : Nat} {t rest : Text}
    {selfClosing : Bool} (h : readAttributes attributes fuel t = some (attributes', selfClosing, rest)) :
    rest <:+ t := by
  fun_induction readAttributes attributes fuel t with
  | case1 => cases h
  | case2 => cases h
  | case3 _ _ t more hdrop =>
    cases h
    exact suffix_of_dropWhile_eq hdrop
  | case4 _ _ t more hdrop =>
    cases h
    exact (List.suffix_cons '>' _).trans (suffix_of_dropWhile_eq hdrop)
  | case5 _ _ t more _ hdrop ih => exact (ih h).trans (suffix_of_dropWhile_eq hdrop)
  | case6 => cases h
  | case7 _ _ t c more _ _ _ hdrop a rest hattribute ih =>
    exact (ih h).trans ((suffix_of_readAttribute hattribute).trans (suffix_of_dropWhile_eq hdrop))

theorem suffix_of_readTag {t rest : Text} {tag : Tag} (h : readTag t = some (tag, rest)) : rest <:+ t := by
  unfold readTag at h
  dsimp only at h
  split at h
  · cases h
  · next hattributes =>
    cases h
    exact (suffix_of_readAttributes hattributes).trans (List.dropWhile_suffix _)

/-! ### Comments, doctypes and character data -/

theorem skipBogusComment_suffix (t : Text) : skipBogusComment t <:+ t :=
  (List.tail_suffix _).trans (List.dropWhile_suffix _)

theorem skipCommentEnd_suffix (t : Text) : skipCommentEnd t <:+ t := by
  fun_induction skipCommentEnd t with
  | case1 t => exact ⟨['-', '-', '>'], rfl⟩
  | case2 t => exact ⟨['-', '-', '!', '>'], rfl⟩
  | case3 c t _ _ ih => exact ih.trans (List.suffix_cons c t)
  | case4 => exact List.suffix_refl _

theorem skipComment_suffix (t : Text) : skipComment t <:+ t := by
  unfold skipComment
  split
  · exact List.suffix_cons _ _
  · exact ⟨['-', '>'], rfl⟩
  · exact skipCommentEnd_suffix t

theorem suffix_of_readIdentifier {quote : Char} {t s rest : Text} {flag : Bool}
    (h : readIdentifier quote t = some (s, flag, rest)) : rest <:+ t := by
  unfold readIdentifier at h
  dsimp only at h
  split at h
  · cases h
  · next hdrop =>
    cases h
    exact suffix_of_dropWhile_eq hdrop

theorem readDoctypeEnd_suffix (d : Doctype) (t : Text) : (readDoctypeEnd d t).2 <:+ t := by
  unfold readDoctypeEnd
  split
  · exact List.nil_suffix
  · next hdrop => exact suffix_of_dropWhile_eq hdrop
  · exact (skipBogusComment_suffix _).trans (List.dropWhile_suffix _)

theorem readSystem_suffix (d : Doctype) (quote : Char) (t : Text) : (readSystem d quote t).2 <:+ t := by
  unfold readSystem
  split
  · exact List.nil_suffix
  · next hread => exact suffix_of_readIdentifier hread
  · next hread => exact (readDoctypeEnd_suffix _ _).trans (suffix_of_readIdentifier hread)

/-- What is left of a doctype that goes wrong behind blanks. -/
theorem bogusDoctype_suffix {d : Doctype} {t rest : Text} {c : Char} (h : t.dropWhile isAsciiBlank = c :: rest) :
    (bogusDoctype d (c :: rest)).2 <:+ t := by
  rw [← h]
  exact (skipBogusComment_suffix _).trans (List.dropWhile_suffix _)

theorem readAfterSystem_suffix (d : Doctype) (t : Text) : (readAfterSystem d t).2 <:+ t := by
  unfold readAfterSystem
  split
  · exact List.nil_suffix
  · next hdrop =>
    split
    · exact (readSystem_suffix _ _ _).trans (suffix_of_dropWhile_eq hdrop)
    · exact bogusDoctype_suffix hdrop

theorem readBetween_suffix (d : Doctype) (t : Text) : (readBetween d t).2 <:+ t := by
  unfold readBetween
  split
  · exact List.nil_suffix
  · next hdrop =>
    split
    · exact suffix_of_dropWhile_eq hdrop
    · split
      · exact (readSystem_suffix _ _ _).trans (suffix_of_dropWhile_eq hdrop)
      · exact bogusDoctype_suffix hdrop

theorem readAfterPublic_suffix (d : Doctype) (t : Text) : (readAfterPublic d t).2 <:+ t := by
  unfold readAfterPublic
  split
  · exact List.nil_suffix
  · next hdrop =>
    split
    · split
      · exact List.nil_suffix
      · next hread => exact (suffix_of_readIdentifier hread).trans (suffix_of_dropWhile_eq hdrop)
      · next hread =>
        exact (readBetween_suffix _ _).trans ((suffix_of_readIdentifier hread).trans (suffix_of_dropWhile_eq hdrop))
    · exact bogusDoctype_suffix hdrop

theorem suffix_of_dropWord? {word : String} {t rest : Text} (h : dropWord? word t = some rest) : rest <:+ t := by
  unfold dropWord? at h
  split at h
  · cases h
    exact List.drop_suffix _ t
  · cases h

theorem readDoctype_suffix (t : Text) : (readDoctype t).2 <:+ t := by
  unfold readDoctype
  dsimp only
  split
  · exact List.nil_suffix
  · next hdrop => exact suffix_of_dropWhile_eq hdrop
  · have hname : ((t.dropWhile isAsciiBlank).dropWhile
        (!(fun c => isAsciiBlank c || decide (c = '>')) ·)).dropWhile isAsciiBlank <:+ t :=
      (List.dropWhile_suffix _).trans ((List.dropWhile_suffix _).trans (List.dropWhile_suffix _))
    split
    · exact List.nil_suffix
    · next hrest =>
      rw [hrest] at hname
      exact (List.suffix_cons _ _).trans hname
    · split
      · next hword => exact (readAfterPublic_suffix _ _).trans ((suffix_of_dropWord? hword).trans hname)
      · next _ hword => exact (readAfterSystem_suffix _ _).trans ((suffix_of_dropWord? hword).trans hname)
      · exact (skipBogusComment_suffix _).trans hname

theorem length_readSection_le (t : Text) : (readSection t).1.length + (readSection t).2.length ≤ t.length := by
  fun_induction readSection t with
  | case1 t => simp; omega
  | case2 c t _ inside rest hread ih =>
    simp only [hread, List.length_cons] at ih ⊢
    omega
  | case3 => exact Nat.le_refl _

@[simp]
theorem costs_textTokens (t : Text) : costs (textTokens t) = t.length := by
  cases t <;> rfl

theorem costs_splitNul (t : Text) : costs (splitNul t) = t.length := by
  induction t with
  | nil => rfl
  | cons c t ih =>
    obtain ⟨first, more, hpieces⟩ := List.exists_cons_of_ne_nil (splitOn_ne_nil (· = '\x00') t)
    simp only [splitNul, hpieces, costs_append, costs_textTokens] at ih
    by_cases hc : c = '\x00'
    · simp only [splitNul, splitOn, hpieces, hc, decide_true, if_true, List.flatMap_cons, List.cons_append, costs_cons,
        costs_append, costs_textTokens, Token.cost_nul, List.length_nil, List.length_cons]
      omega
    · simp only [splitNul, splitOn, hpieces, hc, decide_false, Bool.false_eq_true, if_false, costs_append,
        costs_textTokens, List.length_cons]
      omega

theorem costs_readCharacterData_le (t : Text) :
    costs (readCharacterData t).1 + (readCharacterData t).2.length ≤ t.length := by
  have hsection := length_readSection_le t
  have hinside := length_normalizeNewlines_le (readSection t).1
  simp only [readCharacterData, costs_splitNul]
  omega

/-! ### Steps -/

theorem suffix_of_dropLead? {lead t rest : Text} (h : dropLead? lead t = some rest) : rest <:+ t := by
  fun_induction dropLead? lead t with
  | case1 t =>
    cases h
    exact List.suffix_refl _
  | case2 => cases h
  | case3 lead c t ih => exact (ih h).trans (List.suffix_cons c t)
  | case4 => cases h

theorem costs_readDeclaration_le (foreign : Bool) (t : Text) :
    costs (readDeclaration foreign t).1 + (readDeclaration foreign t).2.length ≤ t.length := by
  have hbogus := (skipBogusComment_suffix t).length_le
  unfold readDeclaration
  split
  · next rest hrest => simpa using ((skipComment_suffix rest).trans (suffix_of_dropLead? hrest)).length_le
  · next rest _ hrest => simpa using ((readDoctype_suffix rest).trans (suffix_of_dropWord? hrest)).length_le
  · next rest _ _ hrest =>
    split
    · exact Nat.le_trans (costs_readCharacterData_le rest) (suffix_of_dropLead? hrest).length_le
    · simpa using hbogus
  · simpa using hbogus

/-- What begins with `<` takes up that character, too. -/
theorem costs_readMarkup_le (foreign : Bool) (t : Text) :
    costs (readMarkup foreign t).1 + (readMarkup foreign t).2.text.length ≤ t.length + 1 := by
  unfold readMarkup
  split
  · simp [Source.ofText]
  · next t =>
    have hdeclaration := costs_readDeclaration_le foreign t
    simp only [Source.ofText, List.length_cons]
    omega
  · next t =>
    have hbogus := (skipBogusComment_suffix t).length_le
    simp only [Source.ofText, costs_cons, costs_nil, Token.cost_comment, List.length_cons]
    omega
  · simp [Source.ofText]
  · next c t =>
    split
    · split
      · simp [Source.ofText]
      · next hread =>
        have hrest := (suffix_of_readTag hread).length_le
        simp only [Source.ofText, costs_cons, costs_nil, Token.cost_endTag, List.length_cons] at hrest ⊢
        omega
    · split
      · simp [Source.ofText]
        omega
      · have hbogus := (skipBogusComment_suffix (c :: t)).length_le
        simp only [Source.ofText, costs_cons, costs_nil, Token.cost_comment, List.length_cons] at hbogus ⊢
        omega
  · next c t _ _ _ _ =>
    split
    · split
      · simp [Source.ofText]
      · next hread =>
        have hrest := (suffix_of_readTag hread).length_le
        simp only [Source.ofText, costs_cons, costs_nil, Token.cost_startTag, List.length_cons] at hrest ⊢
        omega
    · simp
      omega

theorem costs_readRefTokens_le (t : Text) :
    costs (readRefTokens t).1 + (readRefTokens t).2.text.length ≤ t.length + 1 := by
  have href := length_readRef_le false t
  unfold readRefTokens
  dsimp only
  split
  · next value hvalue =>
    rw [RefReading.text, hvalue, Option.getD_some] at href
    dsimp only
    split
    · simpa [costs_chars] using href
    · simpa [costs_chars] using href
  · next hvalue =>
    rw [RefReading.text, hvalue, Option.getD_none] at href
    simpa using href

theorem Source.length_of_next? {s : Source} {c : Char} {taken : Nat} {t : Text} (h : s.next? = some (c, taken, t)) :
    t.length + 1 ≤ s.text.length := by
  unfold Source.next? at h
  split at h
  · cases h
  · next hs =>
    rw [hs]
    split at h
    · split at h
      · cases h
      · cases h
        simp
    · cases h
      simp

/-- A run lies in the text that is left, whether or not it may reach past a seam. -/
theorem length_run_le (reaches : Prop) [Decidable reaches] (seam : Nat) (t : Text) :
    ((if reaches then t else t.take seam).takeWhile (!breaksRun ·)).length ≤ t.length := by
  split
  · exact (List.takeWhile_prefix _).length_le
  · exact ((List.takeWhile_prefix _).trans (List.take_prefix seam t)).length_le

/-- The tokens of a step cost no more than the text that they take up. -/
theorem costs_step_le {s s' : Source} {foreign : Bool} {tokens : List Token}
    (h : s.step foreign = some (tokens, s')) : costs tokens + s'.text.length ≤ s.text.length := by
  unfold Source.step at h
  split at h
  · cases h
  · next c taken t hnext =>
    have hlength := Source.length_of_next? hnext
    dsimp only at h
    split at h
    · cases h
      simpa [Nat.add_comm] using hlength
    · split at h
      · have href := costs_readRefTokens_le t
        rw [Option.some.inj h] at href
        exact Nat.le_trans href hlength
      · split at h
        · have hmarkup := costs_readMarkup_le foreign t
          rw [Option.some.inj h] at hmarkup
          exact Nat.le_trans hmarkup hlength
        · split at h
          · cases h
            simpa [Nat.add_comm] using hlength
          · split at h
            · cases h
              simpa [Nat.add_comm] using hlength
            · cases h
              have hrun := length_run_le (s.seam = 0) (s.seam - taken) t
              simp only [costs_cons, costs_nil, Token.cost_text, List.length_cons, List.length_drop]
              omega

theorem length_dropByteOrderMark_le (t : Text) : (dropByteOrderMark t).length ≤ t.length := by
  fun_cases dropByteOrderMark t <;> simp

/-! ### Text that holds no tags -/

theorem length_beforeEndTag (name : String) (t : Text) :
    (beforeEndTag name t).1.length + (beforeEndTag name t).2.length = t.length := by
  fun_induction beforeEndTag name t with
  | case1 => rfl
  | case2 => simp
  | case3 c t _ inside rest hread ih =>
    simp only [hread, List.length_cons] at ih ⊢
    omega

theorem length_beforeScriptEnd (name : String) (s : Script) (t : Text) :
    (beforeScriptEnd name s t).1.length + (beforeScriptEnd name s t).2.length = t.length := by
  fun_induction beforeScriptEnd name s t with
  | case1 => rfl
  | case2 => simp
  | case3 s c t _ inside rest hread ih =>
    simp only [hread, List.length_cons] at ih ⊢
    omega

theorem costs_escapableTokens_le (t : Text) : costs (escapableTokens t) ≤ t.length := by
  have hdecode := length_decodeRefs_le false t
  unfold escapableTokens
  dsimp only
  split
  · simpa using hdecode
  · simpa using hdecode

/-- The text that an element holds costs no more than what is read for it. -/
theorem costs_readRawText_le (content : Content) (name : String) (t : Text) :
    costs (readRawText content name t).1 + (readRawText content name t).2.length ≤ t.length := by
  cases content with
  | escapable =>
    have hsplit := length_beforeEndTag name t
    have hclean := length_clean_le (beforeEndTag name t).1
    have htokens := costs_escapableTokens_le (replaceNul (normalizeNewlines (beforeEndTag name t).1))
    simp only [readRawText]
    omega
  | verbatim =>
    have hsplit := length_beforeEndTag name t
    have hclean := length_clean_le (beforeEndTag name t).1
    simp only [readRawText, costs_textTokens]
    omega
  | script =>
    have hsplit := length_beforeScriptEnd name .outside t
    have hclean := length_clean_le (beforeScriptEnd name .outside t).1
    simp only [readRawText, costs_textTokens]
    omega
  | plain => simpa [readRawText] using length_clean_le t

end Cull.Markup
