import Cull.Proofs.ExactTokens
import Cull.Proofs.PageReferences

/-!
# The order of collecting

`Usage.add` computes the tokens of a piece of evidence on their own and then adds them.
`Gather` works on one set throughout: every token that is found is put into the set at
once, by whatever finds it, a class, an id, a match of a rule, or a script or a template
inside a page, and so on into the templates of templates. Both come to the same set, token
for token (`Gather.step_eq`), so nothing that is added depends on what is in the set
already. Hence a collected set has the tokens it starts from and those that each piece of
evidence alone adds to an empty set, in whatever order and however often the pieces come.
-/

namespace Cull

open Text Markup

/-! ### Trimmed tokens -/

namespace Text

theorem not_isBlank_of_mem_words {t w : Text} (h : w ∈ words t) : ∀ c ∈ w, isBlank c = false :=
  sep_eq_false_of_mem_splitOn (List.mem_filter.1 h).1

theorem isBlank_of_isNameChar {c : Char} (h : isNameChar c = true) : isBlank c = false := by
  cases hblank : isBlank c with
  | false => rfl
  | true => exact absurd h (by rw [Selector.isNameChar_of_isBlank hblank]; decide)

/-- A token holds no blanks. -/
theorem trim_token {t : Text} (h : Selector.IsToken t) : trim t = t := by
  obtain ⟨c, name, rfl, hc, -, hname⟩ := h
  refine trim_eq_self (List.forall_mem_cons.2 ⟨?_, fun d hd => isBlank_of_isNameChar (hname d hd)⟩)
  rcases hc with rfl | rfl
  · rfl
  · rfl

/-- Nothing is left to trim behind a character in front of a trimmed text. -/
theorem trim_cons_trim {c : Char} (hc : isBlank c = false) (t : Text) : trim (c :: trim t) = c :: trim t := by
  have hstart : trimStart (c :: trim t) = c :: trim t := by simp [trimStart, hc]
  have hlast : ((trimStart t).reverse.dropWhile isBlank ++ [c]).dropWhile isBlank =
      (trimStart t).reverse.dropWhile isBlank ++ [c] := by
    cases hd : (trimStart t).reverse.dropWhile isBlank with
    | nil => simp [hc]
    | cons d rest =>
      have hhead := List.head?_dropWhile_not isBlank (trimStart t).reverse
      rw [hd] at hhead
      exact List.dropWhile_cons_of_neg (by simpa using hhead)
  rw [trim, hstart, trimEnd, List.reverse_cons, trim, trimEnd, List.reverse_reverse, hlast, List.reverse_append]
  rfl

end Text

/-! ### Token by token -/

namespace Gather

/-- Adds a token, trimmed, unless it is blank. -/
def token (u : Usage) (t : Text) : Usage := if (trim t).isEmpty then u else u.insert (trim t)

/-- Adds the class and id parts of a selector. -/
def parts (u : Usage) (s : Text) : Usage := (Selector.tokens s).foldl token u

/-- Adds a selector as it is, then its parts. -/
def selector (u : Usage) (s : Text) : Usage := parts (token u s) s

/-- Adds class names; a value that begins with a mark is a selector. -/
def classNames (u : Usage) (value : Text) : Usage :=
  let value := trim value
  if Reference.isMarked value then selector u value
  else (words value).foldl (fun u w => token u ('.' :: w)) u

/-- Adds an id. -/
def id (u : Usage) (value : Text) : Usage :=
  let value := trim value
  if value.isEmpty then u else token u ('#' :: value)

/-- Adds a text only if it begins with a mark. -/
def marked (u : Usage) (value : Text) : Usage := if Reference.isMarked value then selector u value else u

/-- Adds a captured text. -/
def capture : Reading → Usage → Text → Usage
  | .selector => selector
  | .markedSelector => marked
  | .classNames => classNames
  | .id => id
  | .parts => parts

/-- Adds what a rule finds, match by match, and counts the matches. -/
def rule (r : Extraction) (t : Text) (u : Usage) : Nat × Usage :=
  (r.captures t).foldl (fun s value => (s.1 + 1, capture r.reading s.2 value)) (0, u)

/-- Adds what the rules for a kind of text find, rule by rule, and counts the matches. -/
def rules (context : Context) (t : Text) (u : Usage) : Nat × Usage :=
  (Extraction.rulesFor context).foldl (fun s r => (s.1 + (rule r t s.2).1, (rule r t s.2).2)) (0, u)

/-- Adds what a script refers to. -/
def script (u : Usage) (t : Text) : Usage := (rules .script t u).2

/-- Adds what a page refers to: by its attributes, in its scripts, in its templates, and anywhere in
its text. -/
def page (u : Usage) (t : Text) : Usage :=
  let index := Index.ofPage t
  let u := index.classes.foldl classNames u
  let u := index.ids.foldl id u
  let u := index.filters.foldl marked u
  let u := index.scripts.foldl script u
  let u := index.templates.foldl (fun u b => if _h : b.length < t.length then page u b else u) u
  (rules .markup t u).2
termination_by t.length

/-- Adds a piece of evidence. -/
def step (u : Usage) : Evidence → Usage
  | .token t => token u t
  | .selector t => selector u t
  | .parts t => parts u t
  | .classNames t => classNames u t
  | .id t => id u t
  | .page t => page u t
  | .script t => script u t
  | .search context t => (rules context t u).2

/-- The set to start from. -/
def start (alwaysKeep : List Text) : Usage := alwaysKeep.foldl token .empty

/-! ### The set does not matter -/

variable {u : Usage}

theorem addAll_append (ts ts' : List Text) : u.addAll (ts ++ ts') = (u.addAll ts).addAll ts' := List.foldl_append

/-- If each step adds tokens of its own, all steps add all these tokens. -/
theorem foldl_eq_addAll {α : Type} {f : Usage → α → Usage} {tokens : α → List Text} {xs : List α}
    (h : ∀ u, ∀ x ∈ xs, f u x = u.addAll (tokens x)) : xs.foldl f u = u.addAll (xs.flatMap tokens) := by
  induction xs generalizing u with
  | nil => rfl
  | cons x xs ih =>
    rw [List.foldl_cons, h u x (.head _), ih fun u y hy => h u y (.tail _ hy), List.flatMap_cons, addAll_append]

theorem token_eq (u : Usage) (t : Text) : token u t = u.addAll (Reference.token t) := by
  unfold token Reference.token
  split <;> rfl

theorem token_of_trimmed {t : Text} (h : trim t = t) (hne : t ≠ []) : token u t = u.addAll [t] := by
  rw [token_eq, Reference.token, h, if_neg (by simpa using hne)]

theorem parts_eq (u : Usage) (s : Text) : parts u s = u.addAll (Reference.parts s) := by
  have hone : ∀ u, ∀ t ∈ Selector.tokens s, token u t = u.addAll [t] := by
    intro u t ht
    have htoken := Selector.isToken_of_mem_tokens ht
    refine token_of_trimmed (trim_token htoken) ?_
    obtain ⟨c, name, rfl, -⟩ := htoken
    simp
  rw [parts, foldl_eq_addAll hone, Reference.parts, List.flatMap_singleton']

theorem selector_eq (u : Usage) (s : Text) : selector u s = u.addAll (Reference.selector s) := by
  rw [selector, token_eq, parts_eq, Reference.selector, addAll_append]

theorem classNames_eq (u : Usage) (value : Text) : classNames u value = u.addAll (Reference.classNames value) := by
  unfold classNames Reference.classNames
  dsimp only
  split
  · exact selector_eq u _
  · have hone : ∀ u, ∀ w ∈ words (trim value), token u ('.' :: w) = u.addAll ['.' :: w] := by
      intro u w hw
      refine token_of_trimmed (trim_eq_self ?_) (by simp)
      exact List.forall_mem_cons.2 ⟨rfl, not_isBlank_of_mem_words hw⟩
    rw [foldl_eq_addAll hone, List.map_eq_flatMap]

theorem id_eq (u : Usage) (value : Text) : id u value = u.addAll (Reference.id value) := by
  unfold id Reference.id
  dsimp only
  split
  · rfl
  · exact token_of_trimmed (trim_cons_trim rfl value) (by simp)

theorem marked_eq (u : Usage) (value : Text) : marked u value = u.addAll (Reading.markedSelector.tokens value) := by
  rw [marked, Reading.tokens]
  split
  · exact selector_eq u value
  · rfl

/-- What is ignored adds nothing. -/
theorem flatMap_markedSelector (values : List Text) :
    values.flatMap Reading.markedSelector.tokens = (values.filter Reference.isMarked).flatMap Reference.selector := by
  induction values with
  | nil => rfl
  | cons value values ih =>
    rw [List.flatMap_cons, ih, Reading.tokens, List.filter_cons]
    split <;> rfl

theorem capture_eq (r : Reading) (u : Usage) (value : Text) : capture r u value = u.addAll (r.tokens value) := by
  cases r with
  | selector => exact selector_eq u value
  | markedSelector => exact marked_eq u value
  | classNames => exact classNames_eq u value
  | id => exact id_eq u value
  | parts => exact parts_eq u value

/-- A rule counts its matches and adds its tokens, whatever is in the set. -/
theorem rule_eq (r : Extraction) (t : Text) (u : Usage) :
    rule r t u = ((r.captures t).length, u.addAll (r.tokens t)) := by
  have hvalues : ∀ (values : List Text) (n : Nat) (u : Usage),
      values.foldl (fun s value => (s.1 + 1, capture r.reading s.2 value)) (n, u) =
        (n + values.length, u.addAll (values.flatMap r.reading.tokens)) := by
    intro values
    induction values with
    | nil => intro n u; rfl
    | cons value values ih =>
      intro n u
      rw [List.foldl_cons, ih, capture_eq, List.flatMap_cons, addAll_append, List.length_cons]
      congr 1
      omega
  rw [rule, hvalues, Nat.zero_add, Extraction.tokens]

theorem rules_eq (context : Context) (t : Text) (u : Usage) :
    rules context t u = (context.matches t, u.addAll (context.tokens t)) := by
  have hrules : ∀ (rs : List Extraction) (n : Nat) (u : Usage),
      rs.foldl (fun s r => (s.1 + (rule r t s.2).1, (rule r t s.2).2)) (n, u) =
        (rs.foldl (fun n r => n + (r.captures t).length) n, u.addAll (rs.flatMap (·.tokens t))) := by
    intro rs
    induction rs with
    | nil => intro n u; rfl
    | cons r rs ih =>
      intro n u
      rw [List.foldl_cons, ih, rule_eq, List.foldl_cons, List.flatMap_cons, addAll_append]
  rw [rules, hrules, Context.matches, Context.tokens]

theorem script_eq (u : Usage) (t : Text) : script u t = u.addAll (Context.script.tokens t) := by
  rw [script, rules_eq]

/-- A page adds the same to every set, to any depth of templates. -/
theorem page_eq (u : Usage) (t : Text) : page u t = u.addAll (pageTokens t) := by
  induction hn : t.length using Nat.strongRecOn generalizing u t with
  | ind n ih =>
    subst hn
    -- the templates are shorter, so what is known of pages holds for them
    have htemplate : ∀ u, ∀ b ∈ (Index.ofPage t).templates,
        (if _h : b.length < t.length then page u b else u) =
          u.addAll (if _h : b.length < t.length then pageTokens b else []) := by
      intro u b _
      split
      · next h => exact ih _ h u b rfl
      · rfl
    rw [page, pageTokens, rules_eq, foldl_eq_addAll htemplate, foldl_eq_addAll fun u b _ => script_eq u b,
      foldl_eq_addAll fun u v _ => marked_eq u v, foldl_eq_addAll fun u v _ => id_eq u v,
      foldl_eq_addAll fun u v _ => classNames_eq u v, flatMap_markedSelector]
    simp only [addAll_append]

/-- Token by token, a piece of evidence adds to a set what it adds to any other. -/
theorem step_eq (u : Usage) (e : Evidence) : step u e = u.add e := by
  cases e with
  | token t => exact token_eq u t
  | selector t => exact selector_eq u t
  | parts t => exact parts_eq u t
  | classNames t => exact classNames_eq u t
  | id t => exact id_eq u t
  | page t => exact page_eq u t
  | script t => exact script_eq u t
  | search context t => exact congrArg Prod.snd (rules_eq context t u)

theorem start_eq (alwaysKeep : List Text) : start alwaysKeep = .keeping alwaysKeep :=
  foldl_eq_addAll fun u t _ => token_eq u t

end Gather

/-! ### Sets of tokens -/

namespace Usage

variable {u v : Usage}

/-- Sets with the same members list the same tokens, maybe in another order. -/
theorem perm_of_mem_iff (h : ∀ t, t ∈ u ↔ t ∈ v) : u.tokens.Perm v.tokens :=
  (List.perm_ext_iff_of_nodup u.nodup v.nodup).2 h

theorem mem_empty_add {e : Evidence} {t : Text} : t ∈ empty.add e ↔ t ∈ e.tokens := by
  rw [mem_add]
  exact or_iff_right List.not_mem_nil

theorem subset_add (u : Usage) (e : Evidence) : u ⊆ u.add e := fun _ ht => mem_add.2 (.inl ht)

/-- Each piece of evidence adds what it adds to an empty set. -/
theorem mem_collect_iff {es : List Evidence} {t : Text} : t ∈ u.collect es ↔ t ∈ u ∨ ∃ e ∈ es, t ∈ empty.add e := by
  simp only [mem_collect, mem_empty_add]

theorem perm_collect {es es' : List Evidence} (h : ∀ e, e ∈ es' ↔ e ∈ es) :
    (u.collect es').tokens.Perm (u.collect es).tokens := by
  refine perm_of_mem_iff fun t => ?_
  simp only [mem_collect, h]

end Usage

theorem Directory.perm_collectUsage (d : Directory) {markup markup' scripts scripts' : List Text}
    (hmarkup : ∀ p, p ∈ markup' ↔ p ∈ markup) (hscripts : ∀ p, p ∈ scripts' ↔ p ∈ scripts) (alwaysKeep : List Text) :
    (d.collectUsage markup' scripts' alwaysKeep).1.tokens.Perm (d.collectUsage markup scripts alwaysKeep).1.tokens := by
  refine Usage.perm_of_mem_iff fun t => ?_
  rw [collectUsage_fst, collectUsage_fst, Usage.mem_ofTexts, Usage.mem_ofTexts]
  simp only [List.mem_filterMap, hmarkup, hscripts]

/-- Collected token by token or piece by piece, a set has the tokens that are always kept and those that each
piece of evidence adds to an empty set. So it does not matter in which order the pieces come or how often, nor
in which order a run lists its files; no piece takes a token away; and what the rules for a kind of text match and
add does not depend on the set. -/
theorem collection_ignores_order (alwaysKeep : List Text) (es : List Evidence) :
    es.foldl Gather.step (Gather.start alwaysKeep) = (Usage.keeping alwaysKeep).collect es ∧
    (∀ t, t ∈ (Usage.keeping alwaysKeep).collect es ↔
      t ∈ Usage.keeping alwaysKeep ∨ ∃ e ∈ es, t ∈ Usage.empty.add e) ∧
    (∀ es', (∀ e, e ∈ es' ↔ e ∈ es) →
      ((Usage.keeping alwaysKeep).collect es').tokens.Perm ((Usage.keeping alwaysKeep).collect es).tokens) ∧
    (∀ u e, Gather.step u e = u.add e ∧ u ⊆ u.add e) ∧
    (∀ context t u, Gather.rules context t u = (context.matches t, u.add (.search context t))) ∧
    ∀ (d : Directory) markup markup' scripts scripts', (∀ p, p ∈ markup' ↔ p ∈ markup) →
      (∀ p, p ∈ scripts' ↔ p ∈ scripts) →
        (d.collectUsage markup' scripts' alwaysKeep).1.tokens.Perm
          (d.collectUsage markup scripts alwaysKeep).1.tokens := by
  refine ⟨?_, fun t => Usage.mem_collect_iff, fun es' h => Usage.perm_collect h,
    fun u e => ⟨Gather.step_eq u e, u.subset_add e⟩, fun context t u => Gather.rules_eq context t u,
    fun d markup markup' scripts scripts' hmarkup hscripts => d.perm_collectUsage hmarkup hscripts alwaysKeep⟩
  have hstep : Gather.step = Usage.add := funext fun u => funext (Gather.step_eq u)
  rw [hstep, Gather.start_eq, Usage.collect]

/-- A page with a template, a script and a token. -/
def threePieces : List Evidence :=
  [.page "<script type=html><i class=a>".toList, .script "$('.b')".toList, .token "p".toList]

/-- The pieces in reverse order, and then once more in order. -/
theorem collection_ignores_order_reversed :
    (∀ e, e ∈ threePieces.reverse ++ threePieces ↔ e ∈ threePieces) ∧
      ((Usage.keeping ["q".toList]).collect threePieces).tokens =
        ["q".toList, ".a".toList, ".b".toList, "p".toList] ∧
      ((Usage.keeping ["q".toList]).collect (threePieces.reverse ++ threePieces)).tokens.Perm
        ["q".toList, ".a".toList, ".b".toList, "p".toList] := by
  have hsame : ∀ e, e ∈ threePieces.reverse ++ threePieces ↔ e ∈ threePieces := by simp
  have htokens : ((Usage.keeping ["q".toList]).collect threePieces).tokens =
      ["q".toList, ".a".toList, ".b".toList, "p".toList] := by
    decide +kernel
  exact ⟨hsame, htokens, htokens ▸ (collection_ignores_order ["q".toList] threePieces).2.2.1 _ hsame⟩

end Cull
