import Cull.Proofs.Outline
import Cull.Proofs.Pieces
import Cull.Proofs.ProtectedText
import Cull.Usage.Collection
import Mathlib.Tactic.ByContra

/-!
# What a page refers to is kept

A class or an id of an element reaches the usage set through the index of the
page: the walk over the tree notes the values of the attributes, and each value is
then cut into tokens. The walk does not go below a script, so what is said here is
said of the elements that stand in no script (`mentions_subset_of_located`).

The value of a `class` attribute is a list of names, and each of them becomes a
token (`word_mem_classNames`); but a value that begins with `.` or `#` is read as a
selector, and then only the names that carry a mark do (`class_behind_mark_lost`).

Whatever else is collected before or after the page, its tokens stay in the set,
and a plain rule with one of them in one of its selectors stays
(`spares_of_token_mem`).
-/

namespace Cull

open Text

/-! ### Words -/

namespace Text

/-- Trimming leaves the words as they are. -/
theorem words_trim (t : Text) : words (trim t) = words t := by
  obtain ⟨b, b', ht, hb, hb'⟩ := Selector.exists_trim t
  have hwords : words t = words (b ++ (trim t ++ b')) := congrArg words ht
  rw [hwords, words_blanks_append hb, words_append_blanks hb']

/-- A text without blanks is not changed by trimming. -/
theorem trim_eq_self {t : Text} (h : ∀ c ∈ t, isBlank c = false) : trim t = t := by
  obtain ⟨b, b', ht, hb, hb'⟩ := Selector.exists_trim t
  have hnone : ∀ x : Text, (∀ c ∈ x, isBlank c = true) → x ⊆ t → x = [] := by
    intro x hx hsub
    rw [List.eq_nil_iff_forall_not_mem]
    intro c hc
    exact absurd (hx c hc) (by rw [h c (hsub hc)]; decide)
  have hb₀ : b = [] := hnone b hb fun c hc => by rw [ht]; exact List.mem_append_left _ hc
  have hb₁ : b' = [] := hnone b' hb' fun c hc => by
    rw [ht]
    exact List.mem_append_right _ (List.mem_append_right _ hc)
  rw [hb₀, hb₁, List.nil_append, List.append_nil] at ht
  exact ht.symm

end Text

namespace Reference

/-- Each name of a value that does not begin with a mark is a token. -/
theorem word_mem_classNames {v w : Text} (hmark : isMarked (trim v) = false) (hw : w ∈ words v) :
    '.' :: w ∈ classNames v := by
  simp only [classNames, hmark, words_trim]
  exact List.mem_map_of_mem hw

/-- A value that begins with a mark gives the tokens of a selector. -/
theorem token_mem_classNames {v t : Text} (hmark : isMarked (trim v) = true) (ht : t ∈ Selector.tokens v) :
    t ∈ classNames v := by
  simp only [classNames, hmark, selector, parts, Selector.tokens_trim]
  exact List.mem_append_right _ ht

theorem mem_id {v : Text} (hne : v ≠ []) (hv : ∀ c ∈ v, isBlank c = false) : '#' :: v ∈ id v := by
  simp [id, trim_eq_self hv, hne]

end Reference

/-! ### The walk over the tree -/

namespace Markup

/-- The element that a node is, if it is one. -/
def NodeKind.element? : NodeKind → Option Element
  | .element e => some e
  | _ => none

namespace Tree

mutual

/-- The elements of a tree, each with the elements around it, the innermost first. -/
def locatedIn (around : List Element) : Tree → List (Element × List Element)
  | node (.element e) children => (e, around) :: locatedAll (e :: around) children
  | node _ children => locatedAll around children

/-- The elements of several trees, each with the elements around it. -/
def locatedAll (around : List Element) : List Tree → List (Element × List Element)
  | [] => []
  | t :: ts => locatedIn around t ++ locatedAll around ts

end

/-- The elements of a tree, each with the elements around it, the innermost first. -/
def located (t : Tree) : List (Element × List Element) := locatedIn [] t

theorem locatedIn_node (around : List Element) (kind : NodeKind) (children : List Tree) :
    locatedIn around (.node kind children) =
      kind.element?.toList.map (·, around) ++ locatedAll (kind.element?.toList ++ around) children := by
  cases kind <;> simp [locatedIn, NodeKind.element?]

/-- Induction on a list of trees, and on the trees under each of them. -/
theorem trees_induction {motive : List Tree → Prop} (nil : motive [])
    (cons : ∀ kind children ts, motive children → motive ts → motive (.node kind children :: ts)) :
    ∀ ts, motive ts
  | [] => nil
  | .node kind children :: ts =>
    cons kind children ts (trees_induction nil cons children) (trees_induction nil cons ts)

/-- The elements with what is around them are the elements in document order. -/
theorem map_fst_located (t : Tree) : t.located.map Prod.fst = t.elements := by
  have hall : ∀ (ts : List Tree) (around : List Element) (depth : Nat),
      (locatedAll around ts).map Prod.fst = (preorders depth ts).filterMap (·.2.element?) := by
    intro ts
    induction ts using trees_induction with
    | nil => simp [locatedAll, preorders]
    | cons kind children ts ihchildren ih =>
      intro around depth
      rw [locatedAll, locatedIn_node, preorders, preorder]
      cases kind <;> simp [NodeKind.element?, ihchildren _ (depth + 1), ih around depth]
  have hone := hall [t] [] 0
  rw [locatedAll, locatedAll, List.append_nil, preorders, preorders, List.append_nil] at hone
  rw [located, hone, elements]
  congr 1
  funext p
  rcases p with ⟨depth, kind⟩
  cases kind <;> rfl

/-- What is around several trees is around every element in them. -/
theorem around_subset_of_mem {around : List Element} {ts : List Tree} {p : Element × List Element}
    (h : p ∈ locatedAll around ts) : around ⊆ p.2 := by
  induction ts using trees_induction generalizing around with
  | nil => simp [locatedAll] at h
  | cons kind children ts ihchildren ih =>
    rw [locatedAll, locatedIn_node, List.mem_append, List.mem_append] at h
    rcases h with (h | h) | h
    · obtain ⟨e, -, rfl⟩ := List.mem_map.1 h
      exact List.Subset.refl _
    · exact List.Subset.trans (List.subset_append_right _ _) (ihchildren h)
    · exact ih h

/-- The attributes of an element that stands in no script are among what its tree mentions. -/
theorem mentions_subset_of_located {around : List Element} {ts : List Tree} {p : Element × List Element}
    (h : p ∈ locatedAll around ts) (hscript : ∀ a ∈ p.2, a.isScript = false) : p.1.mentions ⊆ mentionsAll ts := by
  induction ts using trees_induction generalizing around with
  | nil => simp [locatedAll] at h
  | cons kind children ts ihchildren ih =>
    rw [locatedAll, List.mem_append] at h
    rw [mentionsAll]
    rcases h with h | h
    · refine List.subset_append_of_subset_left _ ?_
      cases kind with
      | element e =>
        rw [locatedIn, List.mem_cons] at h
        rw [mentions]
        rcases h with rfl | h
        · exact List.subset_append_left _ _
        · -- the element around is no script, so the walk goes on below it
          rw [hscript e (around_subset_of_mem h (.head _))]
          exact List.subset_append_of_subset_right _ (ihchildren h)
      | root => exact ihchildren h
      | text t => exact ihchildren h
      | comment => exact ihchildren h
    · exact List.subset_append_of_subset_right _ (ih h)

end Tree

/-- The sorted values of one kind are those that are mentioned. -/
theorem mem_sortedSet_filterMap {kind? : Mention → Option Text} {kind : Text → Mention}
    (hkind : ∀ m v, kind? m = some v ↔ m = kind v) {ms : List Mention} {v : Text} :
    v ∈ sortedSet (ms.filterMap kind?) ↔ kind v ∈ ms := by
  simp [hkind]

theorem Index.mem_classes {page v : Text} :
    v ∈ (Index.ofPage page).classes ↔ .classes v ∈ (Tree.ofPage page).mentions :=
  mem_sortedSet_filterMap fun m v => by cases m <;> simp [Mention.classes?]

theorem Index.mem_ids {page v : Text} : v ∈ (Index.ofPage page).ids ↔ .id v ∈ (Tree.ofPage page).mentions :=
  mem_sortedSet_filterMap fun m v => by cases m <;> simp [Mention.id?]

theorem Element.classes_mem_mentions {e : Element} {v : Text} (h : e.attribute? "class" = some v) (hv : trim v ≠ []) :
    .classes v ∈ e.mentions := by
  simp [mentions, attributeUnlessBlank?, h, hv]

theorem Element.id_mem_mentions {e : Element} {v : Text} (h : e.attribute? "id" = some v) (hv : trim v ≠ []) :
    .id v ∈ e.mentions := by
  simp [mentions, attributeUnlessBlank?, h, hv]

end Markup

open Markup

/-! ### The tokens of a page -/

/-- Where the tokens of a page come from. -/
theorem mem_pageTokens {page t : Text} :
    t ∈ pageTokens page ↔
      (∃ v ∈ (Index.ofPage page).classes, t ∈ Reference.classNames v) ∨
      (∃ v ∈ (Index.ofPage page).ids, t ∈ Reference.id v) ∨
      (∃ v ∈ (Index.ofPage page).filters, Reference.isMarked v = true ∧ t ∈ Reference.selector v) ∨
      (∃ b ∈ (Index.ofPage page).scripts, t ∈ Context.script.tokens b) ∨
      (∃ b ∈ (Index.ofPage page).templates, b.length < page.length ∧ t ∈ pageTokens b) ∨
      t ∈ Context.markup.tokens page := by
  have htemplate : ∀ b : Text, t ∈ (if _h : b.length < page.length then pageTokens b else []) ↔
      b.length < page.length ∧ t ∈ pageTokens b := by
    intro b
    by_cases hb : b.length < page.length <;> simp [hb]
  rw [pageTokens]
  simp only [List.mem_append, List.mem_flatMap, List.mem_filter, htemplate, or_assoc, and_assoc]

/-- The mentions of the elements that stand in no script are mentions of the page. -/
theorem mem_mentions_of_located {page : Text} {e : Element} {around : List Element}
    (h : (e, around) ∈ (Tree.ofPage page).located) (hscript : ∀ a ∈ around, a.isScript = false) {m : Mention}
    (hm : m ∈ e.mentions) : m ∈ (Tree.ofPage page).mentions := by
  have hone : (e, around) ∈ Tree.locatedAll [] [Tree.ofPage page] := by
    rw [Tree.locatedAll, Tree.locatedAll, List.append_nil]
    exact h
  have hsub := Tree.mentions_subset_of_located hone hscript hm
  rwa [Tree.mentionsAll, Tree.mentionsAll, List.append_nil] at hsub

/-! ### Rules with a token in use -/

/-- A plain rule with a token in the set is not touched. -/
theorem Stylesheet.spares_of_token_mem {css : Text} {u : Usage} {r : PlainRule} (hr : .plain r ∈ (parse css).nodes)
    {s t : Text} (hs : s ∈ r.selectors) (ht : t ∈ Selector.tokens s) (hu : t ∈ u) :
    ((parse css).plan u).Spares r.span := by
  have hlevel := wellFormed_parse css
  have hidle : ¬ (Rule.plain r).Idle u := fun hunreferenced => (hunreferenced s hs).2 t ht hu
  have hstays := hlevel.not_covers_of_not_idle (selecting_readRules 0 css) hr hidle
  exact hlevel.spares_leaf _ hr trivial hstays

/-- No byte of the rule goes, and if others go, it stands whole between what is left before it and what is
left behind it; then blank lines are reduced. -/
structure PlainRule.Survives (css : Text) (u : Usage) (r : PlainRule) : Prop where
  /-- No planned span touches the rule. -/
  spared : ((Stylesheet.parse css).plan u).Spares r.span
  /-- The rule is in the new text. -/
  whole : ∀ text n, prune css u = .changed text n → ∃ x y, css = x ++ (r.text ++ y) ∧ byteLength x = r.span.start ∧
    text = Pruned.collapseBlankLines (((Stylesheet.parse css).plan u).kept 0 x ++
      (r.text ++ ((Stylesheet.parse css).plan u).kept r.span.stop y))

theorem PlainRule.survives_of_spares {css : Text} {u : Usage} {r : PlainRule}
    (hr : .plain r ∈ (Stylesheet.parse css).nodes) (hspares : ((Stylesheet.parse css).plan u).Spares r.span) :
    r.Survives css u := by
  refine ⟨hspares, fun text n hprune => ?_⟩
  have htext : r.span.slice? css = some r.text := (Stylesheet.wellFormed_parse css).node_text hr
  obtain ⟨x, y, hcss, hstart, hstop⟩ := slice?_eq_some r.span.ordered htext
  refine ⟨x, y, hcss, hstart, ?_⟩
  have hkept := Plan.kept_append_of_spares (Span.eq_ofText hstart hstop ▸ hspares) y
  rw [byteLength_append, hstop, ← hcss] at hkept
  rw [Pruned.collapseBlankLines_eq_squeeze, ← hkept]
  exact prune_eq_changed hprune

/-- Whatever is collected before and after the page, the token is in the set, and every plain rule with
the token in one of its selectors survives. -/
def KeepsInUse (page t : Text) : Prop :=
  ∀ (u : Usage) (before after : List Evidence),
    t ∈ ((u.collect before).add (.page page)).collect after ∧
    ∀ css r, .plain r ∈ (Stylesheet.parse css).nodes → (∃ s ∈ r.selectors, t ∈ Selector.tokens s) →
      r.Survives css (((u.collect before).add (.page page)).collect after)

theorem keepsInUse_of_mem_pageTokens {page t : Text} (h : t ∈ pageTokens page) : KeepsInUse page t := by
  intro u before after
  have hmem : t ∈ ((u.collect before).add (.page page)).collect after := by
    rw [Usage.mem_collect, Usage.mem_add]
    exact .inl (.inr h)
  refine ⟨hmem, fun css r hr hselector => ?_⟩
  obtain ⟨s, hs, ht⟩ := hselector
  exact PlainRule.survives_of_spares hr (Stylesheet.spares_of_token_mem hr hs ht hmem)

/-- Every element of a page is listed with the elements around it. If none of these is a script, the page keeps
in use what the element refers to: each name of a `class` attribute, if the value does not begin with a mark; else
each marked name of the value; and an `id`. -/
theorem page_references_survive (page : Text) :
    (Tree.ofPage page).located.map Prod.fst = (Tree.ofPage page).elements ∧
    ∀ e around, (e, around) ∈ (Tree.ofPage page).located → (∀ a ∈ around, a.isScript = false) →
      (∀ v, e.attribute? "class" = some v → Reference.isMarked (trim v) = false →
        ∀ w ∈ words v, KeepsInUse page ('.' :: w)) ∧
      (∀ v, e.attribute? "class" = some v → Reference.isMarked (trim v) = true →
        ∀ t ∈ Selector.tokens v, KeepsInUse page t) ∧
      ∀ v, e.attribute? "id" = some v → v ≠ [] → (∀ c ∈ v, isNameChar c = true) → KeepsInUse page ('#' :: v) := by
  refine ⟨Tree.map_fst_located _, fun e around h hscript => ?_⟩
  have hclass : ∀ v t, e.attribute? "class" = some v → trim v ≠ [] → t ∈ Reference.classNames v → KeepsInUse page t := by
    intro v t hv hne ht
    have hmention := mem_mentions_of_located h hscript (Element.classes_mem_mentions hv hne)
    exact keepsInUse_of_mem_pageTokens (mem_pageTokens.2 (.inl ⟨v, Index.mem_classes.2 hmention, ht⟩))
  refine ⟨fun v hv hmark w hw => ?_, fun v hv hmark t ht => ?_, fun v hv hne hname => ?_⟩
  · refine hclass v _ hv ?_ (Reference.word_mem_classNames hmark hw)
    -- a blank value has no words
    intro hblank
    rw [← words_trim, hblank] at hw
    cases hw
  · refine hclass v t hv ?_ (Reference.token_mem_classNames hmark ht)
    intro hblank
    rw [hblank] at hmark
    cases hmark
  · have hsolid : ∀ c ∈ v, isBlank c = false := by
      intro c hc
      by_contra hblank
      rw [Bool.not_eq_false] at hblank
      exact absurd (hname c hc) (by rw [Selector.isNameChar_of_isBlank hblank]; decide)
    have hmention := mem_mentions_of_located h hscript
      (Element.id_mem_mentions hv (by rwa [trim_eq_self hsolid]))
    have htoken := Reference.mem_id hne hsolid
    exact keepsInUse_of_mem_pageTokens (mem_pageTokens.2 (.inr (.inl ⟨v, Index.mem_ids.2 hmention, htoken⟩)))

/-- An element of a drawing keeps its second class and its id in use. -/
theorem page_references_survive_drawing :
    (⟨⟨.svg, "g"⟩, [⟨"class", "a b".toList⟩, ⟨"id", "x".toList⟩]⟩,
        [⟨⟨.svg, "svg"⟩, []⟩, ⟨⟨.html, "body"⟩, []⟩, ⟨⟨.html, "html"⟩, []⟩]) ∈
      (Tree.ofPage "<svg><g class='a b' id=x></g></svg>".toList).located ∧
    (∀ a ∈ ([⟨⟨.svg, "svg"⟩, []⟩, ⟨⟨.html, "body"⟩, []⟩, ⟨⟨.html, "html"⟩, []⟩] : List Element), a.isScript = false) ∧
    KeepsInUse "<svg><g class='a b' id=x></g></svg>".toList ".b".toList ∧
    KeepsInUse "<svg><g class='a b' id=x></g></svg>".toList "#x".toList := by
  have hlocated : (⟨⟨.svg, "g"⟩, [⟨"class", "a b".toList⟩, ⟨"id", "x".toList⟩]⟩,
        [⟨⟨.svg, "svg"⟩, []⟩, ⟨⟨.html, "body"⟩, []⟩, ⟨⟨.html, "html"⟩, []⟩]) ∈
      (Tree.ofPage "<svg><g class='a b' id=x></g></svg>".toList).located := by
    decide +kernel
  have hscript : ∀ a ∈ ([⟨⟨.svg, "svg"⟩, []⟩, ⟨⟨.html, "body"⟩, []⟩, ⟨⟨.html, "html"⟩, []⟩] : List Element),
      a.isScript = false := by
    decide +kernel
  obtain ⟨hclass, -, hid⟩ := (page_references_survive _).2 _ _ hlocated hscript
  refine ⟨hlocated, hscript, ?_, ?_⟩
  · exact hclass "a b".toList (by decide +kernel) (by decide +kernel) "b".toList (by decide +kernel)
  · have hname : "x".toList.all isNameChar = true := by decide +kernel
    exact hid "x".toList (by decide +kernel) (by decide) (List.all_eq_true.1 hname)

/-- A name behind a mark in the same value is lost, and so is the name of an element inside the script of
a drawing; the rules for the two names go. -/
theorem class_behind_mark_lost :
    (∃ e ∈ (Tree.ofPage "<p class='.a b'>".toList).elements, e.attribute? "class" = some ".a b".toList ∧
      "b".toList ∈ words ".a b".toList ∧ "b".toList.all isNameChar = true ∧
      ".b".toList ∉ Usage.empty.add (.page "<p class='.a b'>".toList) ∧
      prune ".b\x7bc:1\x7d".toList (Usage.empty.add (.page "<p class='.a b'>".toList)) = .changed [] 1) ∧
    ∃ e ∈ (Tree.ofPage "<svg><script><g class=x>".toList).elements, e.attribute? "class" = some "x".toList ∧
      "x".toList ∈ words "x".toList ∧ "x".toList.all isNameChar = true ∧
      ".x".toList ∉ Usage.empty.add (.page "<svg><script><g class=x>".toList) ∧
      prune ".x\x7bc:1\x7d".toList (Usage.empty.add (.page "<svg><script><g class=x>".toList)) = .changed [] 1 := by
  refine ⟨⟨⟨⟨.html, "p"⟩, [⟨"class", ".a b".toList⟩]⟩, ?_, ?_, ?_, ?_, ?_, ?_⟩,
    ⟨⟨⟨.svg, "g"⟩, [⟨"class", "x".toList⟩]⟩, ?_, ?_, ?_, ?_, ?_, ?_⟩⟩
  · decide +kernel
  · decide +kernel
  · decide +kernel
  · decide +kernel
  · rw [← Usage.contains_iff]
    decide +kernel
  · decide +kernel
  · decide +kernel
  · decide +kernel
  · decide +kernel
  · decide +kernel
  · rw [← Usage.contains_iff]
    decide +kernel
  · decide +kernel

end Cull
