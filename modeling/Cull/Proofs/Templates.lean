import Cull.Proofs.PageReferences
import Cull.Proofs.PageText

/-!
# Templates in templates

The text of a template is read as a page of its own, which may hold templates again. It is text of the
page in which it stands, and the script around it has an attribute that says that it is a template,
so that it is shorter than that page. Reading templates in templates therefore comes to an end, and
the bound on the length of a template by which `pageTokens` is defined leaves none out.
-/

namespace Cull

open Markup

namespace Markup

/-! ### Templates and the text of a tree -/

theorem Element.template_not_mem_mentions {e : Element} {body : Text} : .template body ∉ e.mentions := by
  simp [Element.mentions]

theorem Element.attributes_ne_nil_of_holdsTemplate {e : Element} (h : e.holdsTemplate = true) : e.attributes ≠ [] := by
  intro hnil
  simp [holdsTemplate, attribute?, hnil] at h

/-- A template of a tree is the whole text under its topmost node, which has attributes then, or it is
a template of what stands under that node. -/
theorem Tree.template_mem_mentions_node {kind : NodeKind} {children : List Tree} {body : Text}
    (h : .template body ∈ (Tree.node kind children).mentions) :
    (∃ e, kind = .element e ∧ e.attributes ≠ [] ∧ body = textContents children) ∨
      .template body ∈ mentionsAll children := by
  cases kind with
  | element e =>
    rw [mentions, List.mem_append] at h
    rcases h with h | h
    · exact absurd h Element.template_not_mem_mentions
    · split at h
      · unfold Element.mentionsBody at h
        split at h
        · cases h
        · split at h
          · next hholds =>
            refine .inl ⟨e, rfl, e.attributes_ne_nil_of_holdsTemplate hholds, ?_⟩
            simpa using h
          · simp at h
      · exact .inr h
  | _ => exact .inr h

theorem Tree.mem_mentionsAll {ts : List Tree} {m : Mention} : m ∈ mentionsAll ts ↔ ∃ t ∈ ts, m ∈ t.mentions := by
  induction ts with
  | nil => simp [mentionsAll]
  | cons t ts ih => simp [mentionsAll, ih]

/-- A template is part of the text of the trees in which it stands. -/
theorem Tree.length_le_of_template {ts : List Tree} {body : Text} (h : .template body ∈ mentionsAll ts) :
    body.length ≤ (textContents ts).length := by
  induction ts using trees_induction with
  | nil => cases h
  | cons kind children ts ihchildren ih =>
    rw [textContents, textContent, List.length_append, List.length_append]
    rw [mentionsAll, List.mem_append] at h
    rcases h with h | h
    · rcases template_mem_mentions_node h with ⟨e, -, -, rfl⟩ | h
      · omega
      · have hchildren := ihchildren h
        omega
    · have hts := ih h
      omega

/-- A template stands in an element with attributes. -/
theorem Document.attributes_of_template {d : Document} {depth : Nat} {id : NodeId} {body : Text}
    (h : .template body ∈ (d.treeFrom depth id).mentions) :
    ∃ n e, (d.node n).kind = .element e ∧ e.attributes ≠ [] := by
  induction depth generalizing id with
  | zero =>
    rcases Tree.template_mem_mentions_node h with ⟨e, hkind, hne, -⟩ | h
    · exact ⟨id, e, hkind, hne⟩
    · cases h
  | succ depth ih =>
    rcases Tree.template_mem_mentions_node h with ⟨e, hkind, hne, -⟩ | h
    · exact ⟨id, e, hkind, hne⟩
    · obtain ⟨t, ht, hmention⟩ := Tree.mem_mentionsAll.1 h
      obtain ⟨child, -, rfl⟩ := List.mem_map.1 ht
      exact ih hmention

/-- A template is shorter than the page in which it stands. -/
theorem Index.length_lt_of_template {page body : Text} (h : body ∈ (Index.ofPage page).templates) :
    body.length < page.length := by
  obtain ⟨m, hm, hbody⟩ := List.mem_filterMap.1 h
  obtain rfl : m = .template body := by
    cases m <;> simp_all [Mention.template?]
  have htext : body.length ≤ (Document.ofPage page).tree.textContent.length := by
    have hone := Tree.length_le_of_template (Tree.mem_mentionsAll.2 ⟨_, List.mem_singleton_self _, hm⟩)
    simpa [Tree.textContents, Tree.ofPage] using hone
  obtain ⟨id, e, he, hattributes⟩ := Document.attributes_of_template hm
  calc body.length
    _ ≤ (Document.ofPage page).tree.textContent.length := htext
    _ ≤ (Document.ofPage page).size := (Document.linked_ofPage page).length_textContent_tree_le
    _ < page.length := Document.size_ofPage_lt he hattributes

end Markup

/-- **Templates shrink.** A template has fewer characters than the page in which it stands. So there
is no endless sequence of templates in templates, and the tokens of a page are those of its own
references, those of its templates, each read as a page, and those that are found in its text. -/
theorem templates_in_templates_end (page : Text) :
    (∀ body ∈ (Index.ofPage page).templates, body.length < page.length) ∧
      Acc (fun body page => body ∈ (Index.ofPage page).templates) page ∧
      pageTokens page =
        (Index.ofPage page).classes.flatMap Reference.classNames ++
          (Index.ofPage page).ids.flatMap Reference.id ++
          ((Index.ofPage page).filters.filter Reference.isMarked).flatMap Reference.selector ++
          (Index.ofPage page).scripts.flatMap Context.script.tokens ++
          (Index.ofPage page).templates.flatMap pageTokens ++
          Context.markup.tokens page := by
  refine ⟨fun _ => Index.length_lt_of_template, ?_, ?_⟩
  · exact Subrelation.accessible Index.length_lt_of_template (InvImage.accessible List.length (Nat.lt_wfRel.wf.apply _))
  · have hall : (Index.ofPage page).templates.flatMap
        (fun body => if _h : body.length < page.length then pageTokens body else []) =
        (Index.ofPage page).templates.flatMap pageTokens :=
      List.flatMap_congr fun body hbody => dif_pos (Index.length_lt_of_template hbody)
    rw [pageTokens, hall]

/-- A template in a template. In a script, `--!>` does not end what `<!--` has begun, so that the inner end tag is not
the end of the outer script; in a page it does, so that the inner script is none of the comment. -/
theorem templates_in_templates_end_twice :
    "<!----!><script type=html>x</script>".toList ∈
        (Index.ofPage "<script type=html><!----!><script type=html>x</script></script>".toList).templates ∧
      "x".toList ∈ (Index.ofPage "<!----!><script type=html>x</script>".toList).templates ∧
      "x".toList.length < "<!----!><script type=html>x</script>".toList.length ∧
      "<!----!><script type=html>x</script>".toList.length <
        "<script type=html><!----!><script type=html>x</script></script>".toList.length := by
  have houter : "<!----!><script type=html>x</script>".toList ∈
      (Index.ofPage "<script type=html><!----!><script type=html>x</script></script>".toList).templates := by
    decide +kernel
  have hinner : "x".toList ∈ (Index.ofPage "<!----!><script type=html>x</script>".toList).templates := by
    decide +kernel
  exact ⟨houter, hinner, (templates_in_templates_end _).1 _ hinner, (templates_in_templates_end _).1 _ houter⟩

end Cull
