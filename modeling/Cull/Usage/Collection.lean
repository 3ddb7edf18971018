import Cull.Markup.Index
import Cull.Usage.Extraction

/-!
# Collecting usage

A usage set is collected from pieces of evidence: tokens, selectors, class
names and ids that are given outright, pages, and scripts. Each piece adds its
own tokens, whatever has been collected before.

A page adds what its elements refer to, what its scripts refer to, what its
templates refer to when they are read as pages themselves, and what the rules
for markup find in its text. A template is shorter than the page it stands in.
-/

namespace Cull

open Markup

/-- The tokens of the text of a page. -/
def pageTokens (page : Text) : List Text :=
  let index := Index.ofPage page
  index.classes.flatMap Reference.classNames ++
    index.ids.flatMap Reference.id ++
    (index.filters.filter Reference.isMarked).flatMap Reference.selector ++
    index.scripts.flatMap Context.script.tokens ++
    index.templates.flatMap (fun t => if _h : t.length < page.length then pageTokens t else []) ++
    Context.markup.tokens page
termination_by page.length

/-- A piece of evidence that something is in use. -/
inductive Evidence where
  /-- A token as it is. -/
  | token (t : Text)
  /-- A selector. -/
  | selector (t : Text)
  /-- The class and id parts of a selector. -/
  | parts (t : Text)
  /-- Class names. -/
  | classNames (t : Text)
  /-- The name of an id. -/
  | id (t : Text)
  /-- The text of a page. -/
  | page (t : Text)
  /-- The text of a script. -/
  | script (t : Text)
  /-- A text that is searched by the rules for a context. -/
  | search (context : Context) (t : Text)

namespace Evidence

/-- The tokens that a piece of evidence adds. -/
def tokens : Evidence → List Text
  | token t => Reference.token t
  | selector t => Reference.selector t
  | parts t => Reference.parts t
  | classNames t => Reference.classNames t
  | id t => Reference.id t
  | page t => pageTokens t
  | script t => Context.script.tokens t
  | search context t => context.tokens t

end Evidence

namespace Usage

/-- Adds a piece of evidence. -/
def add (u : Usage) (e : Evidence) : Usage := u.addAll e.tokens

/-- Adds pieces of evidence one after the other. -/
def collect (u : Usage) (es : List Evidence) : Usage := es.foldl add u

@[simp]
theorem mem_add {u : Usage} {e : Evidence} {t : Text} : t ∈ u.add e ↔ t ∈ u ∨ t ∈ e.tokens := by simp [add]

@[simp]
theorem mem_collect {u : Usage} {es : List Evidence} {t : Text} :
    t ∈ u.collect es ↔ t ∈ u ∨ ∃ e ∈ es, t ∈ e.tokens := by
  induction es generalizing u with
  | nil => simp [collect]
  | cons e rest ih =>
    simp only [collect, List.foldl_cons] at ih ⊢
    rw [ih, mem_add]
    simp [or_assoc]

end Usage

end Cull
