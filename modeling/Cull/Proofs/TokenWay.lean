import Cull.Markup.Construction.Rules

/-!
# The way of a token

A rule that has no use for a token hands it on to the rules of another mode. On its way the token
comes to modes of lower and lower rank, unless a selection, table or template is closed for it, of
which there are only so many. The rank depends on the token: most tags are handed from a row to the
rows around it and from these to the table, but the tag of a cell goes the other way.

A rule is a program of steps that ends by saying what is left to do. It shortens the way of a token
(`HandsOn`) if what it does before it hands the token on opens none of the elements that count
(`Lowers`), and trivially if it never hands the token on (`Settles`).
-/

namespace Cull.Markup

/-- There is nothing left to do with the token. -/
def Outcome.isFinal : Outcome → Bool
  | .again _ | .split => false
  | _ => true

/-- The token is a start tag of one of the names. -/
def Token.opensOneOf (tags : List String) : Token → Bool
  | .startTag tag => tags.contains tag.name
  | _ => false

/-- The token is the end tag of the given name. -/
def Token.isEndOf (tag : String) : Token → Bool
  | .endTag name => name = tag
  | _ => false

/-- The token is a text of blanks and other characters. -/
def Token.isMixed : Token → Bool
  | .text t => match Build.blankness t with
    | .mixed => true
    | _ => false
  | _ => false

/-- The elements whose end may send a token to any mode. -/
def hubTags : List String := ["select", "table", "template"]

/-- The end of the element may send a token to any mode. -/
def Opened.isHub (e : Opened) : Bool := e.name.isOneOf hubTags

theorem Opened.isHub_html (id : NodeId) (tag : String) : Opened.isHub ⟨id, .html tag⟩ = hubTags.contains tag := rfl

/-- The number of open elements whose end may send a token to any mode. -/
def State.hubs (s : State) : Nat := s.stack.countP Opened.isHub

namespace Build

/-- A mode hands a token on to modes of lower rank, if it does not close an element for it. -/
def rank (token : Token) : Mode → Nat
  | .initial => 12
  | .beforeHtml => 11
  | .beforeHead => 10
  | .inHead => 9
  | .afterHead => 8
  | .inTemplate | .afterAfterBody => 7
  | .inCell | .inCaption | .inSelect | .inSelectInTable => 6
  | .inColumnGroup => if token.opensOneOf ["col"] then 2 else 5
  | .inRow => if token.opensOneOf ["td", "th"] then 2 else 5
  | .inTable => if token.opensOneOf ["td", "th", "tr"] then 4 else 3
  | .inTableBody => if token.opensOneOf ["td", "th", "tr"] then 3 else 4
  | .afterBody => if token.isEndOf "html" then 0 else 2
  | .inBody => 1
  | _ => 0

theorem rank_le (token : Token) (mode : Mode) : rank token mode ≤ 12 := by
  fun_cases rank token mode <;> omega

/-- The modes of a table stand above the body and below what may stand around them. -/
theorem rank_tableMode {mode : Mode} (token : Token) (h : mode ∈ [.inTable, .inColumnGroup, .inTableBody, .inRow]) :
    1 < rank token mode ∧ rank token mode < 6 := by
  simp only [List.mem_cons, List.not_mem_nil, or_false] at h
  rcases h with rfl | rfl | rfl | rfl <;> simp only [rank] <;> split <;> decide

/-- A bound on how often a token is still to be handed on. No element is closed for a text. -/
def way (token : Token) (mode : Mode) (s : State) : Nat :=
  match token with
  | .text _ => rank token mode
  | _ => 16 * s.hubs + rank token mode

variable {token : Token} {mode next : Mode} {s s' : State}

theorem way_mono (h : s'.hubs ≤ s.hubs) : way token mode s' ≤ way token mode s := by
  unfold way
  split <;> omega

theorem way_lt_of_rank_lt (hhubs : s'.hubs ≤ s.hubs) (hrank : rank token next < rank token mode) :
    way token next s' < way token mode s := by
  unfold way
  split <;> omega

theorem way_lt_of_hubs_lt (htext : ∀ t, token ≠ .text t) (hhubs : s'.hubs < s.hubs) :
    way token next s' < way token mode s := by
  have hrank := rank_le token next
  unfold way
  split
  · exact absurd rfl (htext _)
  · omega

/-! ### Rules that dispose of their token -/

/-- The rule leaves nothing to do with its token. -/
def Settles (x : Build Outcome) : Prop := ∀ s, (x.run s).1.isFinal = true

theorem Settles.bind {α : Type} {x : Build α} {f : α → Build Outcome} (h : ∀ a, Settles (f a)) :
    Settles (x >>= f) := fun s => h (x.run s).1 (x.run s).2

@[simp]
theorem settles_pure {o : Outcome} : Settles (pure o) ↔ o.isFinal = true := ⟨fun h => h .start, fun h _ => h⟩

theorem Settles.ite {c : Prop} [Decidable c] {x y : Build Outcome} (hx : c → Settles x) (hy : ¬c → Settles y) :
    Settles (if c then x else y) := by
  split
  · next h => exact hx h
  · next h => exact hy h

theorem settles_done : Settles (pure .done) := settles_pure.2 rfl

@[simp]
theorem settles_putText (t : Text) : Settles (putText t) := fun _ => rfl

@[simp]
theorem settles_putComment : Settles putComment := fun _ => rfl

@[simp]
theorem settles_putCommentUnder (parent : NodeId) : Settles (putCommentUnder parent) := fun _ => rfl

@[simp]
theorem settles_voidTag (tag : Tag) : Settles (voidTag tag) := fun _ => rfl

@[simp]
theorem settles_openRaw (tag : Tag) (content : Lexer.Content) : Settles (openRaw tag content) := fun _ => rfl

@[simp]
theorem settles_openFormatting (tag : Tag) : Settles (openFormatting tag) := fun _ => rfl

@[simp]
theorem settles_openInline (tag : Tag) : Settles (openInline tag) := fun _ => rfl

@[simp]
theorem settles_openBlock (tag : Tag) : Settles (openBlock tag) := .bind fun _ => .bind fun _ => settles_done

@[simp]
theorem settles_insertVoid (tag : Tag) : Settles (insertVoid tag) := by
  refine .bind fun _ => ?_
  exact .ite (fun _ => .bind fun _ => settles_voidTag tag) fun _ => settles_voidTag tag

@[simp]
theorem settles_addRootAttributes (tag : Tag) : Settles (addRootAttributes tag) := by
  refine .bind fun s => .ite (fun _ => ?_) fun _ => settles_done
  split
  · exact .bind fun _ => settles_done
  · exact settles_done

@[simp]
theorem settles_openForeign (ns : Namespace) (name : String) (tag : Tag) : Settles (openForeign ns name tag) := by
  refine .bind fun e => ?_
  exact .ite (fun _ => .bind fun _ => settles_done) fun _ => settles_done

@[simp]
theorem settles_openListItem (tag : Tag) (items : List String) : Settles (openListItem tag items) := by
  refine .bind fun _ => .bind fun _ => ?_
  split <;> exact .bind fun _ => .bind fun _ => settles_done

@[simp]
theorem settles_putCommentUnderRoot : Settles putCommentUnderRoot := by
  refine .bind fun _ => ?_
  split
  · exact settles_putCommentUnder _
  · exact settles_done

/-- The rules in the head take the start tags that belong there. -/
theorem settles_inHead {tag : Tag} (h : headTags.contains tag.name = true) : Settles (inHead (.startTag tag)) := by
  unfold inHead
  repeat' first
    | with_reducible refine .ite (fun _ => ?_) fun _ => ?_
    | with_reducible refine .bind fun _ => ?_
    | simp [Outcome.isFinal]
  simp_all [headTags]

theorem settles_inHead_template : Settles (inHead (.endTag "template")) := by
  refine .bind fun _ => .ite (fun _ => ?_) fun _ => settles_done
  exact .bind fun _ => .bind fun _ => settles_done

theorem settles_startInBody (tag : Tag) : Settles (startInBody tag) := by
  unfold startInBody
  -- the cases by the name of the tag end in steps that are known to leave nothing to do
  repeat' first
    | with_reducible refine .ite (fun _ => ?_) fun _ => ?_
    | with_reducible refine .bind fun _ => ?_
    | split
    | exact settles_inHead ‹_›
    | simp [Outcome.isFinal]

/-- The only end tag that the rules in the body hand on is that of the root element. -/
theorem settles_endInBody {name : String} (h : name ≠ "html") : Settles (endInBody name) := by
  unfold endInBody
  repeat' first
    | with_reducible refine .ite (fun _ => ?_) fun _ => ?_
    | with_reducible refine .bind fun _ => ?_
    | exact absurd ‹_› h
    | simp [Outcome.isFinal]
  next htemplate => exact htemplate ▸ settles_inHead_template

/-! ### Steps that open none of the elements that count -/

/-- The step leaves no more elements open that may send a token to any mode. -/
def Lowers {α : Type} (x : Build α) : Prop := ∀ s, (x.run s).2.hubs ≤ s.hubs

theorem Lowers.bind {α β : Type} {x : Build α} {f : α → Build β} (hx : Lowers x) (hf : ∀ a, Lowers (f a)) :
    Lowers (x >>= f) := fun s => Nat.le_trans (hf _ (x.run s).2) (hx s)

theorem lowers_get : Lowers (get : Build State) := fun _ => Nat.le_refl _

theorem lowers_currentIsOneOf (tags : List String) : Lowers (currentIsOneOf tags) := fun _ => Nat.le_refl _

theorem lowers_currentIs (p : ElementName → Bool) : Lowers (currentIs p) := fun _ => Nat.le_refl _

theorem lowers_hasInScope (stop : ElementName → Bool) (tags : List String) : Lowers (hasInScope stop tags) :=
  fun _ => Nat.le_refl _

theorem lowers_clearToMarker : Lowers clearToMarker := fun _ => Nat.le_refl _

theorem lowers_pop : Lowers pop := fun s => (List.tail_sublist s.stack).countP_le

theorem lowers_popWhile (p : ElementName → Bool) : Lowers (popWhile p) :=
  fun s => (List.dropWhile_sublist (l := s.stack) _).countP_le

theorem lowers_popThrough (p : ElementName → Bool) : Lowers (popThrough p) :=
  fun s => ((List.tail_sublist _).trans (List.dropWhile_sublist (l := s.stack) _)).countP_le

theorem stack_put (child : Child) (s : State) : ((put child).run s).2.stack = s.stack := by
  show ((putUnder s.stack child).run s).2.stack = s.stack
  unfold putUnder
  split <;> rfl

theorem lowers_openTag {tag : Tag} (h : hubTags.contains tag.name = false) : Lowers (openTag tag) := by
  intro s
  let created := (create (.element ⟨.html tag.name, tag.attributes⟩)).run s
  have hput : ((put (.node created.1)).run created.2).2.stack = s.stack := stack_put _ _
  have hopened : ((openTag tag).run s).2.stack = ⟨created.1, .html tag.name⟩ :: s.stack := congrArg (_ :: ·) hput
  have hhub : ¬ Opened.isHub ⟨created.1, .html tag.name⟩ = true := by
    rw [Opened.isHub_html]
    exact Bool.eq_false_iff.1 h
  rw [State.hubs, hopened, List.countP_cons_of_neg hhub]
  exact Nat.le_refl _

theorem lowers_push {e : Opened} (h : e.isHub = false) : Lowers (push e) :=
  fun s => Nat.le_of_eq (List.countP_cons_of_neg (by simp [h]))

theorem lowers_createRoot (attributes : List Attribute) : Lowers (createRoot attributes) := by
  have hroot : hubTags.contains "html" = false := by decide
  exact .bind (fun _ => Nat.le_refl _) fun id => .bind (lowers_push hroot) fun _ _ => Nat.le_refl _

/-! ### Handing a token on -/

/-- The outcome is that the token has less than `n` of its way left, or is to be split and can be. -/
def Leaves (token : Token) (n : Nat) (r : Outcome × State) : Prop :=
  match r.1 with
  | .again next => way token next r.2 < n
  | .split => token.isMixed = true
  | _ => True

/-- Where the rule has no use for the token, the rest of its way is shorter. -/
def HandsOn (token : Token) (mode : Mode) (x : Build Outcome) : Prop :=
  ∀ s, Leaves token (way token mode s) (x.run s)

theorem Settles.handsOn {x : Build Outcome} (h : Settles x) : HandsOn token mode x := by
  intro s
  have hfinal := h s
  unfold Leaves
  split
  · next heq => simp [heq, Outcome.isFinal] at hfinal
  · next heq => simp [heq, Outcome.isFinal] at hfinal
  · trivial

theorem Leaves.mono {n m : Nat} {r : Outcome × State} (h : Leaves token n r) (hle : n ≤ m) : Leaves token m r := by
  unfold Leaves at h ⊢
  split at h
  · exact Nat.lt_of_lt_of_le h hle
  · exact h
  · trivial

theorem HandsOn.bind {α : Type} {x : Build α} {f : α → Build Outcome} (hx : Lowers x)
    (hf : ∀ a, HandsOn token mode (f a)) : HandsOn token mode (x >>= f) :=
  fun s => (hf (x.run s).1 (x.run s).2).mono (way_mono (hx s))

theorem HandsOn.ite {c : Prop} [Decidable c] {x y : Build Outcome} (hx : c → HandsOn token mode x)
    (hy : ¬c → HandsOn token mode y) : HandsOn token mode (if c then x else y) := by
  split
  · next h => exact hx h
  · next h => exact hy h

theorem handsOn_done : HandsOn token mode (pure .done) := fun _ => trivial

theorem handsOn_again (h : rank token next < rank token mode) : HandsOn token mode (pure (.again next)) :=
  fun _ => way_lt_of_rank_lt (Nat.le_refl _) h

/-- Texts of one kind are taken or handed on, and others are split. -/
theorem handsOn_text {t : Text} {x y : Build Outcome} (hx : HandsOn (.text t) mode x) (hy : HandsOn (.text t) mode y) :
    HandsOn (.text t) mode (match blankness t with | .mixed => pure .split | .blank => x | .solid => y) := by
  split
  · next h =>
    intro s
    show Token.isMixed (.text t) = true
    simp only [Token.isMixed, h]
  · exact hx
  · exact hy

/-! ### Closing an element for a token -/

theorem any_of_reaches {stack : List Opened} {target : Opened → Bool} {stop : ElementName → Bool}
    (h : reaches stack target stop = true) : stack.any target = true := by
  fun_induction reaches stack target stop with
  | case1 => cases h
  | case2 e rest ih =>
    simp only [Bool.or_eq_true, Bool.and_eq_true] at h
    rcases h with h | ⟨_, h⟩
    · simp [h]
    · simp [ih h]

theorem isHub_of_isOneOf {tag : String} {e : Opened} (htag : hubTags.contains tag = true)
    (he : e.name.isOneOf [tag] = true) : e.isHub = true := by
  simp only [ElementName.isOneOf, List.contains_cons, List.contains_nil, Bool.or_false, Bool.and_eq_true,
    beq_iff_eq] at he
  simp only [Opened.isHub, ElementName.isOneOf, he.1, he.2, htag, Bool.and_self]

theorem hubs_popThroughTag_lt {tag : String} (htag : hubTags.contains tag = true)
    (hopen : s.stack.any (·.name.isOneOf [tag]) = true) : ((popThroughTag tag).run s).2.hubs < s.hubs := by
  show (s.stack.dropWhile (!·.name.isOneOf [tag])).tail.countP Opened.isHub < s.stack.countP Opened.isHub
  generalize s.stack = stack at hopen ⊢
  induction stack with
  | nil => cases hopen
  | cons e stack ih =>
    by_cases he : e.name.isOneOf [tag] = true
    · simp [he, isHub_of_isOneOf htag he]
    · simp only [List.any_cons, he, Bool.false_or] at hopen
      simp only [List.dropWhile_cons, he, Bool.not_false, if_true]
      exact Nat.lt_of_lt_of_le (ih hopen) (List.sublist_cons_self e stack).countP_le

/-- Where an element has been closed for the token, it may go anywhere. -/
theorem leaves_popThroughTag {tag : String} (htext : ∀ t, token ≠ .text t) (htag : hubTags.contains tag = true)
    (hopen : s.stack.any (·.name.isOneOf [tag]) = true) :
    Leaves token (way token mode s) (StateT.run (do
      popThroughTag tag
      return .again (← fitting)) s) := way_lt_of_hubs_lt htext (hubs_popThroughTag_lt htag hopen)

theorem handsOn_closeInScope {tag : String} (htext : ∀ t, token ≠ .text t) (htag : hubTags.contains tag = true)
    (stop : ElementName → Bool) :
    HandsOn token mode (do
      if ← hasInScope stop [tag] then
        popThroughTag tag
        return .again (← fitting)
      else return .done) := by
  intro s
  show Leaves token (way token mode s)
    ((if reaches s.stack (·.name.isOneOf [tag]) stop = true then _ else _ : Build Outcome).run s)
  split
  · next h => exact leaves_popThroughTag htext htag (any_of_reaches h)
  · trivial

theorem handsOn_endInTemplate (htext : ∀ t, token ≠ .text t) : HandsOn token mode endInTemplate := by
  intro s
  show Leaves token (way token mode s)
    ((if s.stack.any (·.name.isOneOf ["template"]) = true then _ else _ : Build Outcome).run s)
  split
  · next h => exact way_lt_of_hubs_lt htext (hubs_popThroughTag_lt (by decide) h)
  · trivial

end Build

end Cull.Markup
