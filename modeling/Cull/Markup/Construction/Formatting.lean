import Cull.Markup.Construction.State

/-!
# Formatting elements

Elements such as `b` and `a` that are cut off by the end of a block are opened
again in the next one. The list of formatting elements, latest first, says
which; a marker in it hides the entries before it. When the end tag of a
formatting element comes while blocks are open inside it, the element is closed
before the block and a copy of it takes over the content of the block.
-/

namespace Cull.Markup

namespace Format

/-- The entry is for the given node. -/
def isFor (id : NodeId) : Format → Bool
  | .marker => false
  | .element e _ => e.id = id

/-- The tags have the same name and the same attributes, in any order. -/
def sameTag (a b : Tag) : Bool :=
  a.name = b.name && a.attributes.length = b.attributes.length && a.attributes.all (b.attributes.contains ·)

/-- The entries after the latest marker, latest first. -/
def visible : List Format → List (Opened × Tag)
  | .element e tag :: rest => (e, tag) :: visible rest
  | _ => []

/-- The latest visible entry of the given name. -/
def find? (entries : List Format) (tag : String) : Option (Opened × Tag) :=
  (visible entries).find? (·.2.name = tag)

/-- Takes the entry of a node out. -/
def remove (id : NodeId) (entries : List Format) : List Format := entries.eraseP (isFor id)

/-- Puts an entry in the place of that of a node. -/
def replace (id : NodeId) (entry : Format) (entries : List Format) : List Format :=
  entries.map fun f => if f.isFor id then entry else f

/-- Puts an entry directly after that of a node, that is, in front of it in the list. -/
def insertAfter (id : NodeId) (entry : Format) : List Format → List Format
  | [] => []
  | f :: rest => if f.isFor id then entry :: f :: rest else f :: insertAfter id entry rest

/-- The entries before the latest marker. -/
def dropToMarker : List Format → List Format
  | [] => []
  | .marker :: rest => rest
  | .element _ _ :: rest => dropToMarker rest

/-- The entries with the earliest visible one like the tag taken out, if there are three or more. -/
def makeRoom (tag : Tag) (entries : List Format) : List Format :=
  let alike := (visible entries).filter fun (_, t) => sameTag t tag
  match alike.getLast? with
  | some (e, _) => if alike.length ≥ 3 then remove e.id entries else entries
  | none => entries

end Format

namespace Build

/-- Changes the list of formatting elements. -/
def modifyFormatting (f : List Format → List Format) : Build Unit :=
  modify fun s => { s with formatting := f s.formatting }

/-- Hides the formatting elements so far. -/
def pushMarker : Build Unit := modifyFormatting (.marker :: ·)

/-- Drops the entries after the latest marker, and the marker. -/
def clearToMarker : Build Unit := modifyFormatting Format.dropToMarker

/-- Opens a formatting element. -/
def openFormatting (tag : Tag) : Build Outcome := do
  modifyFormatting (Format.makeRoom tag)
  let e ← openTag tag
  modifyFormatting (.element e tag :: ·)
  return .done

/-- The entries that are to be opened again, earliest first: those after the latest that is a
marker or an open element. -/
def closedEntries (stack : List Opened) : List Format → List (Opened × Tag)
  | .element e tag :: rest =>
    if stack.any (·.id = e.id) then [] else closedEntries stack rest ++ [(e, tag)]
  | _ => []

/-- Opens the formatting elements again that have been cut off. -/
def reconstruct : Build Unit := do
  let s ← get
  for (e, tag) in closedEntries s.stack s.formatting do
    let copy ← openTag tag
    modifyFormatting (Format.replace e.id (.element copy tag))

/-- Where the entry of the copy of a formatting element goes. -/
inductive Bookmark where
  /-- In the place of the entry of the element itself. -/
  | itself
  /-- Directly after the entry of another element. -/
  | after (id : NodeId)

/-- Takes the entry of a node out and puts another one at the bookmark. -/
def Bookmark.move (mark : Bookmark) (id : NodeId) (entry : Format) (entries : List Format) : List Format :=
  match mark with
  | .itself => Format.replace id entry entries
  | .after other => Format.remove id (Format.insertAfter other entry entries)

/-- The open elements between a block and the formatting element around it, innermost first, are
replaced by copies of which each holds the one before; those that are not formatting elements, and
all but the first three, are closed. Returns the elements that stay open, the outermost node and
the bookmark. -/
def copyBetween (count : Nat) (last : NodeId) (mark : Bookmark) :
    List Opened → Build (List Opened × NodeId × Bookmark)
  | [] => return ([], last, mark)
  | e :: rest => do
    let entry := (← get).formatting.findSome? fun
      | .element o tag => if o.id = e.id then some tag else none
      | .marker => none
    match entry with
    | none => copyBetween (count + 1) last mark rest
    | some tag =>
      if count ≥ 3 then
        modifyFormatting (Format.remove e.id)
        copyBetween (count + 1) last mark rest
      else
        let id ← create (.element ⟨.html tag.name, tag.attributes⟩)
        let copy : Opened := ⟨id, .html tag.name⟩
        modifyFormatting (Format.replace e.id (.element copy tag))
        putAt (.last id) (.node last)
        let mark := match mark with
          | .itself => .after id
          | .after other => .after other
        let (copies, last, mark) ← copyBetween (count + 1) id mark rest
        return (copy :: copies, last, mark)

/-- Closes an open element that is not special, with all that is open inside it, or does nothing
if there is a special one further in. -/
def closeOrdinary (tag : String) : Build Unit := do
  let rec reach : List Opened → Option (List Opened)
    | [] => none
    | e :: rest =>
      if e.name.isOneOf [tag] then some rest
      else if e.name.isSpecial then none
      else reach rest
  if (reach (← get).stack).isSome then
    implyEndsExcept tag
    popThroughTag tag

/-- Closes a formatting element before a block that is open inside it; a copy of it takes over the
content of the block. The open elements are those inside the block, the block, those between it
and the formatting element, this one, and those around it, innermost first. -/
def takeOver (fmt : Opened) (fmtTag : Tag) (inner : List Opened) (block : Opened) (between outside : List Opened) :
    Build Unit := do
  let (copies, last, mark) ← copyBetween 0 block.id .itself between
  modify fun s => { s with stack := inner ++ block :: copies ++ fmt :: outside }
  modify fun s => { s with doc := s.doc.detach last }
  putUnder outside (.node last)
  let id ← create (.element ⟨.html fmtTag.name, fmtTag.attributes⟩)
  let copy : Opened := ⟨id, .html fmtTag.name⟩
  modify fun s => { s with doc := (s.doc.reparentChildren block.id id).append block.id (.node id) }
  modifyFormatting (mark.move fmt.id (.element copy fmtTag))
  modify fun s => { s with stack := inner ++ copy :: block :: copies ++ outside }

/-- One round of closing a formatting element; `false` when there is nothing more to do. -/
def closeFormattingOnce (tag : String) : Build Bool := do
  let s ← get
  match Format.find? s.formatting tag with
  | none =>
    closeOrdinary tag
    return false
  | some (fmt, fmtTag) =>
    match s.stack.span (·.id ≠ fmt.id) with
    | (_, []) =>
      modifyFormatting (Format.remove fmt.id)
      return false
    | (within, _ :: outside) =>
      if !reaches s.stack (·.id = fmt.id) (·.boundsScope) then
        return false
      match within.reverse.span (!·.name.isSpecial) with
      | (_, []) =>
        modify fun s => { s with stack := outside }
        modifyFormatting (Format.remove fmt.id)
        return false
      | (between, block :: inner) =>
        takeOver fmt fmtTag inner.reverse block between.reverse outside
        return true

/-- Up to the given number of rounds of closing a formatting element. -/
def closeFormattingRounds (tag : String) : Nat → Build Unit
  | 0 => pure ()
  | n + 1 => do
    if ← closeFormattingOnce tag then closeFormattingRounds tag n

/-- Handles the end tag of a formatting element. -/
def closeFormatting (tag : String) : Build Unit := do
  let s ← get
  match s.stack with
  | e :: _ =>
    if e.name.isOneOf [tag] && !s.formatting.any (·.isFor e.id) then pop
    else closeFormattingRounds tag 8
  | [] => pure ()

end Build

end Cull.Markup
