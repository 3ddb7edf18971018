import Cull.Files.Content
import Cull.Files.Path

/-!
# Directories

What there is on a disk is listed from the root on; a location is the list of
names that lead there. Everything has a name and stands in a directory, and one
of the directories is the working directory. A path is followed part by part,
from the root if it begins with a slash and from the working directory if not.
Each part but the last has to lead to a directory; two dots lead to the
directory above, which for the root is the root itself.

There are files and directories, and no links: each name leads to one place, and
no two locations are the same file. Nobody is kept from reading or writing what
is there.
-/

namespace Cull

/-- The names that lead from the root to a place. -/
abbrev Location := List Text

/-- What stands at a location. -/
inductive Entry where
  /-- A file. -/
  | file (content : Content)
  /-- A directory. -/
  | directory
  deriving DecidableEq

/-- Why a file cannot be read or written. -/
inductive Fault where
  /-- Nothing is there. -/
  | missing
  /-- A file stands where a directory should. -/
  | notDirectory
  /-- A directory stands where a file should. -/
  | isDirectory
  /-- The file holds no text. -/
  | notText
  deriving DecidableEq

/-- The wording of a fault. -/
def Fault.message : Fault → String
  | missing => "No such file or directory (os error 2)"
  | notDirectory => "Not a directory (os error 20)"
  | isDirectory => "Is a directory (os error 21)"
  | notText => "stream did not contain valid UTF-8"

/-- What stands at which location. The root is not listed. -/
abbrev Listing := List (Location × Entry)

namespace Listing

variable {listing : Listing} {l k : Location} {e : Entry}

/-- What stands at a location; at the root there is a directory. -/
def get? (listing : Listing) (l : Location) : Option Entry :=
  if l.isEmpty then some .directory else listing.lookup l

/-- The listing with one of its entries changed or added. -/
def put (l : Location) (e : Entry) : Listing → Listing
  | [] => [(l, e)]
  | (k, f) :: rest => if k = l then (l, e) :: rest else (k, f) :: put l e rest

theorem lookup_entry (k j : Location) (e : Entry) (rest : Listing) :
    ((j, e) :: rest).lookup k = if k = j then some e else rest.lookup k := by
  rw [List.lookup_cons]
  split
  · next h => rw [if_pos (eq_of_beq h)]
  · next h => rw [if_neg (ne_of_beq_false h)]

theorem lookup_put (l k : Location) (e : Entry) (listing : Listing) :
    (put l e listing).lookup k = if k = l then some e else listing.lookup k := by
  induction listing with
  | nil => rw [put, lookup_entry]
  | cons entry rest ih =>
    obtain ⟨j, f⟩ := entry
    rw [put]
    split
    · next hj =>
      subst hj
      rw [lookup_entry, lookup_entry]
      split <;> rfl
    · next hj =>
      rw [lookup_entry, ih, lookup_entry]
      split
      · next hk => rw [if_neg (hk ▸ hj)]
      · rfl

theorem get?_put (hl : l ≠ []) (k : Location) (e : Entry) (listing : Listing) :
    get? (put l e listing) k = if k = l then some e else listing.get? k := by
  rw [get?, lookup_put, get?]
  by_cases hk : k = []
  · simp [hk, hl.symm]
  · simp [hk]

theorem mem_put {entry : Location × Entry} (h : entry ∈ put l e listing) : entry = (l, e) ∨ entry ∈ listing := by
  induction listing with
  | nil => exact .inl (List.mem_singleton.1 h)
  | cons first rest ih =>
    rw [put] at h
    split at h
    · rcases List.mem_cons.1 h with h | h
      · exact .inl h
      · exact .inr (.tail _ h)
    · rcases List.mem_cons.1 h with rfl | h
      · exact .inr (.head _)
      · exact (ih h).imp_right (.tail _)

theorem nodup_put (h : (listing.map Prod.fst).Nodup) : ((put l e listing).map Prod.fst).Nodup := by
  induction listing with
  | nil => simp [put]
  | cons first rest ih =>
    obtain ⟨j, f⟩ := first
    rw [List.map_cons, List.nodup_cons] at h
    rw [put]
    split
    · next hj => exact List.nodup_cons.2 (hj ▸ h)
    · next hj =>
      refine List.nodup_cons.2 ⟨fun hmem => ?_, ih h.2⟩
      obtain ⟨entry, hentry, hkey⟩ := List.mem_map.1 hmem
      rcases mem_put hentry with rfl | hentry
      · exact hj hkey.symm
      · exact h.1 (List.mem_map.2 ⟨entry, hentry, hkey⟩)

/-- The listing without some of its entries has the others where they were. -/
theorem get?_filter {keep : Location × Entry → Bool} (h : ∀ e, listing.lookup l = some e → keep (l, e) = true) :
    get? (listing.filter keep) l = listing.get? l := by
  have hlookup : (listing.filter keep).lookup l = listing.lookup l := by
    induction listing with
    | nil => rfl
    | cons first rest ih =>
      obtain ⟨j, f⟩ := first
      rw [lookup_entry] at h
      rw [lookup_entry, List.filter_cons]
      by_cases hj : l = j
      · rw [if_pos hj] at h ⊢
        rw [if_pos (hj ▸ h f rfl), lookup_entry, if_pos hj]
      · rw [if_neg hj] at h ⊢
        split
        · rw [lookup_entry, if_neg hj, ih h]
        · exact ih h
  rw [get?, hlookup, get?]

end Listing

/-- What there is on a disk, with a working directory. -/
structure Directory where
  /-- What stands where. -/
  entries : Listing
  /-- The place of the working directory. -/
  here : Location
  /-- Nothing is listed twice. -/
  once : (entries.map Prod.fst).Nodup
  /-- Everything has a name. -/
  named : ∀ entry ∈ entries, entry.1.getLast?.any Path.isName = true
  /-- Everything stands in a directory. -/
  grounded : ∀ entry ∈ entries, entries.get? entry.1.dropLast = some .directory
  /-- The working directory is a directory. -/
  placed : entries.get? here = some .directory
  deriving DecidableEq

namespace Directory

/-- A disk on which there is nothing but the root. -/
def empty : Directory where
  entries := []
  here := []
  once := List.nodup_nil
  named := by simp
  grounded := by simp
  placed := rfl

/-- What stands at a location. -/
def get? (d : Directory) (l : Location) : Option Entry := d.entries.get? l

/-- A directory stands at the location. -/
def isDirectoryAt (d : Directory) (l : Location) : Bool := d.get? l = some .directory

/-- Something can be put at the location: it has a name and stands in a directory, and it does not
take the place of a directory, unless it is one itself. -/
structure Accepts (d : Directory) (l : Location) (e : Entry) : Prop where
  /-- There is a name at the end. -/
  named : l.getLast?.any Path.isName = true
  /-- Above there is a directory. -/
  grounded : d.isDirectoryAt l.dropLast = true
  /-- No directory is replaced by a file. -/
  kept : d.isDirectoryAt l = true → e = .directory

instance (d : Directory) (l : Location) (e : Entry) : Decidable (d.Accepts l e) :=
  decidable_of_iff (l.getLast?.any Path.isName = true ∧ d.isDirectoryAt l.dropLast = true ∧
    (d.isDirectoryAt l = true → e = .directory)) ⟨fun h => ⟨h.1, h.2.1, h.2.2⟩, fun h => ⟨h.named, h.grounded, h.kept⟩⟩

theorem isDirectoryAt_iff {d : Directory} {l : Location} : d.isDirectoryAt l = true ↔ d.get? l = some .directory := by
  rw [isDirectoryAt, decide_eq_true_iff]

theorem Accepts.ne_nil {d : Directory} {l : Location} {e : Entry} (h : d.Accepts l e) : l ≠ [] := by
  rintro rfl
  cases h.named

/-- Where a directory stood there is one after something has been put somewhere. -/
theorem Accepts.get?_put {d : Directory} {l k : Location} {e : Entry} (h : d.Accepts l e)
    (hk : d.entries.get? k = some .directory) : (d.entries.put l e).get? k = some .directory := by
  rw [Listing.get?_put h.ne_nil]
  split
  · next heq => rw [h.kept (isDirectoryAt_iff.2 (heq ▸ hk))]
  · exact hk

/-- Puts something at a location, if it can be put there. -/
def put (d : Directory) (l : Location) (e : Entry) : Directory :=
  if h : d.Accepts l e then
    { entries := d.entries.put l e
      here := d.here
      once := Listing.nodup_put d.once
      named := fun entry hentry => (Listing.mem_put hentry).elim (fun heq => heq ▸ h.named) (d.named entry)
      grounded := fun entry hentry =>
        h.get?_put ((Listing.mem_put hentry).elim (fun heq => heq ▸ isDirectoryAt_iff.1 h.grounded) (d.grounded entry))
      placed := h.get?_put d.placed }
  else d

/-- Puts everything that is listed, one after the other. -/
def fill (d : Directory) (listing : Listing) : Directory := listing.foldl (fun d (l, e) => d.put l e) d

/-- Takes away what stands at a location and below it, unless the working directory does. -/
def erase (d : Directory) (l : Location) : Directory :=
  if h : l <+: d.here then d
  else
    { entries := d.entries.filter fun entry => ¬l <+: entry.1
      here := d.here
      once := d.once.sublist (List.filter_sublist.map Prod.fst)
      named := fun entry hentry => d.named entry (List.mem_filter.1 hentry).1
      grounded := fun entry hentry => by
        obtain ⟨hentry, hkept⟩ := List.mem_filter.1 hentry
        rw [Listing.get?_filter fun _ _ => ?_]
        · exact d.grounded entry hentry
        · exact decide_eq_true fun hl => of_decide_eq_true hkept (hl.trans (List.dropLast_prefix _))
      placed := by
        rw [Listing.get?_filter fun _ _ => decide_eq_true h]
        exact d.placed }

/-- Where one part of a path leads from a location. -/
def step (l : Location) (part : Text) : Location :=
  if Path.isIdle part then l else if part = ['.', '.'] then l.dropLast else l ++ [part]

/-- Follows the parts of a path from a location. -/
def follow (d : Directory) (l : Location) : List Text → Except Fault Location
  | [] => .ok l
  | part :: rest =>
    match d.get? l with
    | none => .error .missing
    | some (.file _) => .error .notDirectory
    | some .directory => follow d (step l part) rest

/-- Where a path begins: at the root if it has a slash in front, else in the working directory. -/
def start (d : Directory) (path : Text) : Location := if path.head? = some '/' then [] else d.here

/-- The location to which a path leads. The empty path leads nowhere. -/
def locate (d : Directory) (path : Text) : Except Fault Location :=
  if path.isEmpty then .error .missing else d.follow (d.start path) (Path.parts path)

/-- The content of the file at a path. -/
def read (d : Directory) (path : Text) : Except Fault Content := do
  match d.get? (← d.locate path) with
  | none => .error .missing
  | some .directory => .error .isDirectory
  | some (.file content) => .ok content

/-- The text of the file at a path. -/
def readText (d : Directory) (path : Text) : Except Fault Text := do
  match ← d.read path with
  | .text t => .ok t
  | .binary _ => .error .notText

/-- There is a file at the path. -/
def isFile (d : Directory) (path : Text) : Bool :=
  match d.read path with
  | .ok _ => true
  | .error _ => false

/-- The location to which a file at a path would be written. A name with slashes after it is that
of a directory. -/
def target (d : Directory) (path : Text) : Except Fault Location :=
  let parts := (Path.parts path).reverse
  match parts.dropWhile List.isEmpty with
  | [] => d.locate path
  | name :: above =>
    if name = ['.'] || name = ['.', '.'] then d.locate path
    else do
      let l ← d.follow (d.start path) above.reverse
      match d.get? l with
      | none => .error .missing
      | some (.file _) => .error .notDirectory
      | some .directory =>
        if parts.head? = some name then .ok (l ++ [name]) else .error .isDirectory

/-- Writes a file. -/
def write (d : Directory) (path : Text) (content : Content) : Except Fault Directory := do
  let l ← d.target path
  if d.isDirectoryAt l then .error .isDirectory
  else .ok (d.put l (.file content))

/-- Creates the directories on the way to a location. -/
def createAbove (d : Directory) (l : Location) : Directory :=
  (List.range l.length).foldl (fun d n =>
    if (d.get? (l.take n)).isNone then d.put (l.take n) .directory else d) d

/-- Makes a location the working directory, if there is a directory or can be one. -/
def enter (d : Directory) (l : Location) : Directory :=
  let made := (d.createAbove l).put l .directory
  if h : made.get? l = some .directory then { made with here := l, placed := h } else d

/-- The names of what stands directly in the directory at a location. -/
def names (d : Directory) (l : Location) : List Text :=
  d.entries.filterMap fun (k, _) =>
    match k.getLast? with
    | some name => if k.dropLast = l then some name else none
    | none => none

end Directory

end Cull
