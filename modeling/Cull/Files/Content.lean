import Cull.Text.Utf8

/-!
# The content of files

A file holds text, or bytes that are no text because they are not UTF-8. Two
files hold the same bytes exactly if their contents are equal (`bytes_inj`).
-/

namespace Cull

/-- What a file holds. -/
inductive Content where
  /-- Text. -/
  | text (t : Text)
  /-- Bytes that are not UTF-8. -/
  | binary (bytes : List UInt8) {notText : Text.ofBytes? bytes = none}
  deriving DecidableEq

namespace Content

/-- The content of the given bytes. -/
def ofBytes (bs : List UInt8) : Content :=
  match h : Text.ofBytes? bs with
  | some t => text t
  | none => @binary bs h

/-- The bytes. -/
def bytes : Content → List UInt8
  | text t => t.bytes
  | binary bs => bs

theorem bytes_ofBytes (bs : List UInt8) : (ofBytes bs).bytes = bs := by
  unfold ofBytes
  split
  · next h => exact Text.bytes_of_ofBytes? h
  · rfl

theorem ofBytes_bytes (c : Content) : ofBytes c.bytes = c := by
  unfold ofBytes
  cases c with
  | text t =>
    split
    · next h =>
      cases (Text.ofBytes?_bytes t).symm.trans h
      rfl
    · next h => cases (Text.ofBytes?_bytes t).symm.trans h
  | @binary bs notText =>
    split
    · next h => cases notText.symm.trans h
    · rfl

theorem bytes_inj {c c' : Content} : c.bytes = c'.bytes ↔ c = c' := by
  refine ⟨fun h => ?_, fun h => h ▸ rfl⟩
  rw [← ofBytes_bytes c, h, ofBytes_bytes]

/-- The content as text, with what is not UTF-8 replaced. -/
def readable : Content → Text
  | text t => t
  | binary bs => Text.ofBytesLossy bs

/-- The pieces between line feeds; after a last line feed there is none. -/
def splitLines {α : Type} (isLineFeed : α → Bool) (items : List α) : List (List α) :=
  let pieces := items.foldr (fun x pieces =>
    if isLineFeed x then [] :: pieces
    else match pieces with
      | [] => [[x]]
      | piece :: rest => (x :: piece) :: rest) [[]]
  match pieces.getLast? with
  | some [] => pieces.dropLast
  | _ => pieces

/-- A line without a carriage return at its end. -/
def dropReturn (line : Text) : Text := if line.getLast? = some '\r' then line.dropLast else line

/-- The lines up to the first that is not UTF-8. -/
def lines : Content → List Text
  | text t => (splitLines (· = '\n') t).map dropReturn
  | binary bs =>
    let pieces := (splitLines (· = 10) bs).map Text.ofBytes?
    ((pieces.takeWhile Option.isSome).filterMap fun line => line).map dropReturn

end Content

end Cull
