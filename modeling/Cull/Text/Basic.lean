/-!
# Texts and byte offsets

A text is a list of characters. Positions in a text are counted in bytes of
its UTF-8 form, so a position may fall inside a character or past the end;
`splitAtByte?` refuses such a position, and everything that cuts a text by
offsets goes through it.
-/

namespace Cull

/-- A text, character by character. -/
abbrev Text := List Char

namespace Text

/-- The number of bytes of a text in UTF-8. -/
def byteLength : Text → Nat
  | [] => 0
  | c :: t => c.utf8Size + byteLength t

@[simp]
theorem byteLength_nil : byteLength [] = 0 := rfl

@[simp]
theorem byteLength_cons (c : Char) (t : Text) : byteLength (c :: t) = c.utf8Size + byteLength t := rfl

@[simp]
theorem byteLength_append (s t : Text) : byteLength (s ++ t) = byteLength s + byteLength t := by
  induction s with
  | nil => simp
  | cons c s ih => simp [ih, Nat.add_assoc]

/-- The text cut after its first `n` bytes; `none` when that is past the end or inside a character. -/
def splitAtByte? : Nat → Text → Option (Text × Text)
  | 0, t => some ([], t)
  | _ + 1, [] => none
  | n + 1, c :: t =>
    if c.utf8Size ≤ n + 1 then
      (splitAtByte? (n + 1 - c.utf8Size) t).map fun (a, b) => (c :: a, b)
    else none

/-- The bytes `start` to `stop` of a text, as a text. -/
def slice? (t : Text) (start stop : Nat) : Option Text := do
  let (_, rest) ← splitAtByte? start t
  let (piece, _) ← splitAtByte? (stop - start) rest
  return piece

/-- The pieces of a text between the characters that `sep` accepts, empty pieces included. -/
def splitOn (sep : Char → Bool) : Text → List Text
  | [] => [[]]
  | c :: t =>
    if sep c then [] :: splitOn sep t
    else
      match splitOn sep t with
      | [] => [[c]]
      | piece :: pieces => (c :: piece) :: pieces

/-- A text that stands in front of another, taken off it. -/
def dropLead? : Text → Text → Option Text
  | [], t => some t
  | _ :: _, [] => none
  | a :: lead, c :: t => if a = c then dropLead? lead t else none

/-- `part` occurs somewhere in the text. -/
def hasPart (part : Text) : Text → Bool
  | [] => part.isEmpty
  | c :: t => (dropLead? part (c :: t)).isSome || hasPart part t

/-- The order of texts by code points, a shorter text before its extensions. -/
def lt : Text → Text → Bool
  | _, [] => false
  | [], _ :: _ => true
  | a :: s, b :: t => a.val < b.val || (a = b && lt s t)

end Text

end Cull
