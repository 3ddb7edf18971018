import Cull.Text.Basic

/-!
# Bytes

The bytes of a text in UTF-8, and the text of bytes that need not be UTF-8:
each longest start of a character that is not continued as it should be counts
as one replacement character.
-/

namespace Cull.Text

/-- The bytes of a text. -/
def bytes (t : Text) : List UInt8 := t.flatMap String.utf8EncodeChar

/-- The character that stands for what cannot be read. -/
def unreadable : Char := '\ufffd'

/-- A byte that continues a character. -/
def isContinuation (b : UInt8) : Bool := 0x80 ≤ b && b ≤ 0xbf

/-- The second byte of a character of three bytes fits the first. -/
def fitsThree (b₁ b₂ : UInt8) : Bool :=
  (b₁ = 0xe0 && 0xa0 ≤ b₂ && b₂ ≤ 0xbf) || (0xe1 ≤ b₁ && b₁ ≤ 0xec && isContinuation b₂) ||
    (b₁ = 0xed && 0x80 ≤ b₂ && b₂ ≤ 0x9f) || (0xee ≤ b₁ && b₁ ≤ 0xef && isContinuation b₂)

/-- The second byte of a character of four bytes fits the first. -/
def fitsFour (b₁ b₂ : UInt8) : Bool :=
  (b₁ = 0xf0 && 0x90 ≤ b₂ && b₂ ≤ 0xbf) || (0xf1 ≤ b₁ && b₁ ≤ 0xf3 && isContinuation b₂) ||
    (b₁ = 0xf4 && 0x80 ≤ b₂ && b₂ ≤ 0x8f)

/-- The bits of a byte that continues a character. -/
def payload (b : UInt8) : Nat := b.toNat % 64

/-- The text of bytes. -/
def ofBytesLossy : List UInt8 → Text
  | [] => []
  | b₁ :: rest₁ =>
    if b₁ < 0x80 then Char.ofNat b₁.toNat :: ofBytesLossy rest₁
    else
      match rest₁ with
      | [] => [unreadable]
      | b₂ :: rest₂ =>
        if 0xc2 ≤ b₁ && b₁ ≤ 0xdf && isContinuation b₂ then
          Char.ofNat (b₁.toNat % 32 * 64 + payload b₂) :: ofBytesLossy rest₂
        else if fitsThree b₁ b₂ then
          match rest₂ with
          | [] => [unreadable]
          | b₃ :: rest₃ =>
            if isContinuation b₃ then
              Char.ofNat ((b₁.toNat % 16 * 64 + payload b₂) * 64 + payload b₃) :: ofBytesLossy rest₃
            else unreadable :: ofBytesLossy (b₃ :: rest₃)
        else if fitsFour b₁ b₂ then
          match rest₂ with
          | [] => [unreadable]
          | [b₃] => if isContinuation b₃ then [unreadable] else unreadable :: ofBytesLossy [b₃]
          | b₃ :: b₄ :: rest₄ =>
            if !isContinuation b₃ then unreadable :: ofBytesLossy (b₃ :: b₄ :: rest₄)
            else if isContinuation b₄ then
              Char.ofNat (((b₁.toNat % 8 * 64 + payload b₂) * 64 + payload b₃) * 64 + payload b₄)
                :: ofBytesLossy rest₄
            else unreadable :: ofBytesLossy (b₄ :: rest₄)
        else unreadable :: ofBytesLossy (b₂ :: rest₂)

/-- The text of bytes that are UTF-8. -/
def ofBytes? (bs : List UInt8) : Option Text := (String.fromUTF8? ⟨bs.toArray⟩).map String.toList

theorem toByteArray_ofList (t : Text) : (String.ofList t).toByteArray = ⟨t.bytes.toArray⟩ :=
  ByteArray.ext List.data_toByteArray

theorem ofBytes?_bytes (t : Text) : ofBytes? t.bytes = some t := by
  unfold ofBytes? String.fromUTF8?
  rw [← toByteArray_ofList, dif_pos (String.ofList t).isValidUTF8]
  exact congrArg some String.toList_ofList

theorem bytes_of_ofBytes? {bs : List UInt8} {t : Text} (h : ofBytes? bs = some t) : t.bytes = bs := by
  obtain ⟨s, hs, rfl⟩ := Option.map_eq_some_iff.1 h
  have hread : s.toByteArray = ⟨bs.toArray⟩ := by
    unfold String.fromUTF8? at hs
    split at hs
    · cases hs
      rfl
    · cases hs
  have hlist := toByteArray_ofList s.toList
  rw [String.ofList_toList, hread] at hlist
  simpa using (congrArg ByteArray.data hlist).symm

end Cull.Text
