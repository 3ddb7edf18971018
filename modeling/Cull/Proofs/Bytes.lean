import Cull.Text.Utf8
import Cull.Proofs.Slices

/-!
# Bytes of a text

A reader that goes through the bytes of a text looks for marks, which are ASCII
characters. The first byte of a character tells whether the character is a given
mark (`lead_eq_mark_iff`), and no further byte of a character is a mark
(`getElem?_bytes_inside`). So a reader that passes over everything but marks may
land inside a character and still finds the next one (`skip_char`).
-/

namespace Cull.Text

/-- The byte of an ASCII character. -/
def mark (c : Char) : UInt8 := UInt8.ofNat c.val.toNat

/-- The first byte of a character. -/
def lead (c : Char) : UInt8 := (String.utf8EncodeChar c).headD 0

@[simp]
theorem bytes_nil : bytes [] = [] := rfl

theorem bytes_cons (c : Char) (t : Text) : bytes (c :: t) = String.utf8EncodeChar c ++ bytes t := by
  simp [bytes]

theorem bytes_append (s t : Text) : bytes (s ++ t) = bytes s ++ bytes t := by
  simp [bytes]

@[simp]
theorem length_bytes (t : Text) : (bytes t).length = byteLength t := by
  induction t with
  | nil => rfl
  | cons c t ih => simp [bytes_cons, ih]

theorem toNat_mark {m : Char} (hm : m.val.toNat < 128) : (mark m).toNat = m.val.toNat := by
  simp only [mark, UInt8.toNat_ofNat']
  omega

theorem ne_mark {b : UInt8} {m : Char} (hm : m.val.toNat < 128) (hb : 128 ≤ b.toNat) : b ≠ mark m := by
  rintro rfl
  rw [toNat_mark hm] at hb
  omega

theorem utf8Size_of_lt {m : Char} (hm : m.val.toNat < 128) : m.utf8Size = 1 := by
  rw [Char.utf8Size_eq_one_iff, UInt32.le_iff_toNat_le]
  exact Nat.le_of_lt_succ hm

/-- A character of one byte is its own mark, and all bytes of a longer one are above the marks. -/
theorem utf8EncodeChar_cases (c : Char) :
    (String.utf8EncodeChar c = [mark c] ∧ c.val.toNat < 128) ∨
    ((∀ b ∈ String.utf8EncodeChar c, 128 ≤ b.toNat) ∧ 128 ≤ c.val.toNat) := by
  unfold String.utf8EncodeChar
  dsimp only
  split
  · next h => exact .inl ⟨rfl, by omega⟩
  · next h =>
    refine .inr ⟨?_, by omega⟩
    split
    · simp only [List.mem_cons, List.not_mem_nil, or_false, forall_eq_or_imp, forall_eq, UInt8.toNat_ofNat']
      omega
    · split
      · simp only [List.mem_cons, List.not_mem_nil, or_false, forall_eq_or_imp, forall_eq, UInt8.toNat_ofNat']
        omega
      · simp only [List.mem_cons, List.not_mem_nil, or_false, forall_eq_or_imp, forall_eq, UInt8.toNat_ofNat']
        omega

theorem lead_eq_mark {c : Char} (h : c.val.toNat < 128) : lead c = mark c := by
  rcases utf8EncodeChar_cases c with ⟨he, -⟩ | ⟨-, hge⟩
  · simp [lead, he]
  · omega

theorem lead_mem (c : Char) : lead c ∈ String.utf8EncodeChar c := by
  unfold lead
  cases h : String.utf8EncodeChar c with
  | nil => exact absurd h String.utf8EncodeChar_ne_nil
  | cons b bs => simp

/-- The first byte of a character says whether it is a given mark. -/
theorem lead_eq_mark_iff {c m : Char} (hm : m.val.toNat < 128) : lead c = mark m ↔ c = m := by
  constructor
  · intro h
    rcases utf8EncodeChar_cases c with ⟨-, hlt⟩ | ⟨hall, -⟩
    · rw [lead_eq_mark hlt] at h
      have : c.val.toNat = m.val.toNat := by rw [← toNat_mark hlt, ← toNat_mark hm, h]
      exact Char.ext (UInt32.toNat_inj.1 this)
    · exact absurd h (ne_mark hm (hall _ (lead_mem c)))
  · rintro rfl
    exact lead_eq_mark hm

/-- The byte where a character begins. -/
theorem getElem?_bytes_lead (pre : Text) (c : Char) (t : Text) :
    (bytes (pre ++ c :: t))[byteLength pre]? = some (lead c) := by
  rw [bytes_append, bytes_cons, List.getElem?_append_right (by simp), length_bytes, Nat.sub_self]
  unfold lead
  cases h : String.utf8EncodeChar c with
  | nil => exact absurd h String.utf8EncodeChar_ne_nil
  | cons b bs => simp

/-- The bytes inside a character are above the marks. -/
theorem getElem?_bytes_inside (pre : Text) (c : Char) (t : Text) {i : Nat} (hpos : 0 < i) (hi : i < c.utf8Size) :
    ∃ b, (bytes (pre ++ c :: t))[byteLength pre + i]? = some b ∧ 128 ≤ b.toNat := by
  have hlen : i < (String.utf8EncodeChar c).length := by simpa using hi
  refine ⟨(String.utf8EncodeChar c)[i], ?_, ?_⟩
  · rw [bytes_append, bytes_cons, List.getElem?_append_right (by simp), length_bytes, Nat.add_sub_cancel_left,
      List.getElem?_append_left hlen, List.getElem?_eq_getElem hlen]
  · rcases utf8EncodeChar_cases c with ⟨he, -⟩ | ⟨hall, -⟩
    · rw [he] at hlen
      simp at hlen
      omega
    · exact hall _ (List.getElem_mem hlen)

/-- An offset that holds the byte of a mark holds the mark. -/
theorem exists_of_getElem?_mark {t : Text} {n : Nat} {m : Char} (hm : m.val.toNat < 128)
    (h : (bytes t)[n]? = some (mark m)) : ∃ pre rest, t = pre ++ m :: rest ∧ n = byteLength pre := by
  induction t generalizing n with
  | nil => simp at h
  | cons c t ih =>
    by_cases hn : n < c.utf8Size
    · -- the byte belongs to the first character, and only its first byte can be a mark
      rcases Nat.eq_zero_or_pos n with rfl | hpos
      · have hlead := getElem?_bytes_lead [] c t
        rw [List.nil_append, byteLength_nil, h, Option.some.injEq] at hlead
        obtain rfl := (lead_eq_mark_iff hm).1 hlead.symm
        exact ⟨[], t, rfl, rfl⟩
      · obtain ⟨b, hb, hge⟩ := getElem?_bytes_inside [] c t hpos hn
        rw [List.nil_append, byteLength_nil, Nat.zero_add, h, Option.some.injEq] at hb
        exact absurd hb.symm (ne_mark hm hge)
    · rw [bytes_cons, List.getElem?_append_right (by simpa using hn)] at h
      obtain ⟨pre, rest, rfl, hlen⟩ := ih h
      refine ⟨c :: pre, rest, rfl, ?_⟩
      rw [byteLength_cons, ← hlen]
      simp
      omega

/-- A reader that passes over bytes above the marks passes over the rest of a character. -/
theorem skip_char {β : Type} {f : Nat → β} {bs : List UInt8}
    (hskip : ∀ pos b, bs[pos]? = some b → 128 ≤ b.toNat → f pos = f (pos + 1)) {pre : Text} {c : Char} {t : Text}
    (hbs : bs = bytes (pre ++ c :: t)) : f (byteLength pre + 1) = f (byteLength (pre ++ [c])) := by
  have hstep : ∀ n, n < c.utf8Size → f (byteLength pre + 1) = f (byteLength pre + (n + 1)) := by
    intro n
    induction n with
    | zero => exact fun _ => rfl
    | succ n ih =>
      intro hn
      obtain ⟨b, hb, hge⟩ := getElem?_bytes_inside pre c t (Nat.succ_pos n) hn
      rw [ih (by omega), hskip _ b (hbs ▸ hb) hge, Nat.add_assoc]
  have hpos := Char.utf8Size_pos c
  rw [hstep (c.utf8Size - 1) (by omega), byteLength_append, byteLength_cons, byteLength_nil,
    Nat.sub_add_cancel hpos]
  rfl

end Cull.Text
