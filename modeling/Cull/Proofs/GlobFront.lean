import Cull.Files.Resolution
import Cull.Proofs.ByteFilter

/-!
# How the paths of a glob begin

Up to its first character that stands for something else than itself, a glob says literally how
every path begins that it matches; a backslash there lets the next character stand for itself. This
literal front is `literalFront`, and `literalFront_prefix_of_accepts` says that no path is
accepted that begins otherwise.

While a glob is read, parts are only added behind the front, with one exception: `**` takes the
slash before it into a part of its own. But that part, too, matches only what begins with a slash
(`Stem`).
-/

namespace Cull

open Text

/-- A text whose bytes are a front of the bytes of another is a front of it. -/
theorem Text.prefix_of_bytes_prefix {s t : Text} (h : bytes s <+: bytes t) : s <+: t := by
  induction s generalizing t with
  | nil => exact List.nil_prefix
  | cons c s ih =>
    obtain ⟨rest, hrest⟩ := h
    rw [bytes_cons, List.append_assoc] at hrest
    cases t with
    | nil => exact absurd (List.append_eq_nil_iff.1 hrest).1 String.utf8EncodeChar_ne_nil
    | cons d t =>
      rw [bytes_cons] at hrest
      -- the first character can be read off the bytes, whatever follows
      have hsame : c = d := by
        have hdecode := congrArg (fun bs => (List.toByteArray bs).utf8DecodeChar? 0) hrest
        simp only [List.toByteArray_append, ByteArray.utf8DecodeChar?_utf8EncodeChar_append] at hdecode
        exact Option.some.inj hdecode
      subst hsame
      exact List.cons_prefix_cons.2 ⟨rfl, ih ⟨rest, List.append_cancel_left hrest⟩⟩

namespace Glob

variable {separated : Bool} {next : List UInt8 → Bool} {bytes : List UInt8}

/-! ### Matching parts one after the other -/

theorem run_append (g h : List Part) (next : List UInt8 → Bool) (bytes : List UInt8) :
    run separated (g ++ h) next bytes = run separated g (run separated h next) bytes := by
  induction g generalizing bytes with
  | nil => rw [List.nil_append, run]
  | cons p g ih =>
    rw [List.cons_append, run, run]
    congr 1
    funext rest
    exact ih rest

theorem exists_of_run_bytes {lit : List UInt8} (h : run separated (lit.map Part.byte) next bytes = true) :
    ∃ rest, bytes = lit ++ rest ∧ next rest = true := by
  induction lit generalizing bytes with
  | nil => exact ⟨bytes, rfl, by simpa [run] using h⟩
  | cons b lit ih =>
    rw [List.map_cons, run] at h
    cases bytes with
    | nil => simp [Part.run] at h
    | cons c bytes =>
      rw [Part.run, Bool.and_eq_true, decide_eq_true_eq] at h
      obtain ⟨rest, rfl, hrest⟩ := ih h.2
      exact ⟨rest, by rw [h.1, List.cons_append], hrest⟩

theorem exists_of_afterSlash (h : afterSlash next bytes = true) : ∃ rest, bytes = slash :: rest := by
  cases bytes with
  | nil => cases h
  | cons b rest =>
    rw [afterSlash, Bool.and_eq_true, decide_eq_true_eq] at h
    exact ⟨rest, by rw [h.1]⟩

/-- A part that matches only what begins with a slash. -/
def Part.IsDirs (p : Part) : Prop := p = .innerDirs ∨ p = .trailingDirs

theorem Part.IsDirs.exists_of_run {p : Part} (hp : p.IsDirs) (h : p.run separated next bytes = true) :
    ∃ rest, bytes = slash :: rest := by
  rcases hp with rfl | rfl
  · rw [Part.run, Bool.or_eq_true] at h
    exact h.elim exists_of_afterSlash exists_of_afterSlash
  · rw [Part.run] at h
    exact exists_of_afterSlash h

/-! ### Parts that begin with a literal front -/

/-- The parts, last first, begin with the given bytes; a slash at the end of these may have become a part for
directories. -/
inductive Stem (lit : List UInt8) : List Part → Prop where
  /-- Just the bytes. -/
  | bytes : Stem lit (lit.map Part.byte).reverse
  /-- The bytes, with the slash at their end in another part. -/
  | dirs {front : List UInt8} {p : Part} (hlit : lit = front ++ [slash]) (hp : p.IsDirs) :
    Stem lit (p :: (front.map Part.byte).reverse)
  /-- One part more. -/
  | more {parts : List Part} (p : Part) (h : Stem lit parts) : Stem lit (p :: parts)

variable {lit : List UInt8} {parts : List Part}

theorem Stem.append (h : Stem lit parts) (more : List Part) : Stem lit (more ++ parts) := by
  induction more with
  | nil => exact h
  | cons p more ih => exact .more p ih

theorem Stem.prefix_of_run (h : Stem lit parts) {next : List UInt8 → Bool} {bytes : List UInt8}
    (hrun : run separated parts.reverse next bytes = true) : lit <+: bytes := by
  induction h generalizing next bytes with
  | bytes =>
    rw [List.reverse_reverse] at hrun
    obtain ⟨rest, rfl, -⟩ := exists_of_run_bytes hrun
    exact List.prefix_append lit rest
  | @dirs front p hlit hp =>
    rw [List.reverse_cons, List.reverse_reverse, run_append] at hrun
    obtain ⟨rest, rfl, hrest⟩ := exists_of_run_bytes hrun
    rw [run] at hrest
    obtain ⟨behind, rfl⟩ := hp.exists_of_run hrest
    rw [hlit]
    exact ⟨behind, by rw [List.append_assoc]; rfl⟩
  | more p h ih =>
    rw [List.reverse_cons, run_append] at hrun
    exact ih hrun

theorem Stem.eq_nil_of_leadingDirs (h : Stem lit [.leadingDirs]) : lit = [] := by
  generalize hparts : [Part.leadingDirs] = parts at h
  cases h with
  | bytes =>
    cases lit with
    | nil => rfl
    | cons b lit =>
      have hmem : Part.leadingDirs ∈ ((b :: lit).map Part.byte).reverse := hparts ▸ List.mem_singleton.2 rfl
      rw [List.mem_reverse, List.mem_map] at hmem
      obtain ⟨-, -, ⟨⟩⟩ := hmem
  | dirs hlit hp =>
    obtain ⟨rfl, -⟩ := List.cons.inj hparts
    rcases hp with hp | hp <;> cases hp
  | more p h =>
    obtain ⟨-, rfl⟩ := List.cons.inj hparts
    generalize hnone : ([] : List Part) = none at h
    cases h with
    | bytes => simpa using hnone.symm
    | dirs hlit hp => cases hnone
    | more p h => cases hnone

/-! ### Reading keeps the front -/

namespace Progress

/-- The parts outside all open choices, last first. -/
def outermost (parts : List Part) : List Opening → List Part
  | [] => parts
  | o :: rest => outermost o.before rest

theorem stem_outermost_append {openings : List Opening} (h : Stem lit (outermost parts openings)) (more : List Part) :
    Stem lit (outermost (more ++ parts) openings) := by
  cases openings with
  | nil => exact h.append more
  | cons o rest => exact h

/-- What has been read begins with the given bytes, and still does if a part for directories takes the place of a slash
that has been read last. -/
structure Keeps (lit : List UInt8) (p : Progress) : Prop where
  /-- The parts outside all choices begin so. -/
  stem : Stem lit (outermost p.parts p.openings)
  /-- The last part can be replaced if it is a slash. -/
  last : p.openings = [] → p.previous = some '/' → ∀ q : Part, q.IsDirs → Stem lit (q :: p.parts.tail)

variable {p p' : Progress}

theorem Keeps.push (h : p.Keeps lit) (part : Part) (c : Char) : (p.push part c).Keeps lit where
  stem := stem_outermost_append h.stem [part]
  last hopenings _ q _ := by
    have hstem := h.stem
    rw [show p.openings = [] from hopenings] at hstem
    exact .more q hstem

theorem literal_ne_nil (c : Char) : literal c ≠ [] := by
  simp [literal, String.utf8EncodeChar_ne_nil]

theorem Keeps.pushLiteral (h : p.Keeps lit) (c : Char) : (p.pushLiteral c).Keeps lit where
  stem := stem_outermost_append h.stem _
  last hopenings _ q _ := by
    have hstem := h.stem
    rw [show p.openings = [] from hopenings] at hstem
    have hne : (literal c).reverse ≠ [] := by simpa using literal_ne_nil c
    rw [Progress.pushLiteral, List.tail_append_of_ne_nil hne]
    exact .more q (hstem.append _)

theorem Keeps.openChoice (h : p.Keeps lit) : p.openChoice.Keeps lit := ⟨h.stem, fun hopenings => by cases hopenings⟩

theorem Keeps.nextBranch (h : p.Keeps lit) : p.nextBranch.Keeps lit := by
  have hstem := h.stem
  rw [Progress.nextBranch]
  split
  · exact h.pushLiteral ','
  · next o rest hopenings =>
    rw [hopenings] at hstem
    exact ⟨hstem, fun hnone => by cases hnone⟩

theorem Keeps.closeChoice (h : p.Keeps lit) (hclose : p.closeChoice = .ok p') : p'.Keeps lit := by
  have hstem := h.stem
  rw [Progress.closeChoice] at hclose
  split at hclose
  · cases hclose
  · next o rest hopenings =>
    cases hclose
    rw [hopenings, outermost] at hstem
    refine ⟨stem_outermost_append hstem [_], fun hnone _ q _ => ?_⟩
    obtain rfl : rest = [] := hnone
    exact .more q hstem

theorem Keeps.replaceLast (h : p.Keeps lit) {part : Part} (hpart : part.IsDirs) (c : Char)
    (hslash : p.openings = [] → p.previous = some '/') : (p.replaceLast part c).Keeps lit := by
  have hparts : (p.replaceLast part c).parts = p.parts ∨ (p.replaceLast part c).parts = part :: p.parts.tail := by
    rw [Progress.replaceLast]
    dsimp only
    split
    · next heq => exact .inl heq.symm
    · next heq => exact .inl heq.symm
    · next heq => exact .inr (by rw [heq]; rfl)
    · next heq => exact .inr (by rw [heq]; rfl)
  have htail : (p.replaceLast part c).parts.tail = p.parts.tail := by
    rcases hparts with hsame | hnew
    · rw [hsame]
    · rw [hnew, List.tail_cons]
  refine ⟨?_, fun hopenings _ q hq => ?_⟩
  · change Stem lit (outermost (p.replaceLast part c).parts p.openings)
    cases hopenings : p.openings with
    | nil =>
      have hstem := h.stem
      rw [hopenings] at hstem
      rcases hparts with hsame | hnew
      · rw [hsame]
        exact hstem
      · rw [hnew]
        exact h.last hopenings (hslash hopenings) part hpart
    | cons o rest =>
      have hstem := h.stem
      rw [hopenings] at hstem
      exact hstem
  · rw [htail]
    exact h.last hopenings (hslash hopenings) q hq

theorem previous_of_atBoundary (h : p.atBoundary = true) (hopenings : p.openings = []) : p.previous = some '/' := by
  simpa [atBoundary, hopenings] using h

theorem Keeps.readStars (h : p.Keeps lit) (rest : Text) : (p.readStars rest).1.Keeps lit := by
  have hstars : p.pushStars.Keeps lit := (h.push .many '*').push .many '*'
  rw [Progress.readStars]
  split
  · split
    · exact h.push .leadingDirs '/'
    · split
      · exact h.push .leadingDirs '*'
      · exact hstars
  · split
    · exact hstars
    · next hboundary =>
      have hslash : p.openings = [] → p.previous = some '/' := fun hnone =>
        previous_of_atBoundary (by simpa using hboundary) hnone
      split
      · exact h.replaceLast (.inl rfl) '/' hslash
      · split
        · exact h.replaceLast (.inr rfl) '*' hslash
        · split
          · exact h.replaceLast (.inr rfl) '*' hslash
          · exact hstars

end Progress

theorem keeps_of_readFrom {p p' : Progress} {fuel : Nat} {t : Text} (h : p.Keeps lit)
    (hread : readFrom p fuel t = .ok p') : p'.Keeps lit := by
  fun_induction readFrom p fuel t with
  | case1 => cases hread; exact h
  | case2 => cases hread; exact h
  | case3 p fuel rest ih => exact ih (h.push _ _) hread
  | case4 p fuel rest q takesSlash hstars _ ih =>
    have hq := h.readStars rest
    rw [hstars] at hq
    exact ih hq hread
  | case5 p fuel rest _ _ ih => exact ih (h.push _ _) hread
  | case6 => cases hread
  | case7 p fuel _ negated _ _ ranges rest _ _ _ ih => exact ih (h.push _ _) hread
  | case8 p fuel rest _ _ _ ih => exact ih h.openChoice hread
  | case9 => cases hread
  | case10 p fuel rest q hclose _ _ _ _ ih => exact ih (h.closeChoice hclose) hread
  | case11 p fuel rest _ _ _ _ _ ih => exact ih h.nextBranch hread
  | case12 => cases hread
  | case13 p fuel e rest _ _ _ _ _ _ ih => exact ih (h.pushLiteral e) hread
  | case14 p fuel c rest _ _ _ _ _ _ _ ih => exact ih (h.pushLiteral c) hread

/-! ### The literal front -/

/-- The text that a pattern stands for literally, up to its first character that stands for something else. -/
def literalFront : Text → Text
  | '\\' :: c :: rest => c :: literalFront rest
  | c :: rest => if isMeta c then [] else c :: literalFront rest
  | [] => []

theorem literalFront_escaped (c : Char) (rest : Text) : literalFront ('\\' :: c :: rest) = c :: literalFront rest := rfl

theorem literalFront_plain {c : Char} (hc : c ≠ '\\') (hmeta : isMeta c = false) (rest : Text) :
    literalFront (c :: rest) = c :: literalFront rest := by
  rw [literalFront, hmeta, if_neg Bool.false_ne_true]
  exact fun _ _ heq => absurd heq hc

theorem literalFront_append {x : Text} (hx : '\\' ∉ x) (hmeta : ∀ c ∈ x, isMeta c = false) (y : Text) :
    literalFront (x ++ y) = x ++ literalFront y := by
  induction x with
  | nil => rfl
  | cons c x ih =>
    rw [List.mem_cons, not_or] at hx
    obtain ⟨hc, hmeta⟩ := List.forall_mem_cons.1 hmeta
    rw [List.cons_append, literalFront_plain (Ne.symm hx.1) hc, ih hx.2 hmeta, List.cons_append]

namespace Progress

/-- Nothing but the given bytes has been read. -/
structure IsLiteral (lit : List UInt8) (p : Progress) : Prop where
  /-- There is no choice. -/
  openings : p.openings = []
  /-- The parts are the bytes. -/
  parts : p.parts = (lit.map Part.byte).reverse
  /-- A slash that has been read last is the last byte. -/
  previous : p.previous = some '/' → ∃ front, lit = front ++ [slash]

variable {p p' : Progress}

theorem isLiteral_start : start.IsLiteral [] := ⟨rfl, rfl, fun h => by cases h⟩

theorem IsLiteral.keeps (h : p.IsLiteral lit) : p.Keeps lit := by
  refine ⟨?_, fun _ hslash q hq => ?_⟩
  · rw [h.openings, h.parts]
    exact .bytes
  · obtain ⟨front, rfl⟩ := h.previous hslash
    rw [h.parts, List.map_append, List.map_singleton, List.reverse_concat, List.tail_cons]
    exact .dirs rfl hq

theorem IsLiteral.pushLiteral (h : p.IsLiteral lit) (c : Char) :
    (p.pushLiteral c).IsLiteral (lit ++ String.utf8EncodeChar c) where
  openings := h.openings
  parts := by
    rw [Progress.pushLiteral, h.parts, literal, List.map_append, List.reverse_append]
  previous hc := by
    obtain rfl : c = '/' := Option.some.inj hc
    exact ⟨lit, rfl⟩

end Progress

/-- Outside all choices, a character that stands for itself is added as it is. -/
theorem readFrom_plain {p p' : Progress} {fuel : Nat} {c : Char} {rest : Text} (hopenings : p.openings = [])
    (hmeta : isMeta c ≠ true) (hescape : c = '\\' → rest = []) (hread : readFrom p (fuel + 1) (c :: rest) = .ok p') :
    readFrom (p.pushLiteral c) fuel rest = .ok p' := by
  simp only [isMeta, Bool.or_eq_true, decide_eq_true_eq, not_or, ne_eq] at hmeta
  obtain ⟨⟨⟨hstar, hone⟩, hset⟩, hopen⟩ := hmeta
  rw [readFrom.eq_def] at hread
  dsimp only at hread
  rw [if_neg hone, if_neg hstar, if_neg hset, if_neg hopen, Progress.closeChoice, Progress.nextBranch,
    hopenings] at hread
  split at hread
  · cases hread
  · split at hread
    · next hcomma =>
      subst hcomma
      exact hread
    · split at hread
      · next hbackslash =>
        rw [hescape hbackslash] at hread
        cases hread
      · exact hread

theorem keeps_literalFront {p p' : Progress} {fuel : Nat} {t : Text} (h : p.IsLiteral lit) (hfuel : t.length ≤ fuel)
    (hread : readFrom p fuel t = .ok p') : p'.Keeps (lit ++ Text.bytes (literalFront t)) := by
  fun_induction literalFront t generalizing p fuel lit with
  | case1 c rest ih =>
    cases fuel with
    | zero => simp at hfuel
    | succ fuel =>
      have hrest : rest.length ≤ fuel := by simp at hfuel; omega
      rw [bytes_cons, ← List.append_assoc]
      exact ih (h.pushLiteral c) hrest hread
  | case2 c rest _ hmeta =>
    rw [show Text.bytes [] = [] from rfl, List.append_nil]
    exact keeps_of_readFrom h.keeps hread
  | case3 c rest hescape hmeta ih =>
    cases fuel with
    | zero => simp at hfuel
    | succ fuel =>
      have hrest : rest.length ≤ fuel := by simpa using hfuel
      have hlast : c = '\\' → rest = [] := fun hc =>
        List.eq_nil_iff_forall_not_mem.2 fun d hd => by
          obtain ⟨e, more, rfl⟩ := List.exists_cons_of_ne_nil (List.ne_nil_of_mem hd)
          exact hescape e more hc rfl
      rw [bytes_cons, ← List.append_assoc]
      exact ih (h.pushLiteral c) hrest (readFrom_plain h.openings hmeta hlast hread)
  | case4 =>
    rw [show Text.bytes [] = [] from rfl, List.append_nil]
    exact keeps_of_readFrom h.keeps hread

/-- Every path that a pattern matches begins with the literal front of the pattern. -/
theorem literalFront_prefix_of_accepts {pattern path : Text} {glob : Glob} (hparse : parse pattern = .ok glob)
    (h : glob.accepts separated path = true) : literalFront pattern <+: path := by
  rw [parse] at hparse
  split at hparse
  · cases hparse
  · next p hread =>
    have hkeeps := keeps_literalFront Progress.isLiteral_start (Nat.le_refl _) hread
    split at hparse
    · next hopenings =>
      cases hparse
      have hstem := hkeeps.stem
      rw [List.isEmpty_iff.1 hopenings, Progress.outermost, List.nil_append] at hstem
      apply Text.prefix_of_bytes_prefix
      unfold accepts at h
      split at h
      · next hparts =>
        rw [List.reverse_eq_iff.1 hparts] at hstem
        rw [hstem.eq_nil_of_leadingDirs]
        exact List.nil_prefix
      · exact hstem.prefix_of_run h
    · cases hparse

end Glob

end Cull
