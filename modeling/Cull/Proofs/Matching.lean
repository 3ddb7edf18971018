import Cull.Text.Pattern

/-!
# What patterns match

The matcher tries one way after the other and asks what comes behind the pattern whether
it can go on. `Pattern.Matches` says which words a pattern stands for, without any order.
The matcher succeeds if the text begins with such a word and the rest can go on
(`isSome_run`), and what it answers is the answer for such a rest
(`exists_of_run_eq_some`).

Which of several words is taken is a matter of order. Where only one value can be captured
at a place, order does not come into it: the search finds that value if it is the only one
that can be captured at any place up to there (`mem_captures`).
-/

namespace Cull

namespace Pattern

variable {α : Type}

/-- The pattern stands for the word. -/
def Matches : Pattern → Text → Prop
  | empty, w => w = []
  | one accepts, w => ∃ c, accepts c = true ∧ w = [c]
  | many accepts, w => ∀ c ∈ w, accepts c = true
  | seq p q, w => ∃ x y, Matches p x ∧ Matches q y ∧ w = x ++ y
  | alt p q, w => Matches p w ∨ Matches q w
  | rounds p, w => ∃ ws : List Text, (∀ x ∈ ws, Matches p x) ∧ w = ws.flatten

/-! ### The matcher finds words of the pattern -/

theorem orElse_eq_some {x y : Option α} {a : α} (h : (x <|> y) = some a) : x = some a ∨ y = some a := by
  cases x with
  | none => exact .inr h
  | some b => exact .inl h

theorem exists_of_runMany_eq_some {accepts : Char → Bool} {k : Text → Option α} {t : Text} {a : α}
    (h : runMany accepts k t = some a) :
    ∃ w rest, (∀ c ∈ w, accepts c = true) ∧ k rest = some a ∧ t = w ++ rest := by
  induction t with
  | nil => exact ⟨[], [], by simp, h, rfl⟩
  | cons c t ih =>
    rw [runMany] at h
    split at h
    · next hc =>
      rcases orElse_eq_some h with hmore | hstop
      · obtain ⟨w, rest, hw, hk, rfl⟩ := ih hmore
        exact ⟨c :: w, rest, List.forall_mem_cons.2 ⟨hc, hw⟩, hk, rfl⟩
      · exact ⟨[], c :: t, by simp, hstop, rfl⟩
    · exact ⟨[], c :: t, by simp, h, rfl⟩

/-- If each round of a step takes a word of the pattern, the rounds take several of them. -/
theorem exists_of_runRounds_eq_some {p : Pattern} {k : Text → Option α} {n : Nat} {t : Text} {a : α}
    (hp : ∀ {t : Text} {k : Text → Option α}, run p t k = some a →
      ∃ w rest, p.Matches w ∧ k rest = some a ∧ t = w ++ rest)
    (h : runRounds (run p) k n t = some a) :
    ∃ w rest, (rounds p).Matches w ∧ k rest = some a ∧ t = w ++ rest := by
  induction n generalizing t with
  | zero => exact ⟨[], t, ⟨[], by simp, rfl⟩, h, rfl⟩
  | succ n ih =>
    rcases orElse_eq_some h with hmore | hstop
    · obtain ⟨w, behind, hw, hrest, rfl⟩ := hp hmore
      obtain ⟨w', rest, ⟨ws, hws, rfl⟩, hk, rfl⟩ := ih hrest
      refine ⟨w ++ ws.flatten, rest, ⟨w :: ws, List.forall_mem_cons.2 ⟨hw, hws⟩, rfl⟩, hk, ?_⟩
      rw [List.append_assoc]
    · exact ⟨[], t, ⟨[], by simp, rfl⟩, hstop, rfl⟩

/-- The matcher answers what is answered behind a word of the pattern. -/
theorem exists_of_run_eq_some {p : Pattern} {t : Text} {k : Text → Option α} {a : α} (h : run p t k = some a) :
    ∃ w rest, p.Matches w ∧ k rest = some a ∧ t = w ++ rest := by
  induction p generalizing t k with
  | empty => exact ⟨[], t, rfl, h, rfl⟩
  | one accepts =>
    cases t with
    | nil => cases h
    | cons c t =>
      simp only [run] at h
      split at h
      · next hc => exact ⟨[c], t, ⟨c, hc, rfl⟩, h, rfl⟩
      · cases h
  | many accepts => exact exists_of_runMany_eq_some h
  | seq p q ihp ihq =>
    obtain ⟨x, behind, hx, hbehind, rfl⟩ := ihp h
    obtain ⟨y, rest, hy, hk, rfl⟩ := ihq hbehind
    exact ⟨x ++ y, rest, ⟨x, y, hx, hy, rfl⟩, hk, (List.append_assoc x y rest).symm⟩
  | alt p q ihp ihq =>
    rcases orElse_eq_some h with hp | hq
    · obtain ⟨w, rest, hw, hk, ht⟩ := ihp hp
      exact ⟨w, rest, .inl hw, hk, ht⟩
    · obtain ⟨w, rest, hw, hk, ht⟩ := ihq hq
      exact ⟨w, rest, .inr hw, hk, ht⟩
  | rounds p ih => exact exists_of_runRounds_eq_some ih h

/-! ### The matcher misses none -/

theorem isSome_orElse_left {x y : Option α} (h : x.isSome = true) : (x <|> y).isSome = true := by
  cases x with
  | none => cases h
  | some a => rfl

theorem isSome_orElse_right {x y : Option α} (h : y.isSome = true) : (x <|> y).isSome = true := by
  cases x with
  | none => exact h
  | some a => rfl

theorem isSome_runMany {accepts : Char → Bool} {k : Text → Option α} {w rest : Text}
    (hw : ∀ c ∈ w, accepts c = true) (hk : (k rest).isSome = true) : (runMany accepts k (w ++ rest)).isSome = true := by
  induction w with
  | nil =>
    -- the run may go on into the rest, but it need not
    cases rest with
    | nil => exact hk
    | cons c rest =>
      rw [List.nil_append, runMany]
      split
      · exact isSome_orElse_right hk
      · exact hk
  | cons c w ih =>
    obtain ⟨hc, hw⟩ := List.forall_mem_cons.1 hw
    rw [List.cons_append, runMany, if_pos hc]
    exact isSome_orElse_left (ih hw)

/-- As many rounds as there are characters are enough: an empty round can be left out. -/
theorem isSome_runRounds {p : Pattern} {k : Text → Option α} {rest : Text} {ws : List Text} {n : Nat}
    (hp : ∀ {w rest : Text} {k : Text → Option α}, p.Matches w → (k rest).isSome = true →
      (run p (w ++ rest) k).isSome = true)
    (hws : ∀ w ∈ ws, p.Matches w) (hk : (k rest).isSome = true) (hn : ws.flatten.length ≤ n) :
    (runRounds (run p) k n (ws.flatten ++ rest)).isSome = true := by
  induction ws generalizing n with
  | nil =>
    cases n with
    | zero => exact hk
    | succ n => exact isSome_orElse_right hk
  | cons w ws ih =>
    obtain ⟨hw, hrest⟩ := List.forall_mem_cons.1 hws
    rw [List.flatten_cons, List.length_append] at hn
    cases w with
    | nil => exact ih hrest (by simpa using hn)
    | cons c w =>
      cases n with
      | zero => simp at hn
      | succ n =>
        rw [List.flatten_cons, List.append_assoc, runRounds]
        refine isSome_orElse_left (hp hw (ih hrest ?_))
        rw [List.length_cons] at hn
        omega

theorem isSome_run {p : Pattern} {w rest : Text} {k : Text → Option α} (hw : p.Matches w)
    (hk : (k rest).isSome = true) : (run p (w ++ rest) k).isSome = true := by
  induction p generalizing w rest k with
  | empty =>
    obtain rfl : w = [] := hw
    exact hk
  | one accepts =>
    obtain ⟨c, hc, rfl⟩ := hw
    simp only [List.singleton_append, run, if_pos hc]
    exact hk
  | many accepts => exact isSome_runMany hw hk
  | seq p q ihp ihq =>
    obtain ⟨x, y, hx, hy, rfl⟩ := hw
    rw [List.append_assoc, run]
    exact ihp hx (ihq hy hk)
  | alt p q ihp ihq =>
    rw [run]
    rcases hw with hp | hq
    · exact isSome_orElse_left (ihp hp hk)
    · exact isSome_orElse_right (ihq hq hk)
  | rounds p ih =>
    obtain ⟨ws, hws, rfl⟩ := hw
    rw [run]
    exact isSome_runRounds ih hws hk (by simp)

/-- A text that is taken up whole is a word of the pattern. -/
theorem matches_of_rest? {p : Pattern} {w : Text} (h : p.rest? w = some []) : p.Matches w := by
  obtain ⟨v, rest, hv, hrest, rfl⟩ := exists_of_run_eq_some h
  obtain rfl := Option.some.inj hrest
  rwa [List.append_nil]

/-! ### Characters that do not occur -/

/-- No set of characters in the pattern has the character. -/
def avoids (d : Char) : Pattern → Bool
  | empty => true
  | one accepts => !accepts d
  | many accepts => !accepts d
  | seq p q => avoids d p && avoids d q
  | alt p q => avoids d p && avoids d q
  | rounds p => avoids d p

theorem not_mem_of_avoids {d : Char} {p : Pattern} (h : p.avoids d = true) {w : Text} (hw : p.Matches w) : d ∉ w := by
  induction p generalizing w with
  | empty =>
    obtain rfl : w = [] := hw
    exact List.not_mem_nil
  | one accepts =>
    obtain ⟨c, hc, rfl⟩ := hw
    intro hd
    rw [avoids, List.mem_singleton.1 hd, hc] at h
    cases h
  | many accepts =>
    intro hd
    rw [avoids, hw d hd] at h
    cases h
  | seq p q ihp ihq =>
    obtain ⟨x, y, hx, hy, rfl⟩ := hw
    obtain ⟨hp, hq⟩ := Bool.and_eq_true_iff.1 h
    exact fun hd => (List.mem_append.1 hd).elim (ihp hp hx) (ihq hq hy)
  | alt p q ihp ihq =>
    obtain ⟨hp, hq⟩ := Bool.and_eq_true_iff.1 h
    exact hw.elim (ihp hp) (ihq hq)
  | rounds p ih =>
    obtain ⟨ws, hws, rfl⟩ := hw
    intro hd
    obtain ⟨x, hx, hd⟩ := List.mem_flatten.1 hd
    exact ih h (hws x hx) hd

end Pattern

/-! ### Captured values -/

namespace Capture

variable {c : Capture}

/-- The text begins with a lead, a value to capture and a tail. -/
def Splits (c : Capture) (t value rest : Text) : Prop :=
  ∃ x y, c.lead.Matches x ∧ c.body.Matches value ∧ c.tail.Matches y ∧ t = x ++ (value ++ (y ++ rest))

theorem splits_of_match? {t value rest : Text} (h : c.match? t = some (value, rest)) : c.Splits t value rest := by
  obtain ⟨x, fromBody, hx, hbody, rfl⟩ := Pattern.exists_of_run_eq_some h
  obtain ⟨w, fromTail, hw, htail, rfl⟩ := Pattern.exists_of_run_eq_some hbody
  obtain ⟨y, last, hy, hlast, rfl⟩ := Pattern.exists_of_run_eq_some htail
  have hvalue : (w ++ (y ++ last)).take ((w ++ (y ++ last)).length - (y ++ last).length) = w := by
    simp
  rw [hvalue] at hlast
  cases hlast
  exact ⟨x, y, hx, hw, hy, rfl⟩

theorem exists_match?_of_splits {t value rest : Text} (h : c.Splits t value rest) :
    ∃ value' rest', c.match? t = some (value', rest') := by
  obtain ⟨x, y, hx, hw, hy, rfl⟩ := h
  have hsome : (c.match? (x ++ (value ++ (y ++ rest)))).isSome = true :=
    Pattern.isSome_run hx (Pattern.isSome_run hw (Pattern.isSome_run hy rfl))
  obtain ⟨⟨value', rest'⟩, h⟩ := Option.isSome_iff_exists.1 hsome
  exact ⟨value', rest', h⟩

/-- A value that can be captured somewhere is captured, if no other can be captured there or before. -/
theorem mem_captures {front t value rest : Text} (ht : t ≠ []) (h : c.Splits t value rest)
    (honly : ∀ s, s <:+ front → ∀ value' rest', c.Splits (s ++ t) value' rest' → value' = value) :
    value ∈ c.captures (front ++ t) := by
  rw [captures]
  induction front with
  | nil =>
    obtain ⟨value', rest', hmatch⟩ := exists_match?_of_splits h
    obtain rfl := honly [] (List.suffix_refl _) _ _ (splits_of_match? hmatch)
    obtain ⟨d, t, rfl⟩ := List.exists_cons_of_ne_nil ht
    rw [List.nil_append, capturesFrom, hmatch]
    exact .head _
  | cons d front ih =>
    rw [List.cons_append, capturesFrom]
    cases hmatch : c.match? (d :: (front ++ t)) with
    | none => exact ih fun s hs => honly s (hs.trans (List.suffix_cons d front))
    | some found =>
      obtain ⟨value', rest'⟩ := found
      obtain rfl := honly (d :: front) (List.suffix_refl _) _ _ (splits_of_match? hmatch)
      exact .head _

end Capture

end Cull
