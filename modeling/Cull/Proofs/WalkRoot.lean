import Cull.Proofs.GlobFront
import Cull.Proofs.Writing
import Mathlib.Data.List.Nodup
import Mathlib.Data.List.Perm.Subperm
import Mathlib.Data.List.TakeWhile

/-!
# Where the search for a pattern begins

The files for a pattern are searched for below its root only. The root is read off the pattern by a
scan of its own, which takes a backslash for a separator, while for the glob it lets the next
character stand for itself. Where the two readings agree, that is, where the literal front of the
pattern leads into the root (`Glob.Fits`), everything that the pattern can match lies in the root,
and the search misses nothing. Where they do not agree it misses everything
(`search_from_root_complete_iff`).
-/

namespace Cull

namespace Path

variable {p q r : Text}

/-! ### Paths into a directory -/

theorem parts_append (x y : Text) : parts (x ++ '/' :: y) = parts x ++ parts y :=
  Text.splitOn_append (by simp) x y

theorem parts_cons (x : Text) : ∃ first rest, parts x = first :: rest :=
  List.exists_cons_of_ne_nil (Text.splitOn_ne_nil _ x)

theorem parts_of_name {name : Text} (h : '/' ∉ name) : parts name = [name] :=
  Text.splitOn_eq_singleton fun _ hc => decide_eq_false fun heq => h (heq ▸ hc)

/-- The first part of a path is empty if the path is, or if it begins with a slash. -/
theorem first_ne_nil_iff {x first : Text} {rest : List Text} (hparts : parts x = first :: rest) :
    first ≠ [] ↔ x ≠ [] ∧ x.head? ≠ some '/' := by
  cases x with
  | nil =>
    obtain ⟨rfl, -⟩ := List.cons.inj hparts
    simp
  | cons c x =>
    by_cases hc : c = '/'
    · subst hc
      rw [show '/' :: x = [] ++ '/' :: x from rfl, parts_append] at hparts
      obtain ⟨rfl, -⟩ := List.cons.inj hparts
      simp
    · obtain ⟨second, more, hx⟩ := parts_cons x
      rw [parts] at hx
      rw [parts, Text.splitOn, if_neg (by simpa using hc), hx] at hparts
      obtain ⟨rfl, -⟩ := List.cons.inj hparts
      simpa using hc

theorem intercalate_parts (x : Text) : ['/'].intercalate (parts x) = x := by
  induction x with
  | nil => rfl
  | cons c x ih =>
    obtain ⟨first, rest, hx⟩ := parts_cons x
    rw [parts] at hx ih
    rw [parts, Text.splitOn]
    split
    · next hc =>
      rw [hx] at ih ⊢
      simp only [decide_eq_true_eq] at hc
      rw [List.intercalate_cons_cons, ih, hc]
      rfl
    · rw [hx] at ih ⊢
      rw [← ih]
      cases rest with
      | nil => simp
      | cons second rest => simp [List.intercalate_cons_cons]

theorem parts_intercalate {names : List Text} (hne : names ≠ []) (h : ∀ name ∈ names, '/' ∉ name) :
    parts (['/'].intercalate names) = names := by
  induction names with
  | nil => exact absurd rfl hne
  | cons name names ih =>
    obtain ⟨hname, hnames⟩ := List.forall_mem_cons.1 h
    cases names with
    | nil => simpa using parts_of_name hname
    | cons second names =>
      rw [List.intercalate_cons_cons, List.append_assoc, List.singleton_append, parts_append, parts_of_name hname,
        ih (by simp) hnames]
      rfl

theorem join_append (r x y : Text) : join r (x ++ y) = join r x ++ y := by
  unfold join
  split <;> simp

theorem prefix_join (r x : Text) : r <+: join r x := by
  unfold join
  split <;> simp

theorem join_join {name : Text} (hname : name ≠ []) (hslash : '/' ∉ name) (r y : Text) :
    join (join r name) y = join r (name ++ '/' :: y) := by
  have hlast : (join r name).getLast? = name.getLast? := by
    unfold join
    split <;> simp [List.getLast?_append, List.getLast?_cons, List.getLast?_eq_some_getLast hname]
  have hne : (join r name).getLast? ≠ some '/' := fun h => hslash (List.mem_of_getLast? (hlast ▸ h))
  conv_lhs => rw [join, if_neg hne]
  rw [join_append]

/-- What is reached by names one after the other. -/
theorem foldl_join {names : List Text} (hne : names ≠ []) (h : ∀ name ∈ names, name ≠ [] ∧ '/' ∉ name) (r : Text) :
    names.foldl join r = join r (['/'].intercalate names) := by
  induction names generalizing r with
  | nil => exact absurd rfl hne
  | cons name names ih =>
    obtain ⟨hname, hnames⟩ := List.forall_mem_cons.1 h
    cases names with
    | nil => simp
    | cons second names =>
      rw [List.foldl_cons, ih (by simp) hnames, join_join hname.1 hname.2, List.intercalate_cons_cons,
        List.append_assoc, List.singleton_append]

/-- What is joined to a directory stands behind a slash. -/
theorem exists_slash_join (r : Text) : ∃ x, join r [] = x ++ ['/'] ∧ (r = x ∨ r = x ++ ['/']) := by
  unfold join
  split
  · next h =>
    obtain ⟨x, rfl⟩ := List.getLast?_eq_some_iff.1 h
    exact ⟨x, by simp, .inr rfl⟩
  · exact ⟨r, rfl, .inl rfl⟩

theorem parts_join {x : Text} (hx : join r [] = x ++ ['/']) (y : Text) : parts (join r y) = parts x ++ parts y := by
  have hjoin : join r y = join r [] ++ y := join_append r [] y
  rw [hjoin, hx, List.append_assoc, List.singleton_append, parts_append]

theorem withoutDot_of_name {first : Text} {rest : List Text} (hp : parts p = first :: rest) (hfirst : first ≠ ['.']) :
    withoutDot p = p := by
  unfold withoutDot
  rw [hp]
  split
  · next heq => exact absurd (List.cons.inj heq).1 hfirst
  · rfl

theorem withoutDot_dot {names : List Text} (hnames : parts p = names) (hidle : ∀ name ∈ names, isIdle name = false) :
    withoutDot (join ['.'] p) = p := by
  have hparts : parts (join ['.'] p) = ['.'] :: names := by
    rw [← hnames]
    exact parts_append ['.'] p
  have hdrop : dropIdle names = names := by
    cases names with
    | nil => rfl
    | cons name rest => rw [dropIdle, hidle name (by simp), if_neg Bool.false_ne_true]
  unfold withoutDot
  rw [hparts]
  change ['/'].intercalate (dropIdle names) = p
  rw [hdrop, ← hnames, intercalate_parts]

/-- A path from which the dot in front is taken begins with it. -/
theorem withoutDot_cases (p : Text) : withoutDot p = p ∨ p = ['.'] ∨ ['.', '/'] <+: p := by
  obtain ⟨first, rest, hp⟩ := parts_cons p
  by_cases hfirst : first = ['.']
  · subst hfirst
    have heq := intercalate_parts p
    rw [hp] at heq
    cases rest with
    | nil => exact .inr (.inl (by simpa using heq.symm))
    | cons second rest =>
      rw [List.intercalate_cons_cons] at heq
      exact .inr (.inr ⟨_, heq⟩)
  · exact .inl (withoutDot_of_name hp hfirst)

/-- The path lies in the directory. Every relative path lies in the working directory. -/
def Inside (q r : Text) : Prop := components r <+: components q ∨ (components r = [['.']] ∧ q.head? ≠ some '/')

instance (q r : Text) : Decidable (Inside q r) := inferInstanceAs (Decidable (_ ∨ _))

theorem components_append (x y : Text) :
    components (x ++ '/' :: y) = components (x ++ ['/']) ++ (parts y).filter (!isIdle ·) := by
  obtain ⟨first, rest, hx⟩ := parts_cons x
  have hslash : parts (x ++ ['/']) = first :: (rest ++ [[]]) := by
    rw [parts_append, hx]
    rfl
  have hparts : parts (x ++ '/' :: y) = first :: (rest ++ parts y) := by rw [parts_append, hx, List.cons_append]
  have hy : (rest ++ parts y).isEmpty = false := by
    obtain ⟨second, more, hy⟩ := parts_cons y
    simp [hy]
  simp [components, hslash, hparts, hy, isIdle]

theorem components_slash {x : Text} (hx : x ≠ []) : components (x ++ ['/']) = components x := by
  obtain ⟨first, rest, hparts⟩ := parts_cons x
  have hslash : parts (x ++ ['/']) = first :: (rest ++ [[]]) := by
    rw [parts_append, hparts]
    rfl
  have hfirst : first.isEmpty = true → rest.isEmpty = false := by
    rw [List.isEmpty_iff, ← Bool.not_eq_true, List.isEmpty_iff]
    rintro rfl rfl
    have heq := intercalate_parts x
    rw [hparts] at heq
    exact hx heq.symm
  simp only [components, hslash, hparts]
  cases hempty : first.isEmpty with
  | true => simp [hfirst hempty, isIdle]
  | false => simp [isIdle]

/-- A path that begins with that of a directory and a slash lies in the directory. -/
theorem inside_join (hr : r ≠ []) (y : Text) : Inside (join r y) r := by
  have hjoin : join r y = join r [] ++ y := join_append r [] y
  obtain ⟨x, hx, heq⟩ := exists_slash_join r
  rw [Inside, hjoin, hx, List.append_assoc, List.singleton_append, components_append]
  rcases heq with rfl | rfl
  · rw [components_slash hr]
    exact .inl (List.prefix_append _ _)
  · exact .inl (List.prefix_append _ _)

end Path

namespace Glob

variable {pattern : Text}

/-! ### The root and the literal front -/

/-- What the pattern says literally leads into its root. -/
def Fits (pattern : Text) : Prop :=
  root pattern = ['.'] ∨ Path.join (root pattern) [] <+: literalFront pattern

instance (pattern : Text) : Decidable (Fits pattern) := inferInstanceAs (Decidable (_ ∨ _))

/-- A text is cut before the characters at its end that satisfy a condition. -/
theorem exists_trimmed (sep : Char → Bool) (t : Text) :
    ∃ front back, t = front ++ back ∧ (t.reverse.dropWhile sep).reverse = front ∧ (∀ c ∈ back, sep c = true) ∧
      ∀ c, front.getLast? = some c → sep c = false := by
  refine ⟨(t.reverse.dropWhile sep).reverse, (t.reverse.takeWhile sep).reverse, ?_, rfl, ?_, ?_⟩
  · rw [← List.reverse_append, List.takeWhile_append_dropWhile, List.reverse_reverse]
  · intro c hc
    exact List.mem_takeWhile_imp (List.mem_reverse.1 hc)
  · intro c hc
    have hhead := List.head?_dropWhile_not sep t.reverse
    rw [List.getLast?_reverse] at hc
    simpa [hc] using hhead

/-- The text ends with a separator. -/
def EndsSeparated (t : Text) : Prop := ∃ c, t.getLast? = some c ∧ isSeparator c = true

theorem endsSeparated_iff {t : Text} : t.getLast?.any isSeparator = true ↔ EndsSeparated t := by
  rw [Option.any_eq_true, EndsSeparated]

/-- A root that is not the working directory stands at the start of the pattern, before all that stands for something
else; it ends with a separator, or one follows, and not both. -/
theorem takeWhile_eq_root_append (h : isPattern pattern = true) :
    root pattern = ['.'] ∨ root pattern ≠ [] ∧ ∃ c rest, pattern.takeWhile (!isMeta ·) = root pattern ++ c :: rest ∧
      (isSeparator c = true ↔ ¬EndsSeparated (root pattern)) := by
  obtain ⟨front, back, hplain, hfront, hback, hlast⟩ := exists_trimmed isSeparator (pattern.takeWhile (!isMeta ·))
  have hfree : ¬EndsSeparated front := by
    rintro ⟨c, hc, hsep⟩
    simp [hlast c hc] at hsep
  unfold root
  dsimp only
  rw [hfront, h, Bool.true_and]
  split
  · exact .inl rfl
  · next hne =>
    have hne : front ≠ [] := by simpa using hne
    cases back with
    | cons c rest =>
      -- the separators behind the front are cut off
      have hends : (pattern.takeWhile (!isMeta ·)).getLast?.any isSeparator = true := by
        refine endsSeparated_iff.2 ⟨(c :: rest).getLast (by simp), ?_, hback _ (List.getLast_mem _)⟩
        rw [hplain, List.getLast?_append_of_ne_nil _ (by simp), List.getLast?_eq_some_getLast]
      rw [hends, if_neg (by simp)]
      exact .inr ⟨hne, c, rest, hplain, iff_of_true (hback c List.mem_cons_self) hfree⟩
    | nil =>
      -- the front ends within a part, which is cut off
      rw [List.append_nil] at hplain
      rw [hplain, Bool.eq_false_iff.2 (mt endsSeparated_iff.1 hfree), if_pos (by simp)]
      split
      · next hany =>
        obtain ⟨dirs, name, hsplit, hdirs, hname, hslash⟩ := exists_trimmed (!isSeparator ·) front
        rw [throughSeparator, hdirs, hsplit]
        obtain ⟨s, hs, hsep⟩ := List.any_eq_true.1 hany
        have hne : dirs ≠ [] := by
          rintro rfl
          have := hname s (by simpa [hsplit] using hs)
          simp [hsep] at this
        have hends : EndsSeparated dirs :=
          ⟨dirs.getLast hne, List.getLast?_eq_some_getLast hne, by
            simpa using hslash _ (List.getLast?_eq_some_getLast hne)⟩
        cases name with
        | nil =>
          rw [List.append_nil] at hsplit
          exact absurd (hsplit ▸ hends) hfree
        | cons c rest => exact .inr ⟨hne, c, rest, rfl, iff_of_false (by simpa using hname c) (not_not_intro hends)⟩
      · exact .inl rfl

/-- A pattern cut behind its root. -/
structure CutAt (pattern r : Text) (c : Char) (rest : Text) : Prop where
  /-- The root, the character behind it and the rest make up the pattern. -/
  eq : pattern = r ++ c :: rest
  /-- The root is not empty. -/
  ne_nil : r ≠ []
  /-- Something stands behind that character. -/
  rest_ne_nil : rest ≠ []
  /-- All characters of the root can be literal. -/
  root_plain : ∀ d ∈ r, isMeta d = false
  /-- So can the one behind it. -/
  next_plain : isMeta c = false
  /-- The root ends with a separator, or one follows, and not both. -/
  separated : isSeparator c = true ↔ ¬EndsSeparated r

theorem root_cases (h : isPattern pattern = true) :
    root pattern = ['.'] ∨ ∃ c rest, CutAt pattern (root pattern) c rest := by
  rcases takeWhile_eq_root_append h with hroot | ⟨hne, c, rest, hplain, hsep⟩
  · exact .inl hroot
  · have hpattern := (List.takeWhile_append_dropWhile (p := (!isMeta ·)) (l := pattern)).symm
    have hplains : ∀ d ∈ root pattern ++ c :: rest, isMeta d = false := by
      intro d hd
      rw [← hplain] at hd
      simpa using List.mem_takeWhile_imp hd
    rw [hplain, List.append_assoc, List.cons_append] at hpattern
    refine .inr ⟨c, _, hpattern, hne, ?_, fun d hd => hplains d (by simp [hd]), hplains c (by simp), hsep⟩
    -- the character that makes it a pattern comes later
    intro hnil
    rw [List.append_eq_nil_iff] at hnil
    obtain ⟨m, hm, hmeta⟩ := List.any_eq_true.1 h
    rw [hpattern, hnil.1, hnil.2] at hm
    rw [hplains m (by simpa [hnil.1] using hm)] at hmeta
    cases hmeta

theorem root_ne_nil (h : isPattern pattern = true) : root pattern ≠ [] := by
  rcases root_cases h with hroot | ⟨c, rest, hcut⟩
  · simp [hroot]
  · exact hcut.ne_nil

/-- A run of backslashes is longer than what it stands for. -/
theorem not_prefix_of_run {x : Char} (hx : x ≠ '\\') (hmeta : isMeta x = false) (rest : Text) (m k : Nat)
    (hpos : 0 < m + k) {p : Text} (hfront : literalFront (List.replicate m '\\' ++ x :: rest) <+: p) :
    ¬List.replicate (m + k) '\\' <+: p := by
  -- what begins with `x` does not begin with a backslash
  have hne : ∀ {n : Nat} {y q : Text}, 0 < n → x :: y <+: q → ¬List.replicate n '\\' <+: q := by
    rintro (_ | n) y q hn ⟨z, rfl⟩ hrun
    · exact absurd hn (lt_irrefl 0)
    · exact hx (List.cons_prefix_cons.1 hrun).1.symm
  match m with
  | 0 =>
    rw [List.replicate_zero, List.nil_append, literalFront_plain hx hmeta] at hfront
    exact hne hpos hfront
  | 1 => exact hne hpos hfront
  | m + 2 =>
    obtain ⟨z, rfl⟩ := hfront
    have hfront := List.prefix_append (literalFront (List.replicate m '\\' ++ x :: rest)) z
    intro hrun
    rw [show m + 2 + k = m + (k + 1) + 1 by omega] at hrun
    exact not_prefix_of_run hx hmeta rest m (k + 1) (by omega) hfront (List.cons_prefix_cons.1 hrun).2

/-- A text, with a character behind it, begins with a run of backslashes and something else. -/
theorem exists_run {s : Text} {c : Char} (hs : ∀ d ∈ s, isMeta d = false) (hc : isMeta c = false)
    (hrun : (∀ d ∈ s, d = '\\') → c ≠ '\\') (rest : Text) :
    ∃ m x tail, s ++ c :: rest = List.replicate m '\\' ++ x :: tail ∧ x ≠ '\\' ∧ isMeta x = false ∧
      List.replicate m '\\' <+: s := by
  induction s with
  | nil => exact ⟨0, c, rest, rfl, hrun (by simp), hc, List.nil_prefix⟩
  | cons d s ih =>
    obtain ⟨hd, hs⟩ := List.forall_mem_cons.1 hs
    by_cases hslash : d = '\\'
    · obtain ⟨m, x, tail, heq, hx, hmeta, hleads⟩ := ih hs fun hall => hrun (List.forall_mem_cons.2 ⟨hslash, hall⟩)
      refine ⟨m + 1, x, tail, ?_, hx, hmeta, ?_⟩
      · rw [List.cons_append, heq, hslash]
        rfl
      · rw [hslash]
        exact List.cons_prefix_cons.2 ⟨rfl, hleads⟩
    · exact ⟨0, d, s ++ c :: rest, rfl, hslash, hd, List.nil_prefix⟩

theorem eq_slash_of_isSeparator {c : Char} (h : isSeparator c = true) (hc : c ≠ '\\') : c = '/' := by
  simpa [isSeparator, hc] using h

/-- Where there is no backslash, the two readings of a pattern agree. -/
theorem CutAt.join_leads {r rest : Text} {c : Char} (h : CutAt pattern r c rest) (hr : '\\' ∉ r) (hc : c ≠ '\\') :
    Path.join r [] <+: literalFront pattern := by
  rw [h.eq, literalFront_append hr h.root_plain]
  by_cases hends : EndsSeparated r
  · obtain ⟨d, hd, hdsep⟩ := hends
    have hne : d ≠ '\\' := fun heq => hr (heq ▸ List.mem_of_getLast? hd)
    rw [Path.join, hd, eq_slash_of_isSeparator hdsep hne, if_pos rfl]
    simp
  · obtain rfl := eq_slash_of_isSeparator (h.separated.2 hends) hc
    have hlast : r.getLast? ≠ some '/' := fun h => hends ⟨'/', h, rfl⟩
    rw [Path.join, if_neg hlast, literalFront_plain hc rfl]
    simp

/-- What a root with a backslash in it says literally is something else. -/
theorem CutAt.not_leads {r rest : Text} {c : Char} (h : CutAt pattern r c rest) (hr : '\\' ∈ r) {p : Text}
    (hfront : literalFront pattern <+: p) : ¬r <+: p := by
  rintro ⟨z, rfl⟩
  obtain ⟨a, b, rfl, ha⟩ := List.eq_append_cons_of_mem hr
  have hlast : (∀ d ∈ '\\' :: b, d = '\\') → c ≠ '\\' := by
    rintro hall rfl
    refine h.separated.1 rfl ⟨'\\', ?_, rfl⟩
    rw [List.getLast?_append_of_ne_nil _ (List.cons_ne_nil _ b), List.getLast?_eq_some_getLast (List.cons_ne_nil _ b),
      hall _ (List.getLast_mem _)]
  obtain ⟨m, x, tail, hrun, hx, hmeta, hleads⟩ :=
    exists_run (fun d hd => h.root_plain d (List.mem_append_right a hd)) h.next_plain hlast rest
  have hpos : 0 < m := by
    refine Nat.pos_of_ne_zero fun hzero => hx ?_
    subst hzero
    exact (List.cons.inj hrun).1.symm
  rw [h.eq, List.append_assoc, literalFront_append ha fun d hd => h.root_plain d (List.mem_append_left _ hd), hrun,
    List.append_assoc, List.prefix_append_right_inj] at hfront
  exact not_prefix_of_run hx hmeta tail m 0 hpos hfront (hleads.trans (List.prefix_append _ z))

/-- A pattern says more literally than its root. -/
theorem CutAt.not_prefix_root {r rest : Text} {c : Char} (h : CutAt pattern r c rest) : ¬literalFront pattern <+: r := by
  intro hleads
  have hr : '\\' ∉ r := fun hmem => h.not_leads hmem hleads (List.prefix_refl r)
  rw [h.eq, literalFront_append hr h.root_plain] at hleads
  have hnil : literalFront (c :: rest) = [] := by
    have hlength := hleads.length_le
    rw [List.length_append] at hlength
    exact List.eq_nil_of_length_eq_zero (by omega)
  by_cases hc : c = '\\'
  · obtain ⟨e, rest, rfl⟩ := List.exists_cons_of_ne_nil h.rest_ne_nil
    rw [hc, literalFront_escaped] at hnil
    cases hnil
  · rw [literalFront_plain hc h.next_plain] at hnil
    cases hnil

theorem fits_of_not_mem (h : isPattern pattern = true) (hb : '\\' ∉ pattern) : Fits pattern := by
  rcases root_cases h with hroot | ⟨c, rest, hcut⟩
  · exact .inl hroot
  · rw [hcut.eq, List.mem_append, List.mem_cons, not_or, not_or] at hb
    exact .inr (hcut.join_leads hb.1 (Ne.symm hb.2.1))

/-- A path that begins with the root begins with what the pattern says literally only if the latter leads into the
root. -/
theorem fits_of_prefix (h : isPattern pattern = true) {p : Text} (hroot : Path.join (root pattern) [] <+: p)
    (hfront : literalFront pattern <+: p) : Fits pattern := by
  rcases root_cases h with hdot | ⟨c, rest, hcut⟩
  · exact .inl hdot
  · have hr : '\\' ∉ root pattern := fun hmem => hcut.not_leads hmem hfront ((Path.prefix_join _ []).trans hroot)
    by_cases hc : c = '\\'
    · -- the backslash lets the next character stand for itself, which must be the slash behind the root
      subst hc
      obtain ⟨e, rest, rfl⟩ := List.exists_cons_of_ne_nil hcut.rest_ne_nil
      have hjoin : Path.join (root pattern) [] = root pattern ++ ['/'] := by
        rw [Path.join, if_neg fun hlast => hcut.separated.1 rfl ⟨'/', hlast, rfl⟩]
      have hliteral : literalFront pattern = root pattern ++ e :: literalFront rest := by
        conv_lhs => rw [hcut.eq]
        rw [literalFront_append hr hcut.root_plain, literalFront_escaped]
      refine .inr ?_
      rw [hjoin] at hroot ⊢
      rw [hliteral] at hfront ⊢
      obtain ⟨z, rfl⟩ := hroot
      rw [List.append_assoc, List.prefix_append_right_inj] at hfront
      rw [List.prefix_append_right_inj, (List.cons_prefix_cons.1 hfront).1]
      simp
    · exact .inr (hcut.join_leads hr hc)

end Glob

namespace Directory

variable {d : Directory} {l : Location} {names : List Text} {path q r : Text}

/-! ### What a search finds -/

/-- The names lead from a directory to a file, and nothing on the way is ignored. -/
inductive Visible (d : Directory) : Location → List Text → Prop where
  /-- The file stands in the directory. -/
  | file {l : Location} {name : Text} {content : Content} (hname : name ∈ d.names l)
    (hseen : d.isIgnored (l ++ [name]) = false) (hfile : d.get? (l ++ [name]) = some (.file content)) :
    Visible d l [name]
  /-- It stands below a directory in it. -/
  | deeper {l : Location} {name : Text} {rest : List Text} (hname : name ∈ d.names l)
    (hseen : d.isIgnored (l ++ [name]) = false) (hdir : d.isDirectoryAt (l ++ [name]) = true)
    (h : Visible d (l ++ [name]) rest) : Visible d l (name :: rest)

theorem mem_filesBelow {depth : Nat} :
    q ∈ d.filesBelow depth l path ↔ ∃ names, d.Visible l names ∧ names.length ≤ depth ∧ q = names.foldl Path.join path := by
  induction depth generalizing l path with
  | zero =>
    refine iff_of_false (by simp [filesBelow]) ?_
    rintro ⟨names, hnames, hlength, -⟩
    cases hnames <;> simp at hlength
  | succ depth ih =>
    rw [filesBelow, List.mem_flatMap]
    constructor
    · rintro ⟨name, hname, hq⟩
      dsimp only at hq
      split at hq
      · cases hq
      · next hseen =>
        rw [Bool.not_eq_true] at hseen
        split at hq
        · next hdir =>
          obtain ⟨rest, hrest, hlength, rfl⟩ := ih.1 hq
          exact ⟨name :: rest, .deeper hname hseen (isDirectoryAt_iff.2 hdir) hrest, Nat.succ_le_succ hlength, rfl⟩
        · next hfile => exact ⟨[name], .file hname hseen hfile, by simp, List.mem_singleton.1 hq⟩
        · cases hq
    · rintro ⟨names, hnames, hlength, rfl⟩
      cases hnames with
      | file hname hseen hfile => exact ⟨_, hname, by simp [hseen, hfile]⟩
      | deeper hname hseen hdir h =>
        refine ⟨_, hname, ?_⟩
        simp only [hseen, isDirectoryAt_iff.1 hdir, Bool.false_eq_true, if_false]
        exact ih.2 ⟨_, h, Nat.le_of_succ_le_succ hlength, rfl⟩

theorem Visible.ne_nil (h : d.Visible l names) : names ≠ [] := by
  cases h <;> simp

theorem isName_of_mem_names {name : Text} (h : name ∈ d.names l) : Path.isName name = true := by
  obtain ⟨⟨k, e⟩, hentry, hk⟩ := List.mem_filterMap.1 h
  have hnamed := d.named (k, e) hentry
  dsimp only at hk hnamed
  split at hk
  · next last hlast =>
    split at hk
    · obtain rfl := Option.some.inj hk
      rwa [hlast] at hnamed
    · cases hk
  · cases hk

theorem Visible.isName (h : d.Visible l names) : ∀ name ∈ names, Path.isName name = true := by
  induction h with
  | file hname => exact List.forall_mem_singleton.2 (isName_of_mem_names hname)
  | deeper hname _ _ _ ih => exact List.forall_mem_cons.2 ⟨isName_of_mem_names hname, ih⟩

/-- Something stands at every place on the way. -/
theorem Visible.exists_get? (h : d.Visible l names) {i : Nat} (hi : i < names.length) :
    ∃ e, d.get? (l ++ names.take (i + 1)) = some e := by
  induction h generalizing i with
  | file _ _ hfile =>
    obtain rfl : i = 0 := Nat.lt_one_iff.1 hi
    exact ⟨_, hfile⟩
  | deeper _ _ hdir _ ih =>
    cases i with
    | zero => exact ⟨_, isDirectoryAt_iff.1 hdir⟩
    | succ i =>
      obtain ⟨e, he⟩ := ih (Nat.lt_of_succ_lt_succ hi)
      exact ⟨e, by simpa using he⟩

/-- No file is so deep that a search would stop above it: the places on the way to it are different. -/
theorem Visible.length_le (h : d.Visible l names) : names.length ≤ d.entries.length := by
  have hway : ((List.range names.length).map fun i => l ++ names.take (i + 1)) ⊆ d.entries.map Prod.fst := by
    intro k hk
    obtain ⟨i, hi, rfl⟩ := List.mem_map.1 hk
    obtain ⟨e, he⟩ := h.exists_get? (List.mem_range.1 hi)
    have hne : l ++ names.take (i + 1) ≠ [] := by
      simpa using fun _ => h.ne_nil
    exact List.mem_map.2 ⟨_, mem_entries_of_get? hne he, rfl⟩
  have hnodup : ((List.range names.length).map fun i => l ++ names.take (i + 1)).Nodup := by
    refine List.Nodup.map_on ?_ List.nodup_range
    intro i hi j hj heq
    have hlength := congrArg List.length heq
    simp only [List.length_append, List.length_take, List.mem_range] at hlength hi hj
    omega
  simpa using (List.Nodup.subperm hnodup hway).length_le

/-- A name leads into a directory. -/
theorem follow_name {name : Text} {rest : List Text} (hl : d.isDirectoryAt l = true) (hname : Path.isName name = true) :
    d.follow l (name :: rest) = d.follow (l ++ [name]) rest := by
  rw [follow, isDirectoryAt_iff.1 hl]
  dsimp only
  rw [step_name hname]

/-- What is visible from a directory is visible from the directories on the way, and the way leads there. -/
theorem Visible.drop {front rest : List Text} (h : d.Visible l (front ++ rest)) (hl : d.isDirectoryAt l = true)
    (hrest : rest ≠ []) :
    d.Visible (l ++ front) rest ∧ d.follow l front = .ok (l ++ front) ∧ d.isDirectoryAt (l ++ front) = true := by
  induction front generalizing l with
  | nil => simpa [follow] using ⟨h, hl⟩
  | cons name front ih =>
    have hname := h.isName name (by simp)
    rw [List.cons_append] at h
    generalize hnames : name :: (front ++ rest) = names at h
    cases h with
    | file =>
      obtain ⟨-, hnil⟩ := List.cons.inj hnames
      exact absurd (List.append_eq_nil_iff.1 hnil).2 hrest
    | deeper _ _ hdir h =>
      obtain ⟨rfl, rfl⟩ := List.cons.inj hnames
      rw [follow_name hl hname, ← List.singleton_append, ← List.append_assoc]
      exact ih h hdir

/-- Visible names are the parts of the path that they make up. -/
theorem Visible.parts_eq (h : d.Visible l names) : Path.parts (['/'].intercalate names) = names :=
  Path.parts_intercalate h.ne_nil fun name hname => (Path.isName_iff.1 (h.isName name hname)).2.2

theorem Visible.foldl_join (h : d.Visible l names) (r : Text) :
    names.foldl Path.join r = Path.join r (['/'].intercalate names) := by
  refine Path.foldl_join h.ne_nil (fun name hname => ?_) r
  exact ⟨Path.ne_nil_of_isName (h.isName name hname), (Path.isName_iff.1 (h.isName name hname)).2.2⟩

/-- A search of a directory finds all the files that are visible from it. -/
theorem mem_filesUnder_of_locate (hl : d.locate r = .ok l) (hdir : d.isDirectoryAt l = true) :
    q ∈ d.filesUnder r ↔ ∃ names, d.Visible l names ∧ q = Path.join r (['/'].intercalate names) := by
  rw [filesUnder, hl]
  dsimp only
  rw [isDirectoryAt_iff.1 hdir]
  dsimp only
  rw [mem_filesBelow]
  constructor
  · rintro ⟨names, hnames, -, rfl⟩
    exact ⟨names, hnames, hnames.foldl_join r⟩
  · rintro ⟨names, hnames, rfl⟩
    exact ⟨names, hnames, Nat.le_succ_of_le hnames.length_le, (hnames.foldl_join r).symm⟩

theorem locate_dot (d : Directory) : d.locate ['.'] = .ok d.here :=
  locate_eq_ok_iff.2 ⟨by simp, follow_cons_eq_ok_iff.2 ⟨d.isDirectoryAt_here, rfl⟩⟩

/-- The files that a search of the working directory finds. -/
theorem mem_filesUnder_dot :
    q ∈ (d.filesUnder ['.']).map Path.withoutDot ↔ ∃ names, d.Visible d.here names ∧ q = ['/'].intercalate names := by
  have hpath {names : List Text} (h : d.Visible d.here names) :
      Path.withoutDot (Path.join ['.'] (['/'].intercalate names)) = ['/'].intercalate names :=
    Path.withoutDot_dot h.parts_eq fun name hname => (Path.isName_iff.1 (h.isName name hname)).1
  simp only [List.mem_map, mem_filesUnder_of_locate d.locate_dot d.isDirectoryAt_here]
  constructor
  · rintro ⟨p, ⟨names, hnames, rfl⟩, rfl⟩
    exact ⟨names, hnames, hpath hnames⟩
  · rintro ⟨names, hnames, rfl⟩
    exact ⟨_, ⟨names, hnames, rfl⟩, hpath hnames⟩

/-- What a search finds is what it begins at, or lies in there. -/
theorem eq_or_prefix_of_mem_filesUnder (h : q ∈ d.filesUnder r) : q = r ∨ Path.join r [] <+: q := by
  cases hr : d.locate r with
  | error fault =>
    rw [filesUnder, hr] at h
    cases h
  | ok l =>
    by_cases hdir : d.isDirectoryAt l = true
    · obtain ⟨names, -, rfl⟩ := (mem_filesUnder_of_locate hr hdir).1 h
      exact .inr ⟨_, (Path.join_append r [] _).symm⟩
    · rw [filesUnder, hr] at h
      dsimp only at h
      split at h
      · cases h
      · exact .inl (List.mem_singleton.1 h)
      · next hget => exact absurd (isDirectoryAt_iff.2 hget) hdir

/-- A slash at the end makes no difference for where the path of a directory leads. -/
theorem locate_eq_ok_iff_of_join {x : Text} (hx : r = x ∨ r = x ++ ['/']) (hr : r ≠ [])
    (hdir : d.isDirectoryAt l = true) : d.locate r = .ok l ↔ d.follow (d.start r) (Path.parts x) = .ok l := by
  rw [locate_eq_ok_iff, and_iff_right hr]
  rcases hx with rfl | rfl
  · rfl
  · have hslash : ∀ k, d.follow k (Path.parts []) = .ok l ↔ d.isDirectoryAt k = true ∧ k = l := by
      intro k
      rw [show Path.parts [] = [[]] from rfl, follow_cons_eq_ok_iff]
      simp [step, Path.isIdle, follow]
    rw [Path.parts_append, follow_append_eq_ok_iff]
    constructor
    · rintro ⟨k, hk, hlast⟩
      rwa [← ((hslash k).1 hlast).2]
    · intro h
      exact ⟨l, h, (hslash l).2 ⟨hdir, rfl⟩⟩

theorem start_of_parts {first : Text} {rest : List Text} (hparts : Path.parts q = first :: rest) (hfirst : first ≠ []) :
    d.start q = d.here :=
  if_neg ((Path.first_ne_nil_iff hparts).1 hfirst).2

/-- A search from a directory finds what a search of the working directory finds there. -/
theorem mem_filesUnder_of_prefix (hq : q ∈ (d.filesUnder ['.']).map Path.withoutDot) (hr : Path.join r [] <+: q) :
    q ∈ (d.filesUnder r).map Path.withoutDot := by
  obtain ⟨names, hnames, rfl⟩ := mem_filesUnder_dot.1 hq
  obtain ⟨y, hy⟩ := hr
  obtain ⟨x, hx, hrx⟩ := Path.exists_slash_join r
  have hjoin : Path.join r y = ['/'].intercalate names := by rw [← hy, ← Path.join_append, List.nil_append]
  -- the names are the parts of the root and then those of the rest
  have hsplit : names = Path.parts x ++ Path.parts y := by rw [← hnames.parts_eq, ← hjoin, Path.parts_join hx]
  obtain ⟨first, more, hfirst⟩ := Path.parts_cons x
  have hname : Path.isName first = true := hnames.isName first (by simp [hsplit, hfirst])
  rw [hsplit] at hnames
  obtain ⟨hvisible, hfollow, hdir⟩ := hnames.drop d.isDirectoryAt_here (Text.splitOn_ne_nil _ y)
  have hne : first ≠ [] := Path.ne_nil_of_isName hname
  have hnil : x ≠ [] := ((Path.first_ne_nil_iff hfirst).1 hne).1
  have hstart : r ≠ [] ∧ d.start r = d.here := by
    rcases hrx with rfl | rfl
    · exact ⟨hnil, start_of_parts hfirst hne⟩
    · have hslash : Path.parts (x ++ ['/']) = first :: (more ++ [[]]) := by
        rw [Path.parts_append, hfirst]
        rfl
      exact ⟨by simp, start_of_parts hslash hne⟩
  have hlocate := (locate_eq_ok_iff_of_join hrx hstart.1 hdir).2 (hstart.2 ▸ hfollow)
  have hmem : Path.join r y ∈ d.filesUnder r := by
    rw [mem_filesUnder_of_locate hlocate hdir]
    exact ⟨Path.parts y, hvisible, by rw [Path.intercalate_parts]⟩
  have hparts : Path.parts (Path.join r y) = first :: (more ++ Path.parts y) := by
    rw [Path.parts_join hx, hfirst, List.cons_append]
  have hdot : first ≠ ['.'] := by
    rintro rfl
    cases hname
  rw [← hjoin]
  exact List.mem_map.2 ⟨_, hmem, Path.withoutDot_of_name hparts hdot⟩

/-- No path that a search finds begins with a dot for a part. -/
theorem not_leads_dot (hq : q ∈ (d.filesUnder ['.']).map Path.withoutDot) : ¬['.', '/'] <+: q := by
  obtain ⟨names, hnames, rfl⟩ := mem_filesUnder_dot.1 hq
  rintro ⟨z, hz⟩
  have hparts : names = ['.'] :: Path.parts z := by
    rw [← hnames.parts_eq, ← hz]
    exact Path.parts_append ['.'] z
  cases hnames.isName ['.'] (by simp [hparts])

/-- A root that begins with a dot for a part is that of a pattern that begins so literally. -/
theorem dot_prefix_of_root {pattern r rest p : Text} {c : Char} (hcut : Glob.CutAt pattern r c rest) (hr : r ≠ ['.'])
    (hrp : r <+: p) (hp : p = ['.'] ∨ ['.', '/'] <+: p) : ['.', '/'] <+: Glob.literalFront pattern := by
  have hdots : ['.', '/'] <+: r := by
    rcases hp with rfl | hp
    · rcases List.prefix_cons_iff.1 hrp with hnil | ⟨t, rfl, ht⟩
      · exact absurd hnil hcut.ne_nil
      · rw [List.prefix_nil.1 ht] at hr
        exact absurd rfl hr
    · rcases List.prefix_or_prefix_of_prefix hrp hp with h | h
      · rcases List.prefix_cons_iff.1 h with hnil | ⟨t, rfl, ht⟩
        · exact absurd hnil hcut.ne_nil
        · rcases List.prefix_cons_iff.1 ht with rfl | ⟨u, rfl, hu⟩
          · exact absurd rfl hr
          · obtain rfl := List.prefix_nil.1 hu
            exact List.prefix_refl _
      · exact h
  obtain ⟨z, rfl⟩ := hdots
  rw [hcut.eq, List.append_assoc, Glob.literalFront_append (x := ['.', '/']) (by simp) (by simp [Glob.isMeta])]
  exact List.prefix_append _ _

/-- A search from the root of a pattern finds something that begins as the pattern says literally only if the latter
leads into the root. -/
theorem fits_of_mem_filesUnder_root {pattern : Text} (hpattern : Glob.isPattern pattern = true)
    (hq : q ∈ (d.filesUnder ['.']).map Path.withoutDot) (hfront : Glob.literalFront pattern <+: q)
    (hfound : q ∈ (d.filesUnder (Glob.root pattern)).map Path.withoutDot) : Glob.Fits pattern := by
  by_cases hdot : Glob.root pattern = ['.']
  · exact .inl hdot
  · obtain ⟨c, rest, hcut⟩ := (Glob.root_cases hpattern).resolve_left hdot
    obtain ⟨p, hp, rfl⟩ := List.mem_map.1 hfound
    have hpaths := eq_or_prefix_of_mem_filesUnder hp
    rcases Path.withoutDot_cases p with hsame | hdots
    · rw [hsame] at hfront
      rcases hpaths with rfl | hleads
      · exact absurd hfront hcut.not_prefix_root
      · exact Glob.fits_of_prefix hpattern hleads hfront
    · have hrp : Glob.root pattern <+: p :=
        hpaths.elim (fun heq => heq ▸ List.prefix_refl p) (Path.prefix_join _ []).trans
      exact absurd ((dot_prefix_of_root hcut hdot hrp hdots).trans hfront) (not_leads_dot hq)

theorem expand_eq_ok {pattern : Text} {glob : Glob} (hparse : Glob.parse pattern = .ok glob) :
    ∃ paths, d.expand pattern = .ok paths ∧
      ∀ q, q ∈ paths ↔ q ∈ (d.filesUnder (Glob.root pattern)).map Path.withoutDot ∧ glob.accepts false q = true := by
  refine ⟨_, by rw [expand, hparse], fun q => ?_⟩
  rw [List.mem_mergeSort, List.mem_filter]

/-! ### The search misses nothing, or everything -/

/-- The search for the files of a pattern begins at its root. If the root is where the pattern leads literally, as it
is whenever there is no backslash in the pattern, then every relative path that the pattern matches lies in the root,
and the search finds every file that matches and that a search of the whole working directory would find. If it is not,
the search finds none of them. -/
theorem search_from_root_complete_iff {pattern : Text} {glob : Glob} (hpattern : Glob.isPattern pattern = true)
    (hparse : Glob.parse pattern = .ok glob) :
    ('\\' ∉ pattern → Glob.Fits pattern) ∧
      (Glob.Fits pattern → ∀ q : Text, q.head? ≠ some '/' → glob.accepts false q = true →
        Path.Inside q (Glob.root pattern)) ∧
      ∀ d : Directory, ∃ paths, d.expand pattern = .ok paths ∧
        ∀ q ∈ (d.filesUnder ['.']).map Path.withoutDot, glob.accepts false q = true →
          (q ∈ paths ↔ Glob.Fits pattern) := by
  refine ⟨Glob.fits_of_not_mem hpattern, fun hfits q hslash hq => ?_, fun d => ?_⟩
  · rcases hfits with hdot | hleads
    · rw [hdot]
      exact .inr ⟨rfl, hslash⟩
    · obtain ⟨y, rfl⟩ := hleads.trans (Glob.literalFront_prefix_of_accepts hparse hq)
      rw [← Path.join_append, List.nil_append]
      exact Path.inside_join (Glob.root_ne_nil hpattern) y
  · obtain ⟨paths, hpaths, hmem⟩ := d.expand_eq_ok hparse
    refine ⟨paths, hpaths, fun q hq haccepts => ?_⟩
    have hfront := Glob.literalFront_prefix_of_accepts hparse haccepts
    rw [hmem]
    refine ⟨fun hfound => fits_of_mem_filesUnder_root hpattern hq hfront hfound.1, fun hfits => ⟨?_, haccepts⟩⟩
    rcases hfits with hdot | hleads
    · rwa [hdot]
    · exact mem_filesUnder_of_prefix hq (hleads.trans hfront)

/-- A working directory with one file in a directory in it. -/
def nested (directory name : Text) : Directory :=
  (empty.enter ["w".toList]).fill
    [(["w".toList, directory], .directory), (["w".toList, directory, name], .file (.text []))]

/-- A bracket can be escaped behind the root. -/
theorem search_from_root_complete_iff_bracket :
    ∃ paths, (nested "css".toList "[a].css".toList).expand "css/\\[a\\]*".toList = .ok paths ∧
      "css/[a].css".toList ∈ paths := by
  have hmatch : ∃ glob, Glob.parse "css/\\[a\\]*".toList = .ok glob ∧
      glob.accepts false "css/[a].css".toList = true := ⟨_, rfl, by decide +kernel⟩
  obtain ⟨glob, hparse, haccepts⟩ := hmatch
  have hfound : "css/[a].css".toList ∈
      ((nested "css".toList "[a].css".toList).filesUnder ['.']).map Path.withoutDot := by decide +kernel
  obtain ⟨-, -, hsearch⟩ := search_from_root_complete_iff (by decide +kernel) hparse
  obtain ⟨paths, hpaths, hmem⟩ := hsearch _
  exact ⟨paths, hpaths, (hmem _ hfound haccepts).2 (by decide +kernel)⟩

/-- A character that is escaped before the first slash leads the search astray: the file matches, but it does not lie
in the root, and the search finds nothing. -/
theorem search_from_root_misses :
    ∃ glob, Glob.parse "a\\*b/*.css".toList = .ok glob ∧ glob.accepts false "a*b/x.css".toList = true ∧
      "a*b/x.css".toList ∈ ((nested "a*b".toList "x.css".toList).filesUnder ['.']).map Path.withoutDot ∧
      ¬Path.Inside "a*b/x.css".toList (Glob.root "a\\*b/*.css".toList) ∧
      (nested "a*b".toList "x.css".toList).expand "a\\*b/*.css".toList = .ok [] := by
  refine ⟨_, rfl, ?_⟩
  decide +kernel

end Directory

end Cull
