import Mathlib.Data.List.TakeDrop
import Cull.Proofs.HandingOn

/-!
# How often a token is seen

A token is seen by rules until it is used up. Whenever it is not, its way has become shorter, or it is
a text that has been split, and no run of a text is split again. So the number of applications that
a token is given is never what ends them: with any more the same would happen (`exhaust_eq_of_enough`).
-/

namespace Cull.Markup.Build

variable {token : Token} {next : Mode} {s s' : State}

theorem length_firstRun (t : Text) : (firstRun t).1.length + (firstRun t).2.length = t.length := by
  cases t with
  | nil => rfl
  | cons c t =>
    rw [firstRun, List.span_eq_takeWhile_dropWhile, ← List.length_append, List.takeWhile_append_dropWhile]

theorem firstRun_ne_nil {t : Text} (h : t ≠ []) : (firstRun t).1 ≠ [] := by
  cases t with
  | nil => exact absurd rfl h
  | cons c t => simp [firstRun, List.span_eq_takeWhile_dropWhile]

/-- A run of a text is not split again. -/
theorem isMixed_firstRun (t : Text) : Token.isMixed (.text (firstRun t).1) = false := by
  cases t with
  | nil => rfl
  | cons c t =>
    have hrun : ∀ d ∈ (firstRun (c :: t)).1, Text.isAsciiBlank d = Text.isAsciiBlank c := by
      rw [firstRun, List.span_eq_takeWhile_dropWhile]
      intro d hd
      simpa using List.mem_takeWhile_imp hd
    generalize (firstRun (c :: t)).1 = run at hrun ⊢
    unfold Token.isMixed blankness
    cases hc : Text.isAsciiBlank c with
    | true =>
      have hall : run.all Text.isAsciiBlank = true := List.all_eq_true.2 fun d hd => (hrun d hd).trans hc
      simp only [hall, if_true]
    | false =>
      have hany : run.any Text.isAsciiBlank = false :=
        List.any_eq_false.2 fun d hd => by simp [hrun d hd, hc]
      simp only [hany, Bool.false_eq_true, if_false]
      split
      · next h => split at h <;> cases h
      · rfl

/-- The number of applications that a token with a text after it can take. -/
def load (token : Token) (later : Text) (s : State) : Nat :=
  let size := match token with
    | .text t => t.length
    | _ => 1
  32 * (size + later.length) + (if token.isMixed then 16 else 0) + way token s.mode s

theorem load_again {later : Text} (h : way token next s' < way token s.mode s) :
    load token later { s' with mode := next } < load token later s := Nat.add_lt_add_left h _

theorem load_split {t later : Text} (h : Token.isMixed (.text t) = true) (s s' : State) :
    load (.text (firstRun t).1) ((firstRun t).2 ++ later) s' < load (.text t) later s := by
  have hlength := length_firstRun t
  have hrank := rank_le (.text (firstRun t).1) s'.mode
  simp only [load, way, isMixed_firstRun, h, List.length_append, if_true, Bool.false_eq_true, if_false]
  omega

theorem load_done {later : Text} (h : token ≠ .text []) (s s' : State) :
    load (.text later) [] s' < load token later s := by
  have hrank := rank_le (.text later) s'.mode
  have hbonus : (if Token.isMixed (.text later) = true then 16 else 0) ≤ 16 := by split <;> decide
  cases token with
  | text t =>
    have hpos : 0 < t.length := List.length_pos_iff.2 fun hnil => h (congrArg _ hnil)
    simp only [load, way, List.length_nil]
    omega
  | _ =>
    simp only [load, way, List.length_nil]
    omega

/-- Once there are enough applications, how many there are makes no difference. -/
theorem exhaust_congr {n m : Nat} {later : Text} (htoken : token ≠ .text []) (hn : load token later s < n)
    (hm : load token later s < m) : (exhaust token later n).run s = (exhaust token later m).run s := by
  induction n generalizing token later s m with
  | zero => exact absurd hn (Nat.not_lt_zero _)
  | succ n ih =>
    obtain ⟨m, rfl⟩ := Nat.exists_eq_succ_of_ne_zero (Nat.ne_zero_of_lt hm)
    have hless {token' : Token} {later' : Text} {s' : State} (htoken' : token' ≠ .text [])
        (hload : load token' later' s' < load token later s) :
        (exhaust token' later' n).run s' = (exhaust token' later' m).run s' := ih htoken' (by omega) (by omega)
    have hleaves := leaves_applyRules token s
    unfold exhaust
    rw [StateT.run_bind, StateT.run_bind]
    generalize (applyRules token).run s = r at hleaves ⊢
    obtain ⟨outcome, s'⟩ := r
    cases outcome with
    | again next => exact hless htoken (load_again hleaves)
    | split =>
      cases token with
      | text t =>
        have ht : t ≠ [] := fun hnil => htoken (congrArg _ hnil)
        have hrun : Token.text (firstRun t).1 ≠ .text [] := by simpa using firstRun_ne_nil ht
        exact hless hrun (load_split hleaves s s')
      | _ => rfl
    | done =>
      cases later with
      | nil => rfl
      | cons c later => exact hless (by simp) (load_done htoken s s')
    | raw content => rfl
    | scriptEnd => rfl

/-- The number of applications that a token is given is not what ends them. -/
theorem exhaust_eq_of_enough {n : Nat} (s : State) (htoken : token ≠ .text []) (h : enough s token ≤ n) :
    (exhaust token [] n).run s = (exhaust token [] (enough s token)).run s := by
  have hhubs : s.hubs ≤ s.stack.length := List.countP_le_length
  have hrank := rank_le token s.mode
  have hload : load token [] s < enough s token := by
    cases token with
    | text t =>
      simp only [load, enough, way, List.length_nil]
      split <;> omega
    | _ =>
      simp only [load, enough, way, Token.isMixed, List.length_nil, Bool.false_eq_true, if_false]
      omega
  exact exhaust_congr htoken (Nat.lt_of_lt_of_le hload h) hload

end Cull.Markup.Build
