import Cull.Text.Basic

/-!
# Usage sets

The tokens that are known to be referenced: `.class`, `#id` or the name of an
element. The set only grows; its members are kept without repetition, in the
order in which they came.
-/

namespace Cull

/-- A set of tokens. -/
structure Usage where
  /-- The members. -/
  tokens : List Text
  /-- No member is listed twice. -/
  nodup : tokens.Nodup

namespace Usage

/-- No tokens. -/
def empty : Usage := ⟨[], List.nodup_nil⟩

/-- The token is in the set, exactly as it is spelled. -/
def contains (u : Usage) (token : Text) : Bool := u.tokens.contains token

instance : Membership Text Usage := ⟨fun u token => token ∈ u.tokens⟩

theorem mem_def {u : Usage} {token : Text} : token ∈ u ↔ token ∈ u.tokens := Iff.rfl

@[simp]
theorem contains_iff {u : Usage} {token : Text} : u.contains token = true ↔ token ∈ u := by
  simp [contains, mem_def]

/-- Adds a token. -/
def insert (u : Usage) (token : Text) : Usage :=
  if h : token ∈ u.tokens then u
  else ⟨u.tokens ++ [token], List.nodup_append.2 ⟨u.nodup, by simp, by grind⟩⟩

@[simp]
theorem mem_insert {u : Usage} {token other : Text} :
    other ∈ u.insert token ↔ other ∈ u ∨ other = token := by
  unfold insert
  split <;> grind [mem_def]

/-- The set of the listed tokens. -/
def ofList (tokens : List Text) : Usage := tokens.foldl insert empty

/-- One of the tokens is in the set. -/
def containsAny (u : Usage) (tokens : List Text) : Bool := tokens.any u.contains

/-- The number of tokens. -/
def size (u : Usage) : Nat := u.tokens.length

/-- There are no tokens. -/
def isEmpty (u : Usage) : Bool := u.tokens.isEmpty

/-- Each token with whether it is in the set. -/
def verify (u : Usage) (tokens : List Text) : List (Text × Bool) :=
  tokens.map fun token => (token, u.contains token)

end Usage

end Cull
