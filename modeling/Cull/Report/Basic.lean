import Cull.Number.Double
import Cull.Text.Basic

/-!
# Reports

What happened to one stylesheet: how many rules were removed, how large it was
and is, and where the former text was kept.
-/

namespace Cull

/-- What happened to a stylesheet. -/
structure Report where
  /-- The path of the stylesheet. -/
  path : Text
  /-- The number of rules that were removed. -/
  removed : Nat
  /-- The size of the former text in bytes. -/
  formerBytes : Nat
  /-- The size of the new text in bytes. -/
  newBytes : Nat
  /-- The path of the copy of the former text. -/
  backup : Option Text
  deriving DecidableEq

namespace Report

/-- Something was removed. -/
def changed (r : Report) : Bool := 0 < r.removed

/-- The share by which the stylesheet became smaller, in percent; there is none if it became
larger. -/
def reduction? (r : Report) : Option Double :=
  if r.formerBytes = 0 then some .zero
  else if r.formerBytes < r.newBytes then none
  else
    let share := (Double.ofNat (r.formerBytes - r.newBytes)).div (.ofNat r.formerBytes)
    some (share.mul (.ofNat 100))

end Report

end Cull
