import Cull.Text.Basic

/-!
# Log records

What a run has to say beside its result.
-/

namespace Cull

/-- A log record. -/
inductive Log where
  /-- A warning. -/
  | warn (message : Text)
  /-- A piece of information. -/
  | info (message : Text)
  deriving DecidableEq

namespace Log

/-- The record is a warning. -/
def isWarning : Log → Bool
  | warn _ => true
  | info _ => false

/-- The record as a line. -/
def line : Log → Text
  | warn m => "WARN ".toList ++ m
  | info m => "INFO ".toList ++ m

end Log

end Cull
