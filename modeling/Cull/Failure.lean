import Cull.Files.Directory
import Cull.Glob.Parser

/-!
# Failures

What can go wrong with the files and settings around the pruning of a text,
which itself never fails.
-/

namespace Cull

/-- Why a run or a part of it did not succeed. -/
inductive Failure where
  /-- A file cannot be read. -/
  | read (path : Text) (fault : Fault)
  /-- A file cannot be written. -/
  | write (path : Text) (fault : Fault)
  /-- A settings file is not well formed. -/
  | settings (path : Text)
  /-- A pattern is no glob. -/
  | glob (pattern : Text) (fault : Glob.Malformed)
  /-- There are no stylesheets. -/
  | noStylesheets
  deriving DecidableEq

/-- The wording of a failure. -/
def Failure.message : Failure → Text
  | read path fault => "failed to read ".toList ++ path ++ ": ".toList ++ fault.message.toList
  | write path fault => "failed to write ".toList ++ path ++ ": ".toList ++ fault.message.toList
  | settings path => "failed to parse config ".toList ++ path
  | glob pattern fault =>
    "invalid glob pattern '".toList ++ pattern ++ "': error parsing glob '".toList ++ pattern ++ "': ".toList
      ++ fault.message
  | noStylesheets => "no stylesheets to process".toList

end Cull
