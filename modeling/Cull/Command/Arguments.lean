import Cull.Settings.Basic

/-!
# Arguments

The command line: stylesheets, and options that begin with a hyphen. An option
with a value takes it from the same argument, after `=` or directly after its
letter, or from the next argument, which must not look like an option itself.
Options of one letter may be written together. After `--` everything is a
stylesheet.
-/

namespace Cull

/-- The arguments of the command. -/
structure Arguments where
  /-- Paths or patterns of stylesheets. -/
  stylesheets : List Text
  /-- The path of a settings file. -/
  config : Option Text
  /-- Paths or patterns of pages. -/
  markup : List Text
  /-- Paths or patterns of scripts. -/
  scripts : List Text
  /-- Further tokens that count as used. -/
  keep : List Text
  /-- Tokens whose use is to be reported. -/
  verify : List Text
  /-- Nothing is to be written. -/
  dryRun : Bool
  /-- No copies are to be written. -/
  noBackup : Bool
  /-- How much is to be said. -/
  verbosity : Nat
  deriving DecidableEq

namespace Arguments

/-- No arguments. -/
def none : Arguments := ⟨[], .none, [], [], [], [], false, false, 0⟩

/-- An option that has a value. -/
inductive Valued where
  /-- The settings file. -/
  | config
  /-- A page. -/
  | markup
  /-- A script. -/
  | script
  /-- A token that counts as used. -/
  | keep
  /-- A token whose use is to be reported. -/
  | verify

/-- The option with a value that has the given name. -/
def Valued.ofName? (name : Text) : Option Valued :=
  [("config", config), ("markup", markup), ("script", script), ("keep", keep), ("verify", verify)].findSome?
    fun (n, o) => if n.toList = name then some o else .none

/-- The option with a value that has the given letter. -/
def Valued.ofLetter? (letter : Char) : Option Valued :=
  [('c', config), ('m', markup), ('s', script), ('k', keep)].lookup letter

/-- Gives an option its value. There is one settings file at most, and its path is not empty. -/
def give? (a : Arguments) (o : Valued) (value : Text) : Option Arguments :=
  match o with
  | .config => if a.config.isSome || value.isEmpty then .none else some { a with config := some value }
  | .markup => some { a with markup := a.markup ++ [value] }
  | .script => some { a with scripts := a.scripts ++ [value] }
  | .keep => some { a with keep := a.keep ++ [value] }
  | .verify => some { a with verify := a.verify ++ [value] }

/-- Sets an option that has no value. Only that for verbosity may come twice. -/
def setFlag? (a : Arguments) (name : Text) : Option Arguments :=
  if name = "dry-run".toList then if a.dryRun then .none else some { a with dryRun := true }
  else if name = "no-backup".toList then if a.noBackup then .none else some { a with noBackup := true }
  else if name = "verbose".toList then some { a with verbosity := a.verbosity + 1 }
  else .none

/-- What an argument leads to. -/
inductive Step where
  /-- It is complete. -/
  | done (a : Arguments)
  /-- The option needs its value. -/
  | awaits (a : Arguments) (o : Valued)

/-- Reads options of one letter. -/
def readLetters (a : Arguments) : Text → Option Step
  | [] => some (.done a)
  | c :: rest =>
    if c = 'v' then readLetters { a with verbosity := a.verbosity + 1 } rest
    else
      match Valued.ofLetter? c with
      | .none => .none
      | some o =>
        match rest with
        | [] => some (.awaits a o)
        | '=' :: value => (a.give? o value).map .done
        | value => (a.give? o value).map .done

/-- Reads an option with a name. -/
def readName (a : Arguments) (t : Text) : Option Step :=
  match t.span (· ≠ '=') with
  | (name, []) =>
    match Valued.ofName? name with
    | some o => some (.awaits a o)
    | .none => (a.setFlag? name).map .done
  | (name, _ :: value) =>
    match Valued.ofName? name with
    | some o => (a.give? o value).map .done
    | .none => .none

/-- Adds a stylesheet. -/
def addStylesheet (a : Arguments) (t : Text) : Arguments := { a with stylesheets := a.stylesheets ++ [t] }

/-- Reads one argument. -/
def readOne (a : Arguments) : Text → Option Step
  | '-' :: '-' :: name => readName a name
  | '-' :: c :: letters => readLetters a (c :: letters)
  | t => some (.done (a.addStylesheet t))

/-- The argument may be the value of an option. -/
def isValue : Text → Bool
  | '-' :: _ :: _ => false
  | _ => true

/-- Reads arguments after others have been read. -/
def readFrom (a : Arguments) : List Text → Option Arguments
  | [] => some a
  | arg :: rest =>
    if arg = ['-', '-'] then some (rest.foldl addStylesheet a)
    else
      match readOne a arg with
      | .none => .none
      | some (.done a) => readFrom a rest
      | some (.awaits a o) =>
        match rest with
        | [] => .none
        | value :: rest => if isValue value then (a.give? o value).bind fun a => readFrom a rest else .none

/-- Reads arguments; `none` if they are not accepted. -/
def parse? (args : List Text) : Option Arguments := readFrom none args

/-- The settings of a run: those of the settings file, with what the arguments add. -/
def extend (a : Arguments) (s : Settings) : Settings :=
  { markup := s.markup ++ a.markup
    scripts := s.scripts ++ a.scripts
    stylesheets := s.stylesheets ++ a.stylesheets
    alwaysKeep := s.alwaysKeep ++ a.keep
    verify := s.verify ++ a.verify
    backup := s.backup && !a.noBackup
    backupSuffix := s.backupSuffix }

end Arguments

end Cull
