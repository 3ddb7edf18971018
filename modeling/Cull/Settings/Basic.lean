import Cull.Text.Basic

/-!
# Settings

What a run works on and how: the inputs, the tokens that are always kept, and
whether the former text of a changed stylesheet is kept beside it.
-/

namespace Cull

/-- The settings of a run. -/
structure Settings where
  /-- Paths or patterns of pages. -/
  markup : List Text
  /-- Paths or patterns of scripts. -/
  scripts : List Text
  /-- Paths or patterns of stylesheets. -/
  stylesheets : List Text
  /-- Tokens that always count as used. -/
  alwaysKeep : List Text
  /-- Tokens whose use is reported. -/
  verify : List Text
  /-- The former text of a changed stylesheet is kept. -/
  backup : Bool
  /-- What is added to a path to get that of the copy. -/
  backupSuffix : Text
  deriving DecidableEq

/-- The elements that always count as used unless the settings say otherwise. -/
def defaultAlwaysKeep : List Text :=
  ["body", "html", "*", "a", "p", "h1", "h2", "h3", "h4", "h5", "h6", "div", "span", "ul", "li", "img", "button",
    "input", "form", "nav", "section", "article", "header", "footer", "main", "table", "tr", "td", "th", "thead",
    "tbody", "tfoot", "ol", "dl", "dt", "dd", "label", "select", "textarea", "svg", "path", "circle", "rect",
    "line", "polyline", "polygon", "ellipse", "time", "strong", "em", "b", "i", "u", "small", "sub", "sup",
    "code", "pre", "blockquote", "hr", "br"].map String.toList

namespace Settings

/-- The suffix of copies unless the settings say otherwise. -/
def defaultBackupSuffix : Text := ".backup".toList

/-- The settings of an empty file. -/
def default : Settings where
  markup := []
  scripts := []
  stylesheets := []
  alwaysKeep := defaultAlwaysKeep
  verify := []
  backup := true
  backupSuffix := defaultBackupSuffix

end Settings

/-- How stylesheets are written. -/
structure Options where
  /-- The former text of a changed stylesheet is kept. -/
  backup : Bool
  /-- What is added to a path to get that of the copy. -/
  backupSuffix : Text
  /-- Nothing is written. -/
  dryRun : Bool
  deriving DecidableEq

namespace Options

/-- The options unless something else is said. -/
def default : Options := ⟨true, Settings.defaultBackupSuffix, false⟩

/-- The options that settings ask for. -/
def ofSettings (s : Settings) : Options := ⟨s.backup, s.backupSuffix, false⟩

end Options

end Cull
