import Stencil.Text.Basic

/-!
Log lines. A log has a threshold that all its loggers share; each logger puts its label in front of
what it writes, and the level gives the colour.
-/

namespace Stencil

inductive Level where
  | debug
  | info
  | warn
  | error
  | silent
deriving DecidableEq, Repr

namespace Level

def all : List Level := [debug, info, warn, error, silent]

def name : Level → String
  | debug => "debug"
  | info => "info"
  | warn => "warn"
  | error => "error"
  | silent => "silent"

def ofName? (s : String) : Option Level := all.find? (·.name = s)

def rank : Level → Nat
  | debug => 0
  | info => 1
  | warn => 2
  | error => 3
  | silent => 4

/-- Whether a line of a level is written under a threshold. -/
def shows (threshold level : Level) : Bool := threshold.rank ≤ level.rank

/-- The colour of lines of a level, as a terminal code. -/
def colour? : Level → Option Nat
  | debug => some 90
  | warn => some 33
  | error => some 31
  | info | silent => none

end Level

namespace Log

/-- The terminal sequence that selects a colour. -/
def colourSequence (code : Nat) : Text := 0x1B :: Text.ofString "[" ++ Text.ofNat code ++ Text.ofString "m"

/-- The terminal sequence that returns to the default colour. -/
def defaultColour : Text := colourSequence 39

/-- Text in which `opening` follows every return to the default colour. -/
def reopened (opening t : Text) : Text :=
  Text.join (defaultColour ++ opening) (Text.splitOn defaultColour t)

/-- Text with the colour closed before each line break and opened again after it. -/
def acrossBreaks (opening : Text) : Text → Text
  | [] => []
  | [u] => if u = '\n' then defaultColour ++ Text.ofString "\n" ++ opening else [u]
  | u :: v :: rest =>
    if u = '\n' then defaultColour ++ Text.ofString "\n" ++ opening ++ acrossBreaks opening (v :: rest)
    else if u = '\r' && v = '\n' then
      defaultColour ++ Text.ofString "\r\n" ++ opening ++ acrossBreaks opening rest
    else u :: acrossBreaks opening (v :: rest)

/-- Text in a colour; empty text stays empty. -/
def painted (code : Nat) (t : Text) : Text :=
  let opening := colourSequence code
  if t.isEmpty then []
  else opening ++ acrossBreaks opening (reopened opening t) ++ defaultColour

/-- A message behind a label. -/
def labelled (label message : Text) : Text :=
  if label.isEmpty then message else label ++ Text.ofString " " ++ message

/-- The label of a logger below one with a label. -/
def childLabel (parent label : Text) : Text :=
  if parent.isEmpty then label else parent ++ Text.ofString " " ++ label

/-- A line as it is written. -/
def line (level : Level) (label message : Text) : Text :=
  match level.colour? with
  | some code => painted code (labelled label message)
  | none => labelled label message

end Log

/-- Something to log. -/
structure Note where
  level : Level
  label : String
  message : Text
deriving DecidableEq, Repr

def Note.line (n : Note) : Text := Log.line n.level (Text.ofString n.label) n.message

end Stencil
