import PrimeLang.Text.Column
import PrimeLang.Text.Lines
import PrimeLang.Text.Position

/-! # Messages on a terminal -/

namespace PrimeLang

/-- How serious a message is. -/
inductive Severity where
  | error
  | warning
  | note
deriving DecidableEq, Repr, Inhabited

namespace Severity

def word : Severity → String
  | error => "error"
  | warning => "warn"
  | note => "note"

/-- The terminal's number of the colour. -/
def color : Severity → Nat
  | error => 31
  | warning => 33
  | note => 32

end Severity

/-- A place in a source file, with the text of the file. -/
structure Excerpt where
  file : String
  code : String
  pos : Pos
deriving DecidableEq, Repr

/-- A message, perhaps with the place that it is about. -/
structure Message where
  severity : Severity
  text : String
  excerpt : Option Excerpt
deriving DecidableEq, Repr

namespace Message

def bare (severity : Severity) (text : String) : Message := ⟨severity, text, none⟩

/-- `s` bold and in a colour. -/
def bold (color : Nat) (s : String) : String := s!"\x1b[{color}m\x1b[1m{s}\x1b[39m\x1b[22m"

/-- `s` in blue. -/
def blue (s : String) : String := s!"\x1b[34m{s}\x1b[39m"

/-- The place, the line there, and a mark under the column. -/
def excerptLines (x : Excerpt) : List String :=
  let mark := fill x.pos.col ' ' ++ bold Severity.error.color "^"
  let arrow := blue "-->"
  let bar := blue "|"
  let number := blue (padLeft 4 ' ' (toString (x.pos.row + 1)) ++ " |")
  [s!"     {arrow} \x1b[4m{x.file}:{x.pos.text}\x1b[24m", s!"      {bar}",
    s!" {number} {line x.code x.pos.row}", s!"      {bar} {mark}"]

def lines (m : Message) : List String :=
  let head := bold m.severity.color m.severity.word
  s!"{head}: {m.text}" :: (m.excerpt.map excerptLines).getD []

def render (m : Message) : String := String.join (m.lines.map (· ++ "\n"))

end Message
end PrimeLang
