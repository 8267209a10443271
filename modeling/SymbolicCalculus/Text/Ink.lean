/-
# Colored text

An `Ink` is a color of a terminal; `Ink.paint` wraps a text in the codes that switch it on and off.
-/

namespace SymbolicCalculus

/-- A color of reported text. -/
inductive Ink where
  /-- The word that opens a report of an error. -/
  | alarm
  /-- The part of the source that is in error, and words to look at. -/
  | emphasis
  /-- The frame around a report. -/
  | frame
  /-- The rest of the source. -/
  | plain
  /-- The frame beside lines that hold no source. -/
  | faint
  /-- The word that opens a help note. -/
  | note
deriving DecidableEq

namespace Ink

/-- The parameters of the control sequence that switches the color on. -/
def code : Ink → String
  | alarm => "31"
  | emphasis => "38;2;52;235;152"
  | frame => "38;5;246"
  | plain => "38;5;249"
  | faint => "38;5;240"
  | note => "38;5;115"

/-- The text in the color. -/
def paint (ink : Ink) (text : String) : String :=
  "\x1b[" ++ ink.code ++ "m" ++ text ++ "\x1b[0m"

/-- The characters in the color, each wrapped on its own. -/
def paintEach (ink : Ink) (cs : List Char) : String :=
  String.join (cs.map (fun c => ink.paint c.toString))

end Ink

end SymbolicCalculus
