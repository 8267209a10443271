/-
# Reports of errors

`ParseError.report` draws an error for a terminal: the message, the line of source with the region
in error set off, the label on a leader under the middle of the region, and the help note.

The drawing goes by columns.  A column is a character of the source, or a place behind its last one;
it is as wide as a tab reaches or one cell (`columnWidth`).
-/
import SymbolicCalculus.ParseError

namespace SymbolicCalculus.Report

/-! ## 1. Columns -/

/-- The distance of tab stops. -/
def tabStop : Nat := 4

/-- The source line without the blanks at its end. -/
def trimEnd (source : List Char) : List Char :=
  (source.reverse.dropWhile (fun c => c == ' ' || c == '\t')).reverse

/-- The number of cells that a column takes. -/
def columnWidth (source : List Char) (column : Nat) : Nat :=
  if source[column]? = some '\t' then tabStop - column % tabStop else 1

/-- A column drawn with one character in its first cell and another in the rest. -/
def cells (width : Nat) (first rest : Char) : List Char :=
  first :: List.replicate (width - 1) rest

/-- The column of a region to which its label is attached. -/
def anchor (s : Span) : Nat := (s.start + s.stop) / 2

/-- Whether a column lies in the region. -/
def inside (s : Span) (column : Nat) : Bool :=
  decide (s.start ≤ column) && decide (column < s.stop)

/-! ## 2. Lines -/

/-- The source line, every character in its color. -/
def sourceRow (source : List Char) (s : Span) : String :=
  String.join (source.zipIdx.map fun (c, column) =>
    let ink := if inside s column then Ink.emphasis else Ink.plain
    ink.paintEach
      (if c = '\t' then List.replicate (columnWidth source column) ' ' else [c]))

/-- The columns that are drawn under the source line: those up to two behind the region. -/
def columns (s : Span) : List Nat := List.range (s.stop + 2)

/-- The row that underlines the region. -/
def underline (source : List Char) (s : Span) : String :=
  String.join ((columns s).map fun column =>
    let width := columnWidth source column
    if column = anchor s then
      if inside s column then Ink.emphasis.paintEach (cells width '┬' '─')
      else Ink.emphasis.paintEach (cells width '│' ' ')
    else if inside s column then Ink.emphasis.paintEach (cells width '─' '─')
    else String.ofList (cells width ' ' ' '))

/-- The row that leads from the region to its label. -/
def leader (source : List Char) (s : Span) : String :=
  String.join ((columns s).map fun column =>
    let width := columnWidth source column
    if column = anchor s then Ink.emphasis.paintEach (cells width '╰' '─')
    else if anchor s < column then Ink.emphasis.paintEach (cells width '─' '─')
    else String.ofList (cells width ' ' ' '))

/-- The frame in front of a row that holds no source. -/
def faintMargin : String := " " ++ Ink.faint.paint "  │" ++ " "

/-- The row that names the place of the region. -/
def heading (name : String) (s : Span) : String :=
  "   " ++ Ink.frame.paint "╭" ++ Ink.frame.paint "─" ++ Ink.frame.paint "["
    ++ name ++ ":1:" ++ toString (s.start + 1) ++ Ink.frame.paint "]"

end SymbolicCalculus.Report

namespace SymbolicCalculus

/-- The report of an error in a formula of one line, which goes by the given name. -/
def ParseError.report (name source : String) (e : ParseError) : String :=
  let line := Report.trimEnd source.toList
  let help :=
    match e.cause.help? with
    | some text =>
      [Report.faintMargin, Report.faintMargin ++ Ink.note.paint "Help" ++ ": " ++ text]
    | none => []
  let rows :=
    [ Ink.alarm.paint "Error:" ++ " " ++ e.cause.message
    , Report.heading name e.span
    , "   " ++ Ink.frame.paint "│"
    , " " ++ Ink.frame.paint "1 │" ++ " " ++ Report.sourceRow line e.span
    , Report.faintMargin ++ Report.underline line e.span
    , Report.faintMargin ++ Report.leader line e.span ++ " " ++ e.cause.label ]
      ++ help ++ [Ink.frame.paint "───╯"]
  String.join (rows.map (· ++ "\n"))

end SymbolicCalculus
