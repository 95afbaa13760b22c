import PartialHorn.Structure

namespace PartialHorn

/-- How a structure is printed: the width of an indent, and whether elements are listed that do
not represent their class. -/
structure Style where
  indent : Nat := 2
  showMerged : Bool := true
deriving DecidableEq

inductive Line
  | header (elements classes : Nat)
  | element (x : Nat) (sort : String) (rep : Nat)
  | dirty
  | heading (symbol : String)
  | row (symbol : String) (args : List Nat) (result : Nat)
  | tuple (symbol : String) (args : List Nat)
deriving DecidableEq

namespace Line

def application (symbol : String) (args : List Nat) : String :=
  symbol ++ "(" ++ ", ".intercalate (args.map toString) ++ ")"

def text : Line → String
  | header elements classes => s!"structure: {elements} elements, {classes} classes"
  | element x sort rep => if rep = x then s!"{x} : {sort}" else s!"{x} : {sort} = {rep}"
  | dirty => "(tables not yet rebuilt)"
  | heading symbol => s!"{symbol}:"
  | row symbol args result => s!"{application symbol args} = {result}"
  | tuple symbol args => application symbol args

end Line

namespace Structure

def sortName (s : Structure) (sort : Nat) : String :=
  (s.signature.sorts[sort]?).getD "?"

end Structure

/-- A writer with what it has written so far and the level to which it is indented. -/
structure Printer where
  style : Style := {}
  output : String := ""
  level : Nat := 0
deriving DecidableEq

namespace Printer

def put (printer : Printer) (line : Line) : Printer :=
  let margin := "".pushn ' ' (printer.level * printer.style.indent)
  { printer with output := printer.output ++ (margin ++ line.text ++ "\n") }

def indent (printer : Printer) : Printer :=
  { printer with level := printer.level + 1 }

def dedent (printer : Printer) : Printer :=
  { printer with level := printer.level - 1 }

/-- Writes the line of an element, given a way to look up representatives. An element that does not
represent its class has a line only if the style asks for it. -/
def element (find : Nat → Except ContractError Nat) (s : Structure) (printer : Printer) (x : Nat) :
    Printer :=
  match s.sortOf x, find x with
  | .ok sort, .ok rep =>
    if rep = x ∨ printer.style.showMerged then printer.put (.element x (s.sortName sort) rep)
    else printer
  | _, _ => printer

/-- Writes lines under the heading of a symbol. -/
def block (printer : Printer) (symbol : String) (lines : List Line) : Printer :=
  (lines.foldl put (printer.put (.heading symbol)).indent).dedent

/-- Writes the rows of an operation in ascending order, unless there are none. -/
def operation (s : Structure) (printer : Printer) (entry : Operation × Nat) : Printer :=
  match s.operations[entry.2]? with
  | none => printer
  | some table =>
    if table.rows.isEmpty then printer
    else
      printer.block entry.1.name <| table.sortedRows.map fun cells =>
        .row entry.1.name cells.dropLast (cells.getLastD 0)

/-- Writes the tuples of a predicate in ascending order, unless there are none. -/
def predicate (s : Structure) (printer : Printer) (entry : Predicate × Nat) : Printer :=
  match s.predicates[entry.2]? with
  | none => printer
  | some table =>
    if table.rows.isEmpty then printer
    else printer.block entry.1.name (table.sortedRows.map (.tuple entry.1.name))

/-- Writes a structure, given a way to look up representatives: a header, the elements, a note if the
tables are not up to date, then the tables that have rows. -/
def printBy (find : Nat → Except ContractError Nat) (printer : Printer) (s : Structure) : Printer :=
  let titled := printer.put (.header s.size s.classCount)
  let listed := ((List.range s.size).foldl (element find s) titled.indent).dedent
  let noted := if s.dirty then listed.put .dirty else listed
  let tabled := s.signature.operations.zipIdx.foldl (operation s) noted
  s.signature.predicates.zipIdx.foldl (predicate s) tabled

def print (printer : Printer) (s : Structure) : Printer :=
  printer.printBy s.equality.find s

end Printer

namespace Structure

/-- The text that one printer makes of some structures. -/
def renderAll (style : Style) (structures : List Structure) : String :=
  (structures.foldl Printer.print { style }).output

def render (s : Structure) (style : Style) : String :=
  renderAll style [s]

def display (s : Structure) : String :=
  s.render {}

end Structure

end PartialHorn
