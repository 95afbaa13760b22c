import PartialHorn.Ascending
import PartialHorn.ContractError

namespace PartialHorn

/-- One point of the graph of a partial operation. -/
structure Row where
  args : List Nat
  result : Nat
deriving DecidableEq

/-- The arguments of a row followed by its result. -/
def Row.cells (row : Row) : List Nat :=
  row.args ++ [row.result]

/-- The graph of a partial operation, with at most one row for each list of arguments.
The generation counts the changes of the rows. -/
structure OperationTable where
  arity : Nat
  rows : List Row := []
  generation : Nat := 0
deriving DecidableEq

namespace OperationTable

def size (table : OperationTable) : Nat :=
  table.rows.length

/-- The rows as lists of cells in ascending order, whatever the order of the table. -/
def sortedRows (table : OperationTable) : List (List Nat) :=
  ascending (table.rows.map Row.cells)

def width (table : OperationTable) : Nat :=
  table.arity + 1

def get? (table : OperationTable) (args : List Nat) : Option Nat :=
  (table.rows.find? fun row => row.args == args).map Row.result

/-- Whether the table holds the row that consists of some arguments and a final result. -/
def contains (table : OperationTable) (cells : List Nat) : Bool :=
  match cells.getLast? with
  | some result =>
    cells.dropLast.length == table.arity && table.get? cells.dropLast == some result
  | none => false

/-- Adds a row unless its arguments have one already, whose result is then the answer. -/
def insert (table : OperationTable) (row : Row) : Option Nat × OperationTable :=
  match table.get? row.args with
  | some existing => (some existing, table)
  | none =>
    (none, { table with rows := table.rows ++ [row], generation := table.generation + 1 })

/-- Removes the row of some arguments, whose result is the answer. -/
def remove (table : OperationTable) (args : List Nat) : Option Nat × OperationTable :=
  match table.get? args with
  | some result =>
    (some result,
      { table with
        rows := table.rows.filter fun row => row.args != args
        generation := table.generation + 1 })
  | none => (none, table)

end OperationTable

end PartialHorn
