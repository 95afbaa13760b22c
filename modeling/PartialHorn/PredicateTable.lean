import PartialHorn.Ascending
import PartialHorn.ContractError

namespace PartialHorn

/-- A tuple that a predicate table has met, and whether it is in the extent now. -/
structure Entry where
  tuple : List Nat
  present : Bool
deriving DecidableEq

/-- The extent of a predicate as a log of tuples in the order of their first insertion.
A tuple that is taken back keeps its place; the generation counts the changes of the extent. -/
structure PredicateTable where
  arity : Nat
  log : List Entry := []
  generation : Nat := 0
deriving DecidableEq

namespace PredicateTable

/-- The tuple logged at a place, whether it is in the extent or not. -/
def tuple? (table : PredicateTable) (place : Nat) : Option (List Nat) :=
  (table.log[place]?).map Entry.tuple

/-- The tuples of the extent, in the order of the log. -/
def rows (table : PredicateTable) : List (List Nat) :=
  (table.log.filter Entry.present).map Entry.tuple

def sortedRows (table : PredicateTable) : List (List Nat) :=
  ascending table.rows

def size (table : PredicateTable) : Nat :=
  table.rows.length

def contains (table : PredicateTable) (tuple : List Nat) : Bool :=
  table.log.any fun entry => entry.tuple == tuple && entry.present

def logged (table : PredicateTable) (tuple : List Nat) : Bool :=
  table.log.any fun entry => entry.tuple == tuple

/-- The log with a tuple put into the extent or taken out of it. -/
def mark (table : PredicateTable) (tuple : List Nat) (present : Bool) : List Entry :=
  table.log.map fun entry => if entry.tuple = tuple then { entry with present } else entry

/-- Puts a tuple into the extent, answering whether it is new there. -/
def insert (table : PredicateTable) (tuple : List Nat) : Bool × PredicateTable :=
  if table.contains tuple then (false, table)
  else
    let log := if table.logged tuple then table.mark tuple true else table.log ++ [⟨tuple, true⟩]
    (true, { table with log, generation := table.generation + 1 })

/-- Takes a tuple out of the extent, answering whether it was there. -/
def remove (table : PredicateTable) (tuple : List Nat) : Bool × PredicateTable :=
  if table.contains tuple then
    (true, { table with log := table.mark tuple false, generation := table.generation + 1 })
  else (false, table)

end PredicateTable

end PartialHorn
