import PartialHorn.Ascending
import PartialHorn.Equality
import PartialHorn.OperationTable
import PartialHorn.PredicateTable

namespace PartialHorn

def total {α : Type} (measure : α → Nat) : List α → Nat
  | [] => 0
  | x :: xs => measure x + total measure xs

@[simp]
theorem total_nil {α : Type} (measure : α → Nat) : total measure [] = 0 :=
  rfl

@[simp]
theorem total_cons {α : Type} (measure : α → Nat) (x : α) (xs : List α) :
    total measure (x :: xs) = measure x + total measure xs :=
  rfl

/-- A finite partial interpretation of a signature: elements with their sorts, the carrier of each
sort as the ascending list of its elements, a partition of the elements, and a table for each symbol.
Elements are numbered in the order of their creation. A structure is dirty while merges wait to reach
its tables. How the partition is kept is left open; by default it is a list of representatives. -/
structure Structure (E : Type := Equality) where
  signature : Signature
  sorts : List Nat := []
  carriers : List (List Nat)
  equality : E
  operations : List OperationTable
  predicates : List PredicateTable
  dirty : Bool := false
deriving DecidableEq

structure Census where
  elements : Nat
  classes : Nat
  operationRows : Nat
  predicateRows : Nat
  merges : Nat
deriving DecidableEq

namespace Structure

variable {E : Type}

/-- The structure without elements, with one empty carrier for each sort and one empty table for each
symbol. -/
def empty (sig : Signature) : Structure where
  signature := sig
  carriers := List.replicate sig.sorts.length []
  equality := {}
  operations := sig.operations.map fun operation => { arity := operation.domain.length }
  predicates := sig.predicates.map fun predicate => { arity := predicate.domain.length }

/-- The number of elements, which is the next element to be created. -/
def size (s : Structure E) : Nat :=
  s.sorts.length

def sortOf (s : Structure E) (x : Nat) : Except ContractError Nat :=
  match s.sorts[x]? with
  | some sort => .ok sort
  | none => .error (.unknownElement x s.size)

def carrier? (s : Structure E) (sort : Nat) : Option (List Nat) :=
  s.carriers[sort]?

/-- The elements of a sort in order of creation, merged ones included; none if there is no such
sort. -/
def carrier (s : Structure E) (sort : Nat) : List Nat :=
  (s.carrier? sort).getD []

def classCount [Partition E] (s : Structure E) : Nat :=
  Partition.classCount s.equality

def operationRows (s : Structure E) : Nat :=
  total OperationTable.size s.operations

def predicateRows (s : Structure E) : Nat :=
  total PredicateTable.size s.predicates

def rowCount (s : Structure E) : Nat :=
  s.operationRows + s.predicateRows

def census [Partition E] (s : Structure E) : Census where
  elements := s.size
  classes := s.classCount
  operationRows := s.operationRows
  predicateRows := s.predicateRows
  merges := Partition.merges s.equality

/-- The result stored for an operation at exactly these arguments. -/
def result? (s : Structure E) (op : Nat) (args : List Nat) : Option Nat :=
  (s.operations[op]?).bind (·.get? args)

/-- Whether the extent of a predicate has exactly this tuple. -/
def hasTuple (s : Structure E) (pred : Nat) (tuple : List Nat) : Bool :=
  (s.predicates[pred]?).any (·.contains tuple)

/-- What is wrong with the first bad argument from a position on: each argument has to exist and to
be of the expected sort. -/
def argumentError? (s : Structure E) (symbol : String) :
    Nat → List Nat → List Nat → Option ContractError
  | position, expected :: sorts, x :: xs =>
    match s.sorts[x]? with
    | none => some (.forwardReference x s.size)
    | some actual =>
      if actual = expected then s.argumentError? symbol (position + 1) sorts xs
      else some (.sortMismatch symbol position x expected actual)
  | _, _, _ => none

/-- Why a symbol cannot be applied to some arguments: their number comes before their sorts. -/
def applicationError? (s : Structure E) (symbol : String) (domain : List Nat)
    (args : List Nat) : Option ContractError :=
  if args.length = domain.length then s.argumentError? symbol 0 domain args
  else some (.arityMismatch symbol domain.length args.length)

/-- The structure with one more element, in a class of its own. -/
def extended [Partition E] (s : Structure E) (sort : Nat) : Structure E :=
  { s with
    sorts := s.sorts ++ [sort]
    carriers := s.carriers.modify sort (Ascending.merge [s.size])
    equality := Partition.grow s.equality }

/-- The structure with a row put into the table of an operation. -/
def withRow (s : Structure E) (op : Nat) (row : Row) : Structure E :=
  { s with operations := s.operations.modify op fun table => (table.insert row).2 }

/-- The structure with a tuple put into the extent of a predicate. -/
def withTuple (s : Structure E) (pred : Nat) (tuple : List Nat) : Structure E :=
  { s with predicates := s.predicates.modify pred fun table => (table.insert tuple).2 }

end Structure

end PartialHorn
