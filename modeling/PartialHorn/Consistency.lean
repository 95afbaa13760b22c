import PartialHorn.Structure

namespace PartialHorn

/-- The ways in which the parts of a structure may fail to fit together. -/
inductive Violation
  | equalitySize (elements tracked : Nat)
  | carrierTotal (held elements : Nat)
  | missingFromCarrier (element sort : Nat)
  | wrongArity (symbol : String)
  | illSortedRow (symbol : String) (cells : List Nat)
  | staleRow (symbol : String) (cells : List Nat) (element : Nat)
  | illSortedTuple (symbol : String) (cells : List Nat)
  | staleTuple (symbol : String) (cells : List Nat) (element : Nat)
deriving DecidableEq

namespace Violation

def listing (cells : List Nat) : String :=
  "[" ++ ", ".intercalate (cells.map toString) ++ "]"

def message : Violation → String
  | equalitySize elements tracked =>
    s!"carrier has {elements} elements but equality tracks {tracked}"
  | carrierTotal held elements => s!"carriers hold {held} elements, expected {elements}"
  | missingFromCarrier element sort => s!"element {element} missing from carrier of sort #{sort}"
  | wrongArity symbol => s!"table of `{symbol}` has wrong arity"
  | illSortedRow symbol cells => s!"ill-sorted row {listing cells} in `{symbol}`"
  | staleRow symbol cells element =>
    s!"non-canonical id {element} in row {listing cells} of `{symbol}`"
  | illSortedTuple symbol cells => s!"ill-sorted tuple {listing cells} in `{symbol}`"
  | staleTuple symbol cells element =>
    s!"non-canonical id {element} in tuple {listing cells} of `{symbol}`"

end Violation

namespace Structure

/-- Whether some cells are elements of the given sorts, one by one. -/
def sortedAs (s : Structure) (domain : List Nat) (cells : List Nat) : Bool :=
  cells.map (s.sorts[·]?) == domain.map some

/-- The cells that are not canonical, which only a dirty structure may have. -/
def staleCells (s : Structure) (cells : List Nat) : List Nat :=
  if s.dirty then [] else cells.filter fun x => !s.equality.isRepresentative x

def rowViolations (s : Structure) (operation : Operation) (row : Row) : List Violation :=
  if s.sortedAs (operation.domain ++ [operation.codomain]) row.cells then
    (s.staleCells row.cells).map (.staleRow operation.name row.cells)
  else [.illSortedRow operation.name row.cells]

def tupleViolations (s : Structure) (predicate : Predicate) (tuple : List Nat) :
    List Violation :=
  if s.sortedAs predicate.domain tuple then
    (s.staleCells tuple).map (.staleTuple predicate.name tuple)
  else [.illSortedTuple predicate.name tuple]

def tableViolations (s : Structure) (operation : Operation) (table : OperationTable) :
    List Violation :=
  if table.arity = operation.domain.length then
    table.rows.flatMap (s.rowViolations operation)
  else [.wrongArity operation.name]

/-- The elements that the carrier of their sort lacks. -/
def carrierViolations (s : Structure) : List Violation :=
  (s.sorts.zipIdx.filter fun entry => !(s.carrier entry.1).contains entry.2).map
    fun entry => .missingFromCarrier entry.2 entry.1

/-- Everything that is wrong with a structure: the counts first, then the carriers, then the tables
in order. -/
def violations (s : Structure) : List Violation :=
  let held := total List.length s.carriers
  (if s.equality.size = s.size then [] else [.equalitySize s.size s.equality.size]) ++
    (if held = s.size then [] else [.carrierTotal held s.size]) ++
    s.carrierViolations ++
    (s.signature.operations.zip s.operations).flatMap
      (fun entry => s.tableViolations entry.1 entry.2) ++
    (s.signature.predicates.zip s.predicates).flatMap
      (fun entry => entry.2.rows.flatMap (s.tupleViolations entry.1))

def violation? (s : Structure) : Option Violation :=
  s.violations.head?

end Structure

end PartialHorn
