import PartialHorn.ContractError
import PartialHorn.Positions

namespace PartialHorn

/-- An equation between two results of one operation, waiting to be merged. -/
structure Equation where
  lhs : Nat
  rhs : Nat
  op : Nat
deriving DecidableEq

/-- A partition of the elements below a bound, with a queue of equations still to be merged.
Entry `x` of `reps` is the least member of the class of `x`. -/
structure Equality where
  reps : List Nat := []
  merges : Nat := 0
  pending : List Equation := []
deriving DecidableEq

namespace Equality

def size (eq : Equality) : Nat :=
  eq.reps.length

def classCount (eq : Equality) : Nat :=
  eq.size - eq.merges

def grow (eq : Equality) : Equality :=
  { eq with reps := eq.reps ++ [eq.size] }

/-- The representative of an element, which is the least member of its class. -/
def find (eq : Equality) (x : Nat) : Except ContractError Nat :=
  match eq.reps[x]? with
  | some r => .ok r
  | none => .error (.unknownElement x eq.size)

/-- The representatives of some elements, or the error of the first unknown one. -/
def findAll (eq : Equality) (xs : List Nat) : Except ContractError (List Nat) :=
  xs.mapM eq.find

def areEqual (eq : Equality) (x y : Nat) : Except ContractError Bool := do
  let rx ← eq.find x
  let ry ← eq.find y
  return decide (rx = ry)

/-- Joins the classes of two different representatives under the smaller of them. -/
def link (eq : Equality) (a b : Nat) : Equality :=
  { eq with
    reps := eq.reps.map fun r => if r = max a b then min a b else r
    merges := eq.merges + 1 }

/-- Merges the classes of two elements, answering whether they were different. -/
def merge (eq : Equality) (x y : Nat) : Except ContractError (Bool × Equality) := do
  let rx ← eq.find x
  let ry ← eq.find y
  return if rx = ry then (false, eq) else (true, eq.link rx ry)

def enqueue (eq : Equality) (e : Equation) : Equality :=
  { eq with pending := eq.pending ++ [e] }

def dequeue (eq : Equality) : Option Equation × Equality :=
  match eq.pending with
  | [] => (none, eq)
  | e :: es => (some e, { eq with pending := es })

/-- Merges both sides of each equation in turn, with the answer of each merge. An equation that cannot
be merged leaves the partition as it is and does not keep the others from being merged. -/
def mergeEach (eq : Equality) : List Equation → List (Except ContractError Bool) × Equality
  | [] => ([], eq)
  | e :: es =>
    match eq.merge e.lhs e.rhs with
    | .ok (merged, eq') =>
      let rest := eq'.mergeEach es
      (.ok merged :: rest.1, rest.2)
    | .error error =>
      let rest := eq.mergeEach es
      (.error error :: rest.1, rest.2)

/-- Empties the queue, merging its equations from the oldest on. -/
def drain (eq : Equality) : List (Except ContractError Bool) × Equality :=
  Equality.mergeEach { eq with pending := [] } eq.pending

/-- Puts equations into the queue and empties it, answering the number of merges. -/
def settle (eq : Equality) (equations : List Equation) : Except ContractError (Nat × Equality) := do
  let (answers, settled) := Equality.drain { eq with pending := eq.pending ++ equations }
  let merged ← answers.mapM id
  return (merged.count true, settled)

/-- Whether an element is the least member of its class. -/
def isRepresentative (eq : Equality) (x : Nat) : Bool :=
  eq.reps[x]? == some x

def members (eq : Equality) (r : Nat) : List Nat :=
  positions (· == r) eq.reps

/-- The classes by their least members, each of them in ascending order. -/
def classes (eq : Equality) : List (List Nat) :=
  ((List.range eq.size).filter eq.isRepresentative).map eq.members

def describe (eq : Equality) : String :=
  let equations := eq.pending.map fun e =>
    s!"PendingEquation \x7b lhs: {e.lhs}, rhs: {e.rhs}, " ++
      s!"reason: Congruence \x7b op: {e.op} \x7d \x7d"
  s!"Equality \x7b len: {eq.size}, pending: [" ++ ", ".intercalate equations ++
    s!"], merge_count: {eq.merges}, .. \x7d"

end Equality

/-- What is read off a partition and done to it without looking up an element. -/
class Partition (E : Type) where
  size : E → Nat
  merges : E → Nat
  grow : E → E

instance Equality.instPartition : Partition Equality where
  size := Equality.size
  merges := Equality.merges
  grow := Equality.grow

namespace Partition

/-- Every effective merge makes two classes into one. -/
def classCount {E : Type} [Partition E] (equality : E) : Nat :=
  size equality - merges equality

@[simp]
theorem size_eq (eq : Equality) : size eq = eq.size :=
  rfl

@[simp]
theorem merges_eq (eq : Equality) : merges eq = eq.merges :=
  rfl

@[simp]
theorem grow_eq (eq : Equality) : grow eq = eq.grow :=
  rfl

@[simp]
theorem classCount_eq (eq : Equality) : classCount eq = eq.classCount :=
  rfl

end Partition

end PartialHorn
