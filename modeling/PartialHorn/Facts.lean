import PartialHorn.Machine

namespace PartialHorn

namespace Action

variable {σ E : Type} [Partition E] [Machine σ E]

def create (sort : Nat) : Action σ ContractError Nat := do
  let s ← current
  if Partition.size s.equality = s.size then
    update fun s => s.extended sort
    return s.size
  else
    fail (.internal s!"carrier has {s.size} elements but equality tracks {Partition.size s.equality}")

/-- Adds a fresh element that no operation defines. -/
def add (sort : Nat) : Action σ ContractError Nat := do
  let s ← current
  if sort < s.carriers.length then create sort
  else fail (.unknownSort sort)

/-- Checks the arguments of an operation, rebuilds, and answers the operation with the
representatives of the arguments. -/
def applied (op : Nat) (args : List Nat) : Action σ ContractError (Operation × List Nat) := do
  let s ← current
  let operation ← ofOption (.unknownOperation op) s.signature.operations[op]?
  refuse (s.applicationError? operation.name operation.domain args)
  let _ ← Machine.rebuild
  let key ← Machine.findAll args
  return (operation, key)

/-- Checks the arguments of a predicate, rebuilds, and answers their representatives. -/
def related (pred : Nat) (args : List Nat) : Action σ ContractError (List Nat) := do
  let s ← current
  let predicate ← ofOption (.unknownPredicate pred) s.signature.predicates[pred]?
  refuse (s.applicationError? predicate.name predicate.domain args)
  let _ ← Machine.rebuild
  Machine.findAll args

/-- Answers the value of an operation, which is a fresh element if there is none yet. -/
def define (op : Nat) (args : List Nat) : Action σ ContractError Nat := do
  let (operation, key) ← applied op args
  let s ← current
  match s.result? op key with
  | some existing => return existing
  | none =>
    let fresh ← create operation.codomain
    update fun s => s.withRow op ⟨key, fresh⟩
    return fresh

def lookup (op : Nat) (args : List Nat) : Action σ ContractError (Option Nat) := do
  let (_, key) ← applied op args
  let s ← current
  return s.result? op key

/-- Records that a predicate holds, answering whether this is new. -/
def assert (pred : Nat) (args : List Nat) : Action σ ContractError Bool := do
  let tuple ← related pred args
  let s ← current
  update fun s => s.withTuple pred tuple
  return !s.hasTuple pred tuple

def holds (pred : Nat) (args : List Nat) : Action σ ContractError Bool := do
  let tuple ← related pred args
  let s ← current
  return s.hasTuple pred tuple

/-- Merges two elements of one sort, answering whether they were different. The tables follow at
the next rebuild. -/
def merge (x y : Nat) : Action σ ContractError Bool := do
  let s ← current
  let xSort ← ofExcept (s.sortOf x)
  let ySort ← ofExcept (s.sortOf y)
  if xSort = ySort then
    let merged ← Machine.join x y
    update fun s => { s with dirty := s.dirty || merged }
    return merged
  else fail (.mergeSortMismatch x xSort y ySort)

def sortOf (x : Nat) : Action σ ContractError Nat := do
  let s ← current
  ofExcept (s.sortOf x)

end Action

end PartialHorn
