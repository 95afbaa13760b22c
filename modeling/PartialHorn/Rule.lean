import PartialHorn.Ascending
import PartialHorn.Sequent

namespace PartialHorn

/-- One step of a plan by which the premises of a sequent are matched. -/
inductive Step
  | op (op : Nat) (args : List Nat) (result : Nat)
  | pred (pred : Nat) (args : List Nat)
  | scan (var sort : Nat)
  | eq (lhs rhs : Nat)
deriving DecidableEq

/-- A sequent made ready for matching and firing. The three last lists are for the tables and the
carriers that the plan looks at; a rule made by hand may have others there. -/
structure Rule where
  name : String
  index : Nat
  varCount : Nat
  plan : List Step
  head : List Atom
  operationsRead : List Nat
  predicatesRead : List Nat
  sortsScanned : List Nat
deriving DecidableEq

namespace Atom

/-- The join with a table that a premise asks for; an equality asks for none. -/
def join? : Atom → Option Step
  | .op f args result => some (.op f args result)
  | .pred p args => some (.pred p args)
  | .eq _ _ => none

/-- The filter that a premise asks for, if it is an equality. -/
def filter? : Atom → Option Step
  | .eq lhs rhs => some (.eq lhs rhs)
  | _ => none

def joinVars : Atom → List Nat
  | .eq _ _ => []
  | atom => atom.vars

def comparands : Atom → List Nat
  | .eq lhs rhs => [lhs, rhs]
  | _ => []

end Atom

namespace Step

def operation? : Step → Option Nat
  | .op f _ _ => some f
  | _ => none

def predicate? : Step → Option Nat
  | .pred p _ => some p
  | _ => none

def scannedSort? : Step → Option Nat
  | .scan _ sort => some sort
  | _ => none

end Step

/-- The symbols whose tables a plan looks at, in strictly ascending order. -/
structure Reads where
  operations : List Nat := []
  predicates : List Nat := []
deriving DecidableEq

namespace Reads

/-- Takes up a premise: the table with which it is joined will be looked at. -/
def join (reads : Reads) : Atom → Reads
  | .op f _ _ => { reads with operations := Ascending.merge [f] reads.operations }
  | .pred p _ => { reads with predicates := Ascending.merge [p] reads.predicates }
  | .eq _ _ => reads

end Reads

/-- The variables that have to range over their carriers, in the order of their scans, and those
that conclusions introduce. -/
structure Scope where
  scanned : List Nat := []
  introduced : List Nat := []
deriving DecidableEq

namespace Scope

/-- Scans a variable, unless it is bound, introduced or scanned already. -/
def require (bound : List Nat) (scope : Scope) (var : Nat) : Scope :=
  if var ∈ bound ∨ var ∈ scope.introduced ∨ var ∈ scope.scanned then scope
  else { scope with scanned := scope.scanned ++ [var] }

/-- Introduces a variable, unless it is bound, introduced or scanned already. -/
def introduce (bound : List Nat) (scope : Scope) (var : Nat) : Scope :=
  if var ∈ bound ∨ var ∈ scope.introduced ∨ var ∈ scope.scanned then scope
  else { scope with introduced := scope.introduced ++ [var] }

/-- Takes up a conclusion: what it reads must have a value, and the result of an operation that
has none is introduced. -/
def conclude (bound : List Nat) (scope : Scope) (atom : Atom) : Scope :=
  let read := atom.inputs.foldl (Scope.require bound) scope
  match atom with
  | .op _ _ result => read.introduce bound result
  | _ => read

end Scope

namespace Sequent

def joined (seq : Sequent) : List Nat :=
  seq.premises.flatMap Atom.joinVars

/-- The symbols of the premises, collected one premise after another. -/
def reads (seq : Sequent) : Reads :=
  seq.premises.foldl Reads.join {}

/-- The variables to scan and to introduce: the sides of premise equalities come first, then the
conclusions in order. -/
def scope (seq : Sequent) : Scope :=
  let compared := (seq.premises.flatMap Atom.comparands).foldl (Scope.require seq.joined) {}
  seq.conclusions.foldl (Scope.conclude seq.joined) compared

/-- The plan of a sequent: joins, then scans, then equalities. -/
def plan (seq : Sequent) : Except Fault (List Step) := do
  let scans ← seq.scope.scanned.mapM fun var => do
    let sort ← seq.sortOf var
    return Step.scan var sort
  return seq.premises.filterMap Atom.join? ++ scans ++ seq.premises.filterMap Atom.filter?

end Sequent

namespace Rule

/-- The rule that carries out a plan for the premises of a sequent. The sorts that it scans are taken
from the plan, the symbols that it reads from the premises. -/
def ofPlan (index : Nat) (seq : Sequent) (plan : List Step) : Rule where
  name := seq.name
  index := index
  varCount := seq.vars.length
  plan := plan
  head := seq.conclusions
  operationsRead := seq.reads.operations
  predicatesRead := seq.reads.predicates
  sortsScanned := ascending (plan.filterMap Step.scannedSort?)

def ofSequent (sig : Signature) (index : Nat) (seq : Sequent) : Except SequentError Rule :=
  match seq.fault? sig with
  | some fault => .error ⟨seq.name, fault⟩
  | none =>
    match seq.plan with
    | .error fault => .error ⟨seq.name, fault⟩
    | .ok plan => .ok (ofPlan index seq plan)

/-- The rules of some sequents, numbered from a position on. -/
def ofSequentsFrom (sig : Signature) (index : Nat) : List Sequent → Except SequentError (List Rule)
  | [] => .ok []
  | seq :: seqs => do
    let rule ← ofSequent sig index seq
    let rules ← ofSequentsFrom sig (index + 1) seqs
    return rule :: rules

/-- The rules of some sequents, each with the position of its sequent. -/
def ofSequents (sig : Signature) (seqs : List Sequent) : Except SequentError (List Rule) :=
  ofSequentsFrom sig 0 seqs

end Rule

end PartialHorn
