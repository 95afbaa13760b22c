import PartialHorn.Rule

namespace PartialHorn

inductive NamedAtom
  | op (op : String) (args : List String) (result : String)
  | pred (pred : String) (args : List String)
  | eq (lhs rhs : String)
deriving DecidableEq

inductive Clause
  | declare (name sort : String)
  | premise (atom : NamedAtom)
  | conclude (atom : NamedAtom)
deriving DecidableEq

namespace Sequent

/-- The variable of a name, among those declared so far. -/
def resolveVar (seq : Sequent) (name : String) : Except Fault Nat :=
  match seq.vars.findIdx? (·.name == name) with
  | some var => .ok var
  | none => .error (.unknownVariableName name)

/-- Replaces the names of an atom: the symbol, the arguments from left to right, the result. -/
def resolveAtom (seq : Sequent) (sig : Signature) : NamedAtom → Except Fault Atom
  | .op name args result =>
    match sig.operationIndex? name with
    | none => .error (.unknownOperationName name)
    | some op => do
      let args ← args.mapM seq.resolveVar
      let result ← seq.resolveVar result
      return .op op args result
  | .pred name args =>
    match sig.predicateIndex? name with
    | none => .error (.unknownPredicateName name)
    | some pred => do
      let args ← args.mapM seq.resolveVar
      return .pred pred args
  | .eq lhs rhs => do
    let lhs ← seq.resolveVar lhs
    let rhs ← seq.resolveVar rhs
    return .eq lhs rhs

/-- Declares a variable; a name that is taken is reported before an unknown sort. -/
def declareVar (seq : Sequent) (sig : Signature) (name sort : String) : Except Fault Sequent :=
  if seq.vars.any (·.name == name) then .error (.duplicateVariable name)
  else
    match sig.sortIndex? sort with
    | none => .error (.unknownSortName sort)
    | some sort => .ok { seq with vars := seq.vars ++ [⟨name, sort⟩] }

def addClause (seq : Sequent) (sig : Signature) : Clause → Except Fault Sequent
  | .declare name sort => seq.declareVar sig name sort
  | .premise atom => do
    let atom ← seq.resolveAtom sig atom
    return { seq with premises := seq.premises ++ [atom] }
  | .conclude atom => do
    let atom ← seq.resolveAtom sig atom
    return { seq with conclusions := seq.conclusions ++ [atom] }

end Sequent

/-- A sequent under construction, with the fault of the first clause that could not be resolved. -/
structure Builder where
  sequent : Sequent
  fault : Option Fault := none
deriving DecidableEq

namespace Builder

/-- Keeps a fault, unless there has been one before. -/
def fail (builder : Builder) (fault : Fault) : Builder :=
  { builder with fault := builder.fault.or (some fault) }

/-- Adds a clause. One that cannot be resolved is missing from the sequent, and later clauses are
resolved without it. -/
def add (sig : Signature) (builder : Builder) (clause : Clause) : Builder :=
  match builder.sequent.addClause sig clause with
  | .ok larger => { builder with sequent := larger }
  | .error fault => builder.fail fault

/-- Hands out the sequent, if there has been no fault and a rule can be made of it. -/
def build (sig : Signature) (builder : Builder) : Except SequentError Sequent :=
  match builder.fault with
  | some fault => .error ⟨builder.sequent.name, fault⟩
  | none => do
    let _ ← Rule.ofSequent sig 0 builder.sequent
    return builder.sequent

end Builder

/-- Builds a sequent from clauses with names. -/
def Sequent.ofClauses (sig : Signature) (name : String) (clauses : List Clause) :
    Except SequentError Sequent :=
  (clauses.foldl (Builder.add sig) { sequent := { name } }).build sig

end PartialHorn
