import PartialHorn.Signature

namespace PartialHorn

/-- An atomic formula over variables, each referred to by its position in a context. -/
inductive Atom
  | op (op : Nat) (args : List Nat) (result : Nat)
  | pred (pred : Nat) (args : List Nat)
  | eq (lhs rhs : Nat)
deriving DecidableEq

structure Variable where
  name : String
  sort : Nat
deriving DecidableEq

/-- A Horn sequent: for all values of its variables, the premises entail the conclusions. -/
structure Sequent where
  name : String
  vars : List Variable := []
  premises : List Atom := []
  conclusions : List Atom := []
deriving DecidableEq

inductive Fault
  | unknownSortName (name : String)
  | unknownOperationName (name : String)
  | unknownPredicateName (name : String)
  | unknownVariableName (name : String)
  | duplicateVariable (name : String)
  | variableOutOfRange (var : Nat)
  | unknownOperation (op : Nat)
  | unknownPredicate (pred : Nat)
  | unknownSort (sort : Nat)
  | arityMismatch (symbol : String) (expected actual : Nat)
  | sortMismatch (symbol var : String) (expected actual : Nat)
deriving DecidableEq

structure SequentError where
  sequent : String
  fault : Fault
deriving DecidableEq

namespace Fault

def message : Fault → String
  | unknownSortName name => s!"unknown sort `{name}`"
  | unknownOperationName name => s!"unknown operation `{name}`"
  | unknownPredicateName name => s!"unknown predicate `{name}`"
  | unknownVariableName name => s!"unknown variable `{name}`"
  | duplicateVariable name => s!"variable `{name}` declared twice"
  | variableOutOfRange var => s!"variable #{var} out of range"
  | unknownOperation op => s!"operation #{op} is not in the signature"
  | unknownPredicate pred => s!"predicate #{pred} is not in the signature"
  | unknownSort sort => s!"sort #{sort} is not in the signature"
  | arityMismatch symbol expected actual =>
    s!"`{symbol}` expects {expected} arguments, got {actual}"
  | sortMismatch symbol var expected actual =>
    s!"variable `{var}` has sort #{actual}, `{symbol}` expects #{expected}"

end Fault

namespace SequentError

def message (e : SequentError) : String :=
  s!"axiom `{e.sequent}`: {e.fault.message}"

end SequentError

namespace Atom

/-- The variables of an atom in order, with the result of an operation last. -/
def vars : Atom → List Nat
  | .op _ args result => args ++ [result]
  | .pred _ args => args
  | .eq lhs rhs => [lhs, rhs]

/-- The variables that a conclusion reads. The result of an operation may be introduced by the
conclusion itself, so it is not among them. -/
def inputs : Atom → List Nat
  | .op _ args _ => args
  | .pred _ args => args
  | .eq lhs rhs => [lhs, rhs]

end Atom

namespace Sequent

/-- The name of a variable, or a question mark if there is no such variable. -/
def nameOf (seq : Sequent) (var : Nat) : String :=
  match seq.vars[var]? with
  | some v => v.name
  | none => "?"

def sortOf (seq : Sequent) (var : Nat) : Except Fault Nat :=
  match seq.vars[var]? with
  | some v => .ok v.sort
  | none => .error (.variableOutOfRange var)

/-- The first fault of a context, given the names that came before it. A name that is taken is
reported before a sort that is not declared. -/
def contextFault? (sig : Signature) : List String → List Variable → Option Fault
  | _, [] => none
  | names, v :: vs =>
    if v.name ∈ names then some (.duplicateVariable v.name)
    else if v.sort < sig.sorts.length then contextFault? sig (v.name :: names) vs
    else some (.unknownSort v.sort)

/-- The first fault of some arguments, each of which has to be in range and of the expected sort. -/
def argumentFault? (seq : Sequent) (symbol : String) : List Nat → List Nat → Option Fault
  | expected :: sorts, var :: vars =>
    match seq.sortOf var with
    | .error fault => some fault
    | .ok actual =>
      if actual = expected then seq.argumentFault? symbol sorts vars
      else some (.sortMismatch symbol (seq.nameOf var) expected actual)
  | _, _ => none

/-- The first fault of an application: the number of its arguments comes before each of them. -/
def applicationFault? (seq : Sequent) (symbol : String) (domain : List Nat)
    (vars : List Nat) : Option Fault :=
  if vars.length = domain.length then seq.argumentFault? symbol domain vars
  else some (.arityMismatch symbol domain.length vars.length)

/-- The first fault of an atom: its symbol, then its arguments, then its result. An equality needs
two sides of one sort. -/
def atomFault? (seq : Sequent) (sig : Signature) : Atom → Option Fault
  | .op op args result =>
    match sig.operations[op]? with
    | none => some (.unknownOperation op)
    | some operation =>
      (seq.applicationFault? operation.name operation.domain args).or
        (seq.argumentFault? operation.name [operation.codomain] [result])
  | .pred pred args =>
    match sig.predicates[pred]? with
    | none => some (.unknownPredicate pred)
    | some predicate => seq.applicationFault? predicate.name predicate.domain args
  | .eq lhs rhs =>
    match seq.sortOf lhs with
    | .error fault => some fault
    | .ok sort => seq.argumentFault? "=" [sort] [rhs]

/-- The first fault of a sequent: the context comes before the premises, and these before the
conclusions. -/
def fault? (seq : Sequent) (sig : Signature) : Option Fault :=
  (contextFault? sig [] seq.vars).or
    ((seq.premises ++ seq.conclusions).findSome? (seq.atomFault? sig))

end Sequent

end PartialHorn
