namespace PartialHorn

/-- A symbol for a partial function, with the sorts of its arguments and of its value. -/
structure Operation where
  name : String
  domain : List Nat
  codomain : Nat
deriving DecidableEq

/-- A symbol for a relation, with the sorts of its arguments. -/
structure Predicate where
  name : String
  domain : List Nat
deriving DecidableEq

/-- The sorts, operations and predicates of a theory. Each of them is referred to by its position in
the order of declaration. -/
structure Signature where
  sorts : List String := []
  operations : List Operation := []
  predicates : List Predicate := []
deriving DecidableEq

inductive DeclarationError
  | duplicateSort (name : String)
  | duplicateOperation (name : String)
  | duplicatePredicate (name : String)
  | unknownSort (symbol : String) (sort : Nat)
deriving DecidableEq

inductive Declaration
  | sort (name : String)
  | operation (operation : Operation)
  | predicate (predicate : Predicate)
deriving DecidableEq

namespace DeclarationError

def message : DeclarationError → String
  | duplicateSort name => s!"sort `{name}` is already declared"
  | duplicateOperation name => s!"operation `{name}` is already declared"
  | duplicatePredicate name => s!"predicate `{name}` is already declared"
  | unknownSort symbol sort => s!"symbol `{symbol}` refers to undeclared sort #{sort}"

end DeclarationError

namespace Signature

def sortIndex? (sig : Signature) (name : String) : Option Nat :=
  sig.sorts.findIdx? (· == name)

def operationIndex? (sig : Signature) (name : String) : Option Nat :=
  sig.operations.findIdx? (·.name == name)

def predicateIndex? (sig : Signature) (name : String) : Option Nat :=
  sig.predicates.findIdx? (·.name == name)

/-- The first of some sorts that the signature does not declare. -/
def undeclaredSort? (sig : Signature) (sorts : List Nat) : Option Nat :=
  sorts.find? fun sort => decide (sig.sorts.length ≤ sort)

def addSort (sig : Signature) (name : String) : Except DeclarationError (Nat × Signature) :=
  match sig.sortIndex? name with
  | some _ => .error (.duplicateSort name)
  | none => .ok (sig.sorts.length, { sig with sorts := sig.sorts ++ [name] })

/-- Declares an operation; a name that is taken is reported before a sort that is not declared. -/
def addOperation (sig : Signature) (operation : Operation) :
    Except DeclarationError (Nat × Signature) :=
  match sig.operationIndex? operation.name with
  | some _ => .error (.duplicateOperation operation.name)
  | none =>
    match sig.undeclaredSort? (operation.domain ++ [operation.codomain]) with
    | some sort => .error (.unknownSort operation.name sort)
    | none =>
      .ok (sig.operations.length, { sig with operations := sig.operations ++ [operation] })

/-- Declares a predicate; a name that is taken is reported before a sort that is not declared. -/
def addPredicate (sig : Signature) (predicate : Predicate) :
    Except DeclarationError (Nat × Signature) :=
  match sig.predicateIndex? predicate.name with
  | some _ => .error (.duplicatePredicate predicate.name)
  | none =>
    match sig.undeclaredSort? predicate.domain with
    | some sort => .error (.unknownSort predicate.name sort)
    | none =>
      .ok (sig.predicates.length, { sig with predicates := sig.predicates ++ [predicate] })

/-- Takes up one declaration and answers the position of the new symbol. -/
def declare (sig : Signature) : Declaration → Except DeclarationError (Nat × Signature)
  | .sort name => sig.addSort name
  | .operation operation => sig.addOperation operation
  | .predicate predicate => sig.addPredicate predicate

/-- Takes up declarations in order, passing over the rejected ones and keeping their errors. -/
def declareAll (sig : Signature) : List Declaration → List DeclarationError × Signature
  | [] => ([], sig)
  | d :: ds =>
    match sig.declare d with
    | .ok (_, larger) => larger.declareAll ds
    | .error e =>
      let rest := sig.declareAll ds
      (e :: rest.1, rest.2)

/-- The signature that some declarations describe, with the errors of the rejected ones. -/
def ofDeclarations (ds : List Declaration) : List DeclarationError × Signature :=
  Signature.declareAll {} ds

end Signature

end PartialHorn
