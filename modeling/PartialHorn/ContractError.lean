import PartialHorn.Signature

namespace PartialHorn

/-- The ways in which a call breaks the contract of a structure. -/
inductive ContractError
  | unknownElement (element size : Nat)
  | forwardReference (argument next : Nat)
  | unknownOperation (op : Nat)
  | unknownPredicate (pred : Nat)
  | unknownSort (sort : Nat)
  | arityMismatch (symbol : String) (expected actual : Nat)
  | sortMismatch (symbol : String) (position element expected actual : Nat)
  | mergeSortMismatch (left leftSort right rightSort : Nat)
  | internal (description : String)
deriving DecidableEq

namespace ContractError

def message : ContractError → String
  | unknownElement element size =>
    s!"element {element} does not exist (structure has {size} elements)"
  | forwardReference argument next =>
    s!"argument {argument} is not older than the next element {next}"
  | unknownOperation op => s!"operation #{op} is not in the signature"
  | unknownPredicate pred => s!"predicate #{pred} is not in the signature"
  | unknownSort sort => s!"sort #{sort} is not in the signature"
  | arityMismatch symbol expected actual =>
    s!"`{symbol}` expects {expected} arguments, got {actual}"
  | sortMismatch symbol position element expected actual =>
    s!"`{symbol}` argument {position}: element {element} has sort #{actual}, " ++
      s!"expected #{expected}"
  | mergeSortMismatch left leftSort right rightSort =>
    s!"cannot merge element {left} (sort #{leftSort}) with element {right} (sort #{rightSort})"
  | internal description => s!"internal invariant broken: {description}"

end ContractError

end PartialHorn
