import PartialHorn.ContractError
import PartialHorn.Event

namespace PartialHorn

inductive ClosureError
  | structure (error : ContractError)
  | didNotConverge (iterations : Nat)
  | elementLimitExceeded (elements : Nat)
  | timeout (limit : Nat)
deriving DecidableEq

namespace ClosureError

def message : ClosureError → String
  | .structure error => error.message
  | didNotConverge iterations => s!"closure did not converge after {iterations} iterations"
  | elementLimitExceeded elements =>
    s!"closure exceeded the element limit ({elements} elements)"
  | timeout limit => s!"closure exceeded its time limit of {Duration.text limit}"

/-- Whether the budget ran out, rather than a contract being broken. -/
def isExhaustion : ClosureError → Bool
  | .structure _ => false
  | _ => true

end ClosureError

/-- Bounds on a run of the chase, the time in nanoseconds. A bound that is missing is never
exceeded. -/
structure Budget where
  maxPasses : Option Nat := some 10000
  maxElements : Option Nat := none
  timeLimit : Option Nat := none
deriving DecidableEq

/-- The nanoseconds that a run has taken when a number of its passes are over. -/
abbrev Clock := Nat → Nat

namespace Budget

def quick : Budget where
  maxPasses := some 100
  maxElements := some 10000
  timeLimit := some (100 * Duration.millisecond)

def medium : Budget where
  maxPasses := some 1000
  maxElements := some 1000000
  timeLimit := some (5 * Duration.second)

def unbounded : Budget where
  maxPasses := none

/-- The first bound that a run exceeds with its passes, elements and time, as the event to report
and the error to end with. Passes are used up when they reach their bound. -/
def exceeded? (budget : Budget) (iterations elements elapsed : Nat) :
    Option (Event × ClosureError) :=
  let passes := budget.maxPasses.bind fun most =>
    if most ≤ iterations then some (.notConverged iterations, .didNotConverge iterations) else none
  let size := budget.maxElements.bind fun most =>
    if most < elements then some (.elementLimit most, .elementLimitExceeded elements) else none
  let time := budget.timeLimit.bind fun limit =>
    if limit < elapsed then some (.timeLimit limit, .timeout limit) else none
  passes.or (size.or time)

end Budget

end PartialHorn
