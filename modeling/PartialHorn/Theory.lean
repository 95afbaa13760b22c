import PartialHorn.Chase
import PartialHorn.Clause

namespace PartialHorn

/-- A signature with the sequents that its models have to satisfy. -/
structure Theory where
  signature : Signature
  sequents : List Sequent := []
deriving DecidableEq

/-- A structure under construction, with the rules and the budget by which it is closed. -/
structure Model where
  state : Structure
  rules : List Rule
  budget : Budget := {}
deriving DecidableEq

namespace Model

/-- The empty model of a theory, whose sequents are made into rules once. -/
def ofTheory (theory : Theory) : Except SequentError Model := do
  let rules ← Rule.ofSequents theory.signature theory.sequents
  return { state := .empty theory.signature, rules }

def withBudget (model : Model) (budget : Budget) : Model :=
  { model with budget }

/-- Closes a structure under the rules of a model and reports the result. -/
def saturate (model : Model) (clock : Clock) (passes : Nat) :
    Action Structure ClosureError (Option ChaseReport) := do
  let stats ← Action.saturate model.rules model.budget clock passes
  match stats with
  | some stats =>
    Action.report (.fixpoint stats.iterations stats.elementsCreated stats.merges)
    return some stats
  | none => return none

end Model

end PartialHorn
