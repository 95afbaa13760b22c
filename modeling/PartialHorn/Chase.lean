import PartialHorn.Budget
import PartialHorn.Firing

namespace PartialHorn

/-- The counters that a finished run of the chase reports. -/
structure ChaseReport where
  iterations : Nat
  firings : Nat
  skipped : Nat
  elementsCreated : Nat
  merges : Nat
deriving DecidableEq

/-- What the matches of a rule depend on: the merges so far, then the generations of the tables
and the sizes of the carriers that its plan looks at. -/
abbrev Readings := List Nat

structure Turn where
  readings : Readings
  firings : Nat
  skipped : Bool
deriving DecidableEq

structure Pass where
  changed : Bool
  turns : List Turn
deriving DecidableEq

/-- How far a run has come: its counters, and the readings with which each rule last ran. -/
structure Progress where
  iterations : Nat := 0
  firings : Nat := 0
  skipped : Nat := 0
  seen : List (Option Readings)
deriving DecidableEq

namespace Rule

/-- The readings of a rule, without those of symbols and sorts that the signature lacks. -/
def readings {E : Type} [Partition E] (rule : Rule) (s : Structure E) : Readings :=
  Partition.merges s.equality ::
    (rule.operationsRead.filterMap (s.operations[·]?)).map OperationTable.generation ++
    (rule.predicatesRead.filterMap (s.predicates[·]?)).map PredicateTable.generation ++
    (rule.sortsScanned.filterMap s.carrier?).map List.length

end Rule

namespace Structure

/-- Three counts by which a pass tells whether it changed the structure. -/
def footprint {E : Type} [Partition E] (s : Structure E) : Nat × Nat × Nat :=
  (s.size, Partition.merges s.equality, s.rowCount)

end Structure

namespace Pass

def firings (pass : Pass) : Nat :=
  total Turn.firings pass.turns

def skipped (pass : Pass) : Nat :=
  pass.turns.countP Turn.skipped

end Pass

namespace Progress

def initial (rules : List Rule) : Progress where
  seen := List.replicate rules.length none

def advance (progress : Progress) (pass : Pass) : Progress where
  iterations := progress.iterations + 1
  firings := progress.firings + pass.firings
  skipped := progress.skipped + pass.skipped
  seen := pass.turns.map fun turn => some turn.readings

end Progress

namespace Action

variable {σ E : Type} [Partition E] [Machine σ E]

/-- Lets a rule fire for all its matches, unless its readings are those with which it last ran. -/
def turn (rule : Rule) (last : Option Readings) : Action σ ContractError Turn := do
  let _ ← Machine.rebuild
  let s ← current
  let readings := rule.readings s
  if last = some readings then
    return { readings, firings := 0, skipped := true }
  else
    let found ← solve rule
    report (.ruleMatches rule.name found.length)
    each (fire rule) found
    return { readings, firings := found.length, skipped := false }

def turns : List Rule → List (Option Readings) → Action σ ContractError (List Turn)
  | rule :: rules, last :: lasts => do
    let first ← turn rule last
    let others ← turns rules lasts
    return first :: others
  | _, _ => return []

/-- One pass over the rules, given the readings with which each of them last ran. -/
def pass (rules : List Rule) (seen : List (Option Readings)) : Action σ ContractError Pass := do
  let before ← current
  let _ ← Machine.rebuild
  let turns ← turns rules seen
  let _ ← Machine.rebuild
  let after ← current
  return { changed := decide (after.footprint ≠ before.footprint), turns }

/-- One pass in which no rule is skipped, answering whether the structure changed. -/
def chaseOnce (rules : List Rule) : Action σ ClosureError Bool := do
  let pass ← mapError .structure (pass rules (Progress.initial rules).seen)
  return pass.changed

/-- Makes passes until one changes nothing or the budget is exceeded. There is no answer if the
allowed number of passes is over before that. -/
def saturateFrom (rules : List Rule) (budget : Budget) (clock : Clock) :
    Nat → Progress → Action σ ClosureError (Option Progress)
  | 0, _ => return none
  | passes + 1, progress => do
    let pass ← mapError .structure (pass rules progress.seen)
    let progress := progress.advance pass
    let s ← current
    report (.passDone progress.iterations s.size s.classCount s.rowCount)
    if pass.changed then
      match budget.exceeded? progress.iterations s.size (clock progress.iterations) with
      | some (event, error) =>
        report event
        fail error
      | none => saturateFrom rules budget clock passes progress
    else return some progress

/-- Closes the structure under the rules, within a budget and an allowed number of passes. -/
def saturate (rules : List Rule) (budget : Budget) (clock : Clock) (passes : Nat) :
    Action σ ClosureError (Option ChaseReport) := do
  let before ← current
  let progress ← saturateFrom rules budget clock passes (Progress.initial rules)
  let after ← current
  return progress.map fun progress =>
    { iterations := progress.iterations
      firings := progress.firings
      skipped := progress.skipped
      elementsCreated := after.size - before.size
      merges := Partition.merges after.equality - Partition.merges before.equality }

end Action

end PartialHorn
