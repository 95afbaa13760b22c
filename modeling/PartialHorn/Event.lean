import PartialHorn.Duration

namespace PartialHorn

inductive Level
  | warn
  | debug
  | trace
deriving DecidableEq

/-- What a structure and its closure report while they work. Of the merges that follow by congruence
only the number is reported: which pairs are merged depends on the order of the rows in their tables. -/
inductive Event
  | congruences (merges : Nat)
  | ruleMatches (rule : String) (count : Nat)
  | ruleMerged (rule : String) (left right : Nat)
  | passDone (iteration elements classes rows : Nat)
  | fixpoint (iterations created merges : Nat)
  | notConverged (iterations : Nat)
  | elementLimit (limit : Nat)
  | timeLimit (limit : Nat)
deriving DecidableEq

namespace Level

def rank : Level → Nat
  | warn => 0
  | debug => 1
  | trace => 2

def name : Level → String
  | warn => "WARN"
  | debug => "DEBUG"
  | trace => "TRACE"

end Level

namespace Event

/-- The level of an event: warnings are for exhausted budgets. -/
def level : Event → Level
  | notConverged _ | elementLimit _ | timeLimit _ => .warn
  | congruences _ | passDone _ _ _ _ | fixpoint _ _ _ => .debug
  | ruleMatches _ _ | ruleMerged _ _ _ => .trace

def text : Event → String
  | congruences merges => s!"rebuild derived {merges} congruence merges"
  | ruleMatches rule count => s!"rule `{rule}`: {count} matches"
  | ruleMerged rule left right => s!"rule `{rule}`: merged {left} = {right}"
  | passDone iteration elements classes rows =>
    s!"chase iteration {iteration}: {elements} elements, {classes} classes, {rows} rows"
  | fixpoint iterations created merges =>
    s!"fixpoint after {iterations} iterations: {created} elements created, {merges} merges"
  | notConverged iterations => s!"chase did not converge after {iterations} iterations"
  | elementLimit limit => s!"chase exceeded {limit} elements"
  | timeLimit limit => s!"chase exceeded its time limit of {Duration.text limit}"

def line (event : Event) : String :=
  s!"{event.level.name} {event.text}"

def lines (most : Level) (events : List Event) : List String :=
  (events.filter fun event => decide (event.level.rank ≤ most.rank)).map line

end Event

end PartialHorn
