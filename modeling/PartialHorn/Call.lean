import PartialHorn.Theory

namespace PartialHorn

/-- A call by which a host works on a structure. -/
inductive Call
  | add (sort : Nat)
  | define (op : Nat) (args : List Nat)
  | lookup (op : Nat) (args : List Nat)
  | assert (pred : Nat) (args : List Nat)
  | holds (pred : Nat) (args : List Nat)
  | merge (x y : Nat)
  | areEqual (x y : Nat)
  | find (x : Nat)
  | sortOf (x : Nat)
  | rebuild
  | classes
  | solve (rule : Rule)
  | chaseOnce (rules : List Rule)
  | chase (rules : List Rule) (budget : Budget) (clock : Clock) (passes : Nat)

inductive Answer
  | number (n : Nat)
  | maybeNumber (n : Option Nat)
  | flag (b : Bool)
  | partition (classes : List (List Nat))
  | bindings (found : List Binding)
  | stats (stats : Option ChaseReport)
deriving DecidableEq

/-- Why a call fails: the structure refuses it, or the chase comes to no end. -/
inductive Failure
  | structure (error : ContractError)
  | chase (error : ClosureError)
deriving DecidableEq

section

variable {σ E : Type}

namespace Action

/-- An action on a structure as a call, with its answer wrapped up. -/
def asked {α : Type} (wrap : α → Answer) (action : Action σ ContractError α) :
    Action σ Failure Answer := do
  let answer ← mapError .structure action
  return wrap answer

/-- A run of the chase as a call, with its answer wrapped up. -/
def chased {α : Type} (wrap : α → Answer) (action : Action σ ClosureError α) :
    Action σ Failure Answer := do
  let answer ← mapError .chase action
  return wrap answer

end Action

namespace Call

variable [Partition E] [Machine σ E]

def perform : Call → Action σ Failure Answer
  | add sort => .asked .number (.add sort)
  | define op args => .asked .number (.define op args)
  | lookup op args => .asked .maybeNumber (.lookup op args)
  | assert pred args => .asked .flag (.assert pred args)
  | holds pred args => .asked .flag (.holds pred args)
  | merge x y => .asked .flag (.merge x y)
  | areEqual x y => .asked .flag (Machine.areEqual x y)
  | find x => .asked .number (Machine.find x)
  | sortOf x => .asked .number (.sortOf x)
  | rebuild => .asked .number Machine.rebuild
  | classes => .asked .partition Machine.classes
  | solve rule => .asked .bindings (.solve rule)
  | chaseOnce rules => .chased .flag (.chaseOnce rules)
  | chase rules budget clock passes => .chased .stats (.saturate rules budget clock passes)

end Call

end

namespace Structure

/-- The structure that a sequence of calls leaves, whether they fail or not. -/
def afterCalls (s : Structure) (calls : List Call) : Structure :=
  calls.foldl (fun s call => (call.perform s).after) s

end Structure

end PartialHorn
