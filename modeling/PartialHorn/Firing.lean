import PartialHorn.Facts

namespace PartialHorn

namespace Rule

/-- The value of a variable, which the head of a rule expects to be bound. -/
def value (rule : Rule) (binding : Binding) (var : Nat) : Except ContractError Nat :=
  match binding.value var with
  | some x => .ok x
  | none => .error (.internal s!"rule `{rule.name}` fired with variable #{var} unbound")

def values (rule : Rule) (binding : Binding) (vars : List Nat) :
    Except ContractError (List Nat) :=
  vars.mapM (rule.value binding)

end Rule

namespace Action

variable {σ E : Type} [Partition E] [Machine σ E]

/-- Rebuilds, then answers the bindings that satisfy the plan of a rule. -/
def solve (rule : Rule) : Action σ ContractError (List Binding) := do
  let _ ← Machine.rebuild
  Machine.search rule

/-- Merges two elements on behalf of a rule and reports it if they were different. -/
def mergeFor (rule : Rule) (x y : Nat) : Action σ ContractError Unit := do
  let merged ← merge x y
  if merged then report (.ruleMerged rule.name x y)

/-- Makes one conclusion true under a binding. The result of an operation is merged with the value
of its variable or, if the variable has none, becomes its value. -/
def conclude (rule : Rule) (binding : Binding) : Atom → Action σ ContractError Binding
  | .op op args result => do
    let args ← ofExcept (rule.values binding args)
    let x ← define op args
    match binding.value result with
    | some existing =>
      mergeFor rule existing x
      return binding
    | none => return binding.assign result x
  | .pred pred args => do
    let args ← ofExcept (rule.values binding args)
    let _ ← assert pred args
    return binding
  | .eq lhs rhs => do
    let x ← ofExcept (rule.value binding lhs)
    let y ← ofExcept (rule.value binding rhs)
    mergeFor rule x y
    return binding

/-- Makes conclusions true in order, handing the values they introduce on to later ones. -/
def concludeAll (rule : Rule) : List Atom → Binding → Action σ ContractError Unit
  | [], _ => give ()
  | atom :: atoms, binding => do
    let larger ← conclude rule binding atom
    concludeAll rule atoms larger

def fire (rule : Rule) (binding : Binding) : Action σ ContractError Unit :=
  concludeAll rule rule.head binding

end Action

end PartialHorn
