import PartialHorn.Binding
import PartialHorn.Rebuild
import PartialHorn.Rule

namespace PartialHorn

/-- The elements over which each sort is scanned. -/
abbrev Domains := List (Nat × List Nat)

namespace Domains

def elements (domains : Domains) (sort : Nat) : List Nat :=
  (domains.lookup sort).getD []

end Domains

namespace Structure

variable {E : Type}

/-- The ways to extend a binding by one step of a plan. A step whose arguments are all bound looks
up exactly these arguments; otherwise it goes through the rows of its table. -/
def extensions (s : Structure E) (domains : Domains) (binding : Binding) : Step → List Binding
  | .op op args result =>
    match s.operations[op]? with
    | none => []
    | some table =>
      match binding.values? args with
      | some key =>
        ((table.get? key).bind fun x => binding.unify? [result] [x]).toList
      | none => binding.alongRows args result table.rows
  | .pred pred args =>
    match s.predicates[pred]? with
    | none => []
    | some table =>
      match binding.values? args with
      | some tuple => if table.contains tuple then [binding] else []
      | none => table.rows.filterMap (binding.unify? args)
  | .scan var sort =>
    match binding.value var with
    | some _ => [binding]
    | none => (domains.elements sort).map (binding.assign var)
  | .eq lhs rhs =>
    if (binding.value lhs).isSome ∧ binding.value lhs = binding.value rhs then [binding] else []

/-- All ways to extend a binding through a plan, step after step. -/
def extensionsAlong (s : Structure E) (domains : Domains) : List Step → Binding → List Binding
  | [], binding => [binding]
  | step :: steps, binding =>
    (s.extensions domains binding step).flatMap (s.extensionsAlong domains steps)

/-- Those of some elements that represent their classes, each of them looked up in turn. -/
def representativesBy {m : Type → Type} [Monad m] (find : Nat → m Nat) : List Nat → m (List Nat)
  | [] => return []
  | x :: xs => do
    let r ← find x
    let rest ← representativesBy find xs
    return if r = x then x :: rest else rest

/-- The representatives of each sort that a rule scans. -/
def scanBy {m : Type → Type} [Monad m] (find : Nat → m Nat) (s : Structure E) (rule : Rule) :
    m Domains :=
  rule.sortsScanned.mapM fun sort => do
    let representatives ← representativesBy find (s.carrier sort)
    return (sort, representatives)

def scan (s : Structure) (rule : Rule) : Except ContractError Domains :=
  s.scanBy s.equality.find rule

/-- The bindings that satisfy the plan of a rule over given domains, in strictly ascending order. -/
def bindings (s : Structure E) (domains : Domains) (rule : Rule) : List Binding :=
  ascending (s.extensionsAlong domains rule.plan (List.replicate rule.varCount none))

end Structure

end PartialHorn
