import PartialHorn.Join

namespace PartialHorn

/-- A state that holds a structure, as calls on the structure see it. It keeps the partition in some
way, on which the lookups and merges depend, and it decides in which order the rows of operations
come up in a rebuild and in a search. -/
class Machine (σ : Type) (E : outParam Type) where
  held : σ → Structure E
  hold : Structure E → σ → σ
  find : Nat → Action σ ContractError Nat
  findAll : List Nat → Action σ ContractError (List Nat)
  areEqual : Nat → Nat → Action σ ContractError Bool
  join : Nat → Nat → Action σ ContractError Bool
  classes : Action σ ContractError (List (List Nat))
  rebuild : Action σ ContractError Nat
  search : Rule → Action σ ContractError (List Binding)

namespace Action

section

variable {σ E ε : Type} [Machine σ E]

def current : Action σ ε (Structure E) :=
  ask fun s => .ok (Machine.held s)

def update (change : Structure E → Structure E) : Action σ ε Unit :=
  fun s => { answer := .ok (), after := Machine.hold (change (Machine.held s)) s }

end

def find (x : Nat) : Action Structure ContractError Nat :=
  ask fun s => s.equality.find x

def areEqual (x y : Nat) : Action Structure ContractError Bool :=
  ask fun s => s.equality.areEqual x y

/-- Merges the classes of two elements, which the tables follow at the next rebuild. -/
def join (x y : Nat) : Action Structure ContractError Bool :=
  fun s =>
    match s.equality.merge x y with
    | .error e => { answer := .error e, after := s }
    | .ok (merged, equality) => { answer := .ok merged, after := { s with equality } }

def classes : Action Structure ContractError (List (List Nat)) :=
  ask fun s => .ok s.equality.classes

/-- Answers the bindings that satisfy the plan of a rule. -/
def search (rule : Rule) : Action Structure ContractError (List Binding) :=
  ask fun s => do
    let domains ← s.scan rule
    return s.bindings domains rule

end Action

/-- A structure carries calls out by itself and goes through the rows as its tables list them. -/
instance Structure.instMachine : Machine Structure Equality where
  held s := s
  hold s _ := s
  find := Action.find
  findAll xs := Action.ask fun s => s.equality.findAll xs
  areEqual := Action.areEqual
  join := Action.join
  classes := Action.classes
  rebuild := Action.rebuild
  search := Action.search

end PartialHorn
