import PartialHorn.OperationTable
import PartialHorn.Sequent

namespace PartialHorn

/-- Values for the variables of a rule, by position; a missing value means unbound. -/
abbrev Binding := List (Option Nat)

/-- An unbound variable comes before every value. -/
instance decidableLTValue : DecidableLT (Option Nat) := fun a b =>
  inferInstanceAs (Decidable (Option.lt (fun x y : Nat => x < y) a b))

namespace Binding

def value (binding : Binding) (var : Nat) : Option Nat :=
  (binding[var]?).getD none

def values? (binding : Binding) (vars : List Nat) : Option (List Nat) :=
  vars.mapM binding.value

def assign (binding : Binding) (var x : Nat) : Binding :=
  List.set binding var (some x)

/-- Binds variables to values position by position, up to the shorter list. There is no result if
a variable is bound to another value already. -/
def unify? (binding : Binding) : List Nat → List Nat → Option Binding
  | var :: vars, x :: xs =>
    match binding.value var with
    | some y => if y = x then binding.unify? vars xs else none
    | none => (binding.assign var x).unify? vars xs
  | _, _ => some binding

/-- The ways to extend a binding by a row whose arguments and result are matched with variables. -/
def alongRows (binding : Binding) (args : List Nat) (result : Nat) (rows : List Row) :
    List Binding :=
  rows.filterMap fun row =>
    (binding.unify? args row.args).bind fun larger => larger.unify? [result] [row.result]

end Binding

end PartialHorn
