import PartialHorn.Action
import PartialHorn.Structure

namespace PartialHorn

-- Whoever keeps the partition finds the representative of an element in a way of its own, and may
-- rearrange things when it does. Tables are therefore made canonical by any `find`.

namespace OperationTable

section

variable {m : Type → Type} [Monad m] (find : Nat → m Nat)

def canonicalRow (row : Row) : m Row := do
  let args ← row.args.mapM find
  let result ← find row.result
  return ⟨args, result⟩

/-- The rows that are not canonical, each paired with its canonical form. -/
def staleRows (rows : List Row) : m (List (Row × Row)) := do
  let canonical ← rows.mapM (canonicalRow find)
  return (rows.zip canonical).filter fun pair => decide (pair.1 ≠ pair.2)

end

/-- Removes the rows that have the arguments of some given rows. -/
def removeAll (table : OperationTable) (rows : List Row) : OperationTable :=
  rows.foldl (fun table row => (table.remove row.args).2) table

/-- Inserts rows in turn. A row that finds another result for its arguments is dropped in favour
of an equation between the two results. -/
def insertAll (op : Nat) (table : OperationTable) :
    List Row → OperationTable × List Equation
  | [] => (table, [])
  | row :: rows =>
    match table.insert row with
    | (none, larger) => insertAll op larger rows
    | (some existing, same) =>
      let rest := insertAll op same rows
      if existing = row.result then rest
      else (rest.1, ⟨existing, row.result, op⟩ :: rest.2)

/-- Puts canonical forms in the place of stale rows. Every stale row is removed before the first
canonical one comes in, so none of these is lost to the removal of a row with its arguments. -/
def replaceRows (op : Nat) (table : OperationTable) (stale : List (Row × Row)) :
    OperationTable × List Equation :=
  insertAll op (table.removeAll (stale.map Prod.fst)) (stale.map Prod.snd)

section

variable {m : Type → Type} [Monad m] (find : Nat → m Nat)

/-- Makes the rows canonical, with equations for the results that collide. -/
def refresh (table : OperationTable) (op : Nat) : m (OperationTable × List Equation) := do
  let stale ← staleRows find table.rows
  return replaceRows op table stale

/-- Makes the rows canonical in the tables of the operations from a position on. -/
def refreshFrom (op : Nat) : List OperationTable → m (List OperationTable × List Equation)
  | [] => return ([], [])
  | table :: tables => do
    let one ← table.refresh find op
    let rest ← refreshFrom (op + 1) tables
    return (one.1 :: rest.1, one.2 ++ rest.2)

end

end OperationTable

namespace PredicateTable

def removeAll (table : PredicateTable) (tuples : List (List Nat)) : PredicateTable :=
  tuples.foldl (fun table tuple => (table.remove tuple).2) table

def insertAll (table : PredicateTable) (tuples : List (List Nat)) : PredicateTable :=
  tuples.foldl (fun table tuple => (table.insert tuple).2) table

section

variable {m : Type → Type} [Monad m] (find : Nat → m Nat)

def staleTuples (tuples : List (List Nat)) : m (List (List Nat × List Nat)) := do
  let canonical ← tuples.mapM fun tuple => tuple.mapM find
  return (tuples.zip canonical).filter fun pair => decide (pair.1 ≠ pair.2)

/-- Makes the tuples of the extent canonical, all removals first. -/
def refresh (table : PredicateTable) : m PredicateTable := do
  let stale ← staleTuples find table.rows
  return (table.removeAll (stale.map Prod.fst)).insertAll (stale.map Prod.snd)

end

end PredicateTable

/-- Repeats rounds as long as there is something left to do, up to a number of them, and adds up the
merges that they answer. -/
def repeated {m : Type → Type} [Monad m] {τ : Type} (unfinished : τ → Bool)
    (round : τ → m (Nat × τ)) : Nat → τ → m (Nat × τ)
  | 0, t => return (0, t)
  | most + 1, t =>
    if unfinished t then do
      let (merges, next) ← round t
      let (more, last) ← repeated unfinished round most next
      return (merges + more, last)
    else return (0, t)

section

variable {m : Type → Type} [Monad m] {τ : Type} {unfinished : τ → Bool} {round : τ → m (Nat × τ)}
  {t : τ}

theorem repeated_finished (h : unfinished t = false) (most : Nat) :
    repeated unfinished round most t = pure (0, t) := by
  cases most with
  | zero => rfl
  | succ most => simp [repeated, h]

theorem repeated_unfinished (h : unfinished t = true) (most : Nat) :
    repeated unfinished round (most + 1) t = (do
      let (merges, next) ← round t
      let (more, last) ← repeated unfinished round most next
      return (merges + more, last)) := by
  simp only [repeated, if_pos h]

end

namespace Structure

/-- Makes every table canonical by a way to find representatives, then settles the equations between
the results that collided. Answers the number of merges; the structure stays dirty if there was one. -/
def roundBy {E : Type} {m : Type → Type} [Monad m] (find : Nat → m Nat)
    (settle : List Equation → m (Nat × E)) (s : Structure E) : m (Nat × Structure E) := do
  let (operations, equations) ← OperationTable.refreshFrom find 0 s.operations
  let predicates ← s.predicates.mapM (·.refresh find)
  let (merges, equality) ← settle equations
  return (merges, { s with equality, operations, predicates, dirty := decide (0 < merges) })

/-- A round for the present partition. An element that is not there ends it without a new structure;
the rows of a structure that came about by calls name none. -/
def round (s : Structure) : Except ContractError (Nat × Structure) :=
  s.roundBy s.equality.find s.equality.settle

def rounds (most : Nat) (s : Structure) : Except ContractError (Nat × Structure) :=
  repeated dirty round most s

/-- The structure with canonical tables again, and the number of merges that this took. A round
that leaves the structure dirty has made two classes into one, so one round more than there are
classes always suffices. -/
def rebuilt (s : Structure) : Except ContractError (Nat × Structure) :=
  s.rounds (s.classCount + 1)

end Structure

namespace Action

/-- Brings the merges of a dirty structure into its tables and merges what follows by congruence. A
rebuild that fails leaves the structure as it was. -/
def rebuild : Action Structure ContractError Nat :=
  fun s =>
    match s.rebuilt with
    | .error e => { answer := .error e, after := s }
    | .ok (merges, next) =>
      { answer := .ok merges
        after := next
        events := if 0 < merges then [.congruences merges] else [] }

end Action

end PartialHorn
