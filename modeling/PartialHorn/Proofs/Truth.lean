import PartialHorn.Structure
import PartialHorn.Proofs.OperationRows
import PartialHorn.Proofs.PredicateLog

namespace PartialHorn

namespace Structure

/-- Two elements of one class. -/
def Equal (s : Structure) (x y : Nat) : Prop :=
  s.equality.Same x y

/-- The table of an operation has a row. -/
def HasRow (s : Structure) (op : Nat) (row : Row) : Prop :=
  ∃ table, s.operations[op]? = some table ∧ row ∈ table.rows

/-- The extent of a predicate has a tuple. -/
def HasTuple (s : Structure) (pred : Nat) (tuple : List Nat) : Prop :=
  ∃ table, s.predicates[pred]? = some table ∧ tuple ∈ table.rows

theorem hasRow_iff {s : Structure} {op : Nat} {table : OperationTable} {row : Row}
    (h : s.operations[op]? = some table) : s.HasRow op row ↔ row ∈ table.rows := by
  simp [HasRow, h]

theorem hasTuple_iff_mem {s : Structure} {pred : Nat} {table : PredicateTable} {tuple : List Nat}
    (h : s.predicates[pred]? = some table) : s.HasTuple pred tuple ↔ tuple ∈ table.rows := by
  simp [HasTuple, h]

/-- An operation is defined at some elements with a value, all of them up to equality. -/
def Applies (s : Structure) (op : Nat) (args : List Nat) (x : Nat) : Prop :=
  ∃ row, s.HasRow op row ∧ List.Forall₂ s.Equal args row.args ∧ s.Equal x row.result

/-- A predicate holds of some elements, all of them up to equality. -/
def Relates (s : Structure) (pred : Nat) (args : List Nat) : Prop :=
  ∃ tuple, s.HasTuple pred tuple ∧ List.Forall₂ s.Equal args tuple

/-- Elements have the given sorts, one by one. -/
def Typed (s : Structure) (xs sorts : List Nat) : Prop :=
  List.Forall₂ (fun x sort => s.sorts[x]? = some sort) xs sorts

theorem Equal.symm {s : Structure} {x y : Nat} (h : s.Equal x y) : s.Equal y x :=
  Equality.Same.symm h

theorem Equal.trans {s : Structure} {x y z : Nat} (h : s.Equal x y) (h' : s.Equal y z) :
    s.Equal x z :=
  Equality.Same.trans h h'

theorem equal_all_symm {s : Structure} {xs ys : List Nat} (h : List.Forall₂ s.Equal xs ys) :
    List.Forall₂ s.Equal ys xs :=
  forall₂_swap (fun _ _ => Equal.symm) h

theorem equal_all_trans {s : Structure} {xs ys zs : List Nat} (h : List.Forall₂ s.Equal xs ys)
    (h' : List.Forall₂ s.Equal ys zs) : List.Forall₂ s.Equal xs zs := by
  have step : ∀ x y z, s.Equal x y → s.Equal y z → s.Equal x z := fun _ _ _ => Equal.trans
  exact forall₂_trans step h h'

/-- Truth does not depend on the choice of members of the classes. -/
theorem Applies.congr {s : Structure} {op x y : Nat} {xs ys : List Nat} (h : s.Applies op xs x)
    (hargs : List.Forall₂ s.Equal xs ys) (hx : s.Equal x y) : s.Applies op ys y := by
  obtain ⟨row, hrow, hr, hv⟩ := h
  exact ⟨row, hrow, equal_all_trans (equal_all_symm hargs) hr, hx.symm.trans hv⟩

theorem Relates.congr {s : Structure} {pred : Nat} {xs ys : List Nat} (h : s.Relates pred xs)
    (hargs : List.Forall₂ s.Equal xs ys) : s.Relates pred ys := by
  obtain ⟨tuple, htuple, hr⟩ := h
  exact ⟨tuple, htuple, equal_all_trans (equal_all_symm hargs) hr⟩

theorem hasTuple_iff {s : Structure} {pred : Nat} {tuple : List Nat} :
    s.hasTuple pred tuple = true ↔ s.HasTuple pred tuple := by
  unfold hasTuple HasTuple
  cases s.predicates[pred]? with
  | none => simp
  | some table => simp [PredicateTable.contains_iff]

theorem hasRow_of_result? {s : Structure} {op x : Nat} {args : List Nat}
    (h : s.result? op args = some x) : s.HasRow op ⟨args, x⟩ := by
  obtain ⟨table, ht, hg⟩ := Option.bind_eq_some_iff.mp h
  exact ⟨table, ht, OperationTable.mem_of_get? hg⟩

theorem result?_eq_none {s : Structure} {op x : Nat} {args : List Nat}
    (h : s.result? op args = none) : ¬s.HasRow op ⟨args, x⟩ := by
  rintro ⟨table, ht, hrow⟩
  rw [result?, ht, Option.bind_some] at h
  exact OperationTable.get?_eq_none_iff.mp h _ hrow rfl

end Structure

end PartialHorn
