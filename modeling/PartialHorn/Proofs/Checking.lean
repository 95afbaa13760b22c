import PartialHorn.Consistency
import PartialHorn.Proofs.Validity

namespace PartialHorn

namespace Violation

/-- The part of the check that reports a violation, counted from the first one. -/
def stage : Violation → Nat
  | equalitySize _ _ => 0
  | carrierTotal _ _ => 1
  | missingFromCarrier _ _ => 2
  | wrongArity _ | illSortedRow _ _ | staleRow _ _ _ => 3
  | illSortedTuple _ _ | staleTuple _ _ _ => 4

end Violation

namespace Structure

variable {s : Structure}

/-- What a structure does against its invariants. The rows of a table count only where the table has
the arity of its operation, and stale cells only where the row is well-sorted and no merges wait. -/
inductive Violates (s : Structure) : Violation → Prop
  | equalitySize (h : s.equality.size ≠ s.size) : s.Violates (.equalitySize s.size s.equality.size)
  | carrierTotal (h : total List.length s.carriers ≠ s.size) :
      s.Violates (.carrierTotal (total List.length s.carriers) s.size)
  | missingFromCarrier {x sort : Nat} (hsort : s.sorts[x]? = some sort) (h : x ∉ s.carrier sort) :
      s.Violates (.missingFromCarrier x sort)
  | wrongArity {op : Nat} {operation : Operation} {table : OperationTable}
      (hop : s.signature.operations[op]? = some operation) (ht : s.operations[op]? = some table)
      (h : table.arity ≠ operation.domain.length) : s.Violates (.wrongArity operation.name)
  | illSortedRow {op : Nat} {operation : Operation} {table : OperationTable} {row : Row}
      (hop : s.signature.operations[op]? = some operation) (ht : s.operations[op]? = some table)
      (arity : table.arity = operation.domain.length) (hrow : row ∈ table.rows)
      (h : ¬s.Typed row.cells (operation.domain ++ [operation.codomain])) :
      s.Violates (.illSortedRow operation.name row.cells)
  | staleRow {op : Nat} {operation : Operation} {table : OperationTable} {row : Row} {x : Nat}
      (hop : s.signature.operations[op]? = some operation) (ht : s.operations[op]? = some table)
      (arity : table.arity = operation.domain.length) (hrow : row ∈ table.rows)
      (typed : s.Typed row.cells (operation.domain ++ [operation.codomain]))
      (clean : s.dirty = false) (hx : x ∈ row.cells) (h : s.equality.find x ≠ .ok x) :
      s.Violates (.staleRow operation.name row.cells x)
  | illSortedTuple {pred : Nat} {predicate : Predicate} {table : PredicateTable} {tuple : List Nat}
      (hpred : s.signature.predicates[pred]? = some predicate)
      (ht : s.predicates[pred]? = some table) (htuple : tuple ∈ table.rows)
      (h : ¬s.Typed tuple predicate.domain) : s.Violates (.illSortedTuple predicate.name tuple)
  | staleTuple {pred : Nat} {predicate : Predicate} {table : PredicateTable} {tuple : List Nat}
      {x : Nat} (hpred : s.signature.predicates[pred]? = some predicate)
      (ht : s.predicates[pred]? = some table) (htuple : tuple ∈ table.rows)
      (typed : s.Typed tuple predicate.domain) (clean : s.dirty = false) (hx : x ∈ tuple)
      (h : s.equality.find x ≠ .ok x) : s.Violates (.staleTuple predicate.name tuple x)

theorem sortedAs_iff {domain cells : List Nat} : s.sortedAs domain cells = true ↔ s.Typed cells domain := by
  rw [sortedAs, beq_iff_eq, Typed, ← List.forall₂_eq_eq_eq, List.forall₂_map_left_iff,
    List.forall₂_map_right_iff]

theorem mem_staleCells {cells : List Nat} {x : Nat} :
    x ∈ s.staleCells cells ↔ s.dirty = false ∧ x ∈ cells ∧ s.equality.find x ≠ .ok x := by
  unfold staleCells
  split
  next hdirty => simp [hdirty]
  next hclean =>
    simp only [List.mem_filter, Bool.not_eq_true', ← Bool.not_eq_true, ne_eq,
      Equality.isRepresentative_iff, Equality.find_eq_ok_iff, hclean, true_and]

theorem mem_rowViolations {operation : Operation} {row : Row} {v : Violation} :
    v ∈ s.rowViolations operation row ↔
      ¬s.Typed row.cells (operation.domain ++ [operation.codomain]) ∧
          v = .illSortedRow operation.name row.cells ∨
        s.Typed row.cells (operation.domain ++ [operation.codomain]) ∧
          ∃ x ∈ s.staleCells row.cells, v = .staleRow operation.name row.cells x := by
  unfold rowViolations
  split
  next h =>
    rw [sortedAs_iff] at h
    simp [h, eq_comm]
  next h =>
    rw [sortedAs_iff] at h
    simp [h]

theorem mem_tupleViolations {predicate : Predicate} {tuple : List Nat} {v : Violation} :
    v ∈ s.tupleViolations predicate tuple ↔
      ¬s.Typed tuple predicate.domain ∧ v = .illSortedTuple predicate.name tuple ∨
        s.Typed tuple predicate.domain ∧
          ∃ x ∈ s.staleCells tuple, v = .staleTuple predicate.name tuple x := by
  unfold tupleViolations
  split
  next h =>
    rw [sortedAs_iff] at h
    simp [h, eq_comm]
  next h =>
    rw [sortedAs_iff] at h
    simp [h]

theorem mem_carrierViolations {v : Violation} :
    v ∈ s.carrierViolations ↔ ∃ x sort, s.sorts[x]? = some sort ∧ x ∉ s.carrier sort ∧
      v = .missingFromCarrier x sort := by
  simp only [carrierViolations, List.mem_map, List.mem_filter, Prod.exists,
    List.mem_zipIdx_iff_getElem?, Bool.not_eq_true', List.contains_eq_mem, decide_eq_false_iff_not]
  constructor
  · rintro ⟨sort, x, ⟨hsort, h⟩, rfl⟩
    exact ⟨x, sort, hsort, h, rfl⟩
  · rintro ⟨x, sort, hsort, h, rfl⟩
    exact ⟨sort, x, ⟨hsort, h⟩, rfl⟩

theorem mem_tableViolations {operation : Operation} {table : OperationTable} {v : Violation} :
    v ∈ s.tableViolations operation table ↔
      table.arity ≠ operation.domain.length ∧ v = .wrongArity operation.name ∨
        table.arity = operation.domain.length ∧
          ∃ row ∈ table.rows, v ∈ s.rowViolations operation row := by
  unfold tableViolations
  split
  next h => simp [h]
  next h => simp [h]

theorem mem_zip_iff {α β : Type} {xs : List α} {ys : List β} {entry : α × β} :
    entry ∈ xs.zip ys ↔ ∃ i : Nat, xs[i]? = some entry.1 ∧ ys[i]? = some entry.2 := by
  simp only [List.mem_iff_getElem?, List.getElem?_zip_eq_some]

/-- The check collects exactly what a structure does against its invariants. -/
theorem mem_violations {v : Violation} : v ∈ s.violations ↔ s.Violates v := by
  simp only [violations, List.mem_append, List.mem_flatMap, mem_zip_iff]
  constructor
  · rintro ((((h | h) | h) | ⟨entry, ⟨op, hop, ht⟩, h⟩) | ⟨entry, ⟨pred, hpred, ht⟩, tuple, htuple, h⟩)
    · split at h
      next => exact absurd h (by simp)
      next hne => exact List.mem_singleton.mp h ▸ .equalitySize hne
    · split at h
      next => exact absurd h (by simp)
      next hne => exact List.mem_singleton.mp h ▸ .carrierTotal hne
    · obtain ⟨x, sort, hsort, hnot, rfl⟩ := mem_carrierViolations.mp h
      exact .missingFromCarrier hsort hnot
    · rcases mem_tableViolations.mp h with ⟨hne, rfl⟩ | ⟨arity, row, hrow, h⟩
      · exact .wrongArity hop ht hne
      · rcases mem_rowViolations.mp h with ⟨hnot, rfl⟩ | ⟨typed, x, hx, rfl⟩
        · exact .illSortedRow hop ht arity hrow hnot
        · obtain ⟨clean, hx, hne⟩ := mem_staleCells.mp hx
          exact .staleRow hop ht arity hrow typed clean hx hne
    · rcases mem_tupleViolations.mp h with ⟨hnot, rfl⟩ | ⟨typed, x, hx, rfl⟩
      · exact .illSortedTuple hpred ht htuple hnot
      · obtain ⟨clean, hx, hne⟩ := mem_staleCells.mp hx
        exact .staleTuple hpred ht htuple typed clean hx hne
  · intro h
    cases h with
    | equalitySize h => exact Or.inl (Or.inl (Or.inl (Or.inl (by simp [h]))))
    | carrierTotal h => exact Or.inl (Or.inl (Or.inl (Or.inr (by simp [h]))))
    | missingFromCarrier hsort h =>
      exact Or.inl (Or.inl (Or.inr (mem_carrierViolations.mpr ⟨_, _, hsort, h, rfl⟩)))
    | wrongArity hop ht h =>
      refine Or.inl (Or.inr ⟨(_, _), ⟨_, hop, ht⟩, mem_tableViolations.mpr (Or.inl ⟨h, rfl⟩)⟩)
    | illSortedRow hop ht arity hrow h =>
      refine Or.inl (Or.inr ⟨(_, _), ⟨_, hop, ht⟩, mem_tableViolations.mpr (Or.inr ⟨arity, _, hrow, ?_⟩)⟩)
      exact mem_rowViolations.mpr (Or.inl ⟨h, rfl⟩)
    | staleRow hop ht arity hrow typed clean hx h =>
      refine Or.inl (Or.inr ⟨(_, _), ⟨_, hop, ht⟩, mem_tableViolations.mpr (Or.inr ⟨arity, _, hrow, ?_⟩)⟩)
      exact mem_rowViolations.mpr (Or.inr ⟨typed, _, mem_staleCells.mpr ⟨clean, hx, h⟩, rfl⟩)
    | illSortedTuple hpred ht htuple h =>
      refine Or.inr ⟨(_, _), ⟨_, hpred, ht⟩, _, htuple, ?_⟩
      exact mem_tupleViolations.mpr (Or.inl ⟨h, rfl⟩)
    | staleTuple hpred ht htuple typed clean hx h =>
      refine Or.inr ⟨(_, _), ⟨_, hpred, ht⟩, _, htuple, ?_⟩
      exact mem_tupleViolations.mpr (Or.inr ⟨typed, _, mem_staleCells.mpr ⟨clean, hx, h⟩, rfl⟩)

theorem violation?_eq_none_iff : s.violation? = none ↔ ∀ v, ¬s.Violates v := by
  rw [violation?, List.head?_eq_none_iff, List.eq_nil_iff_forall_not_mem]
  exact forall_congr' fun v => not_congr mem_violations

/-- Reports of one stage behind reports of earlier ones leave the stages in order. -/
theorem stages_append {xs ys : List Violation} {most k : Nat}
    (hxs : xs.Pairwise (fun v w => v.stage ≤ w.stage) ∧ ∀ v ∈ xs, v.stage ≤ most)
    (hle : most ≤ k) (hys : ∀ v ∈ ys, v.stage = k) :
    (xs ++ ys).Pairwise (fun v w => v.stage ≤ w.stage) ∧ ∀ v ∈ xs ++ ys, v.stage ≤ k := by
  refine ⟨List.pairwise_append.mpr ⟨hxs.1, ?_, fun v hv w hw => ?_⟩, fun v hv => ?_⟩
  · exact List.pairwise_of_forall_mem_list fun v hv w hw => Nat.le_of_eq ((hys v hv).trans (hys w hw).symm)
  · rw [hys w hw]
    exact Nat.le_trans (hxs.2 v hv) hle
  · rcases List.mem_append.mp hv with hv | hv
    · exact Nat.le_trans (hxs.2 v hv) hle
    · exact Nat.le_of_eq (hys v hv)

theorem violations_ordered : s.violations.Pairwise fun v w => v.stage ≤ w.stage := by
  refine (stages_append (k := 4) (stages_append (k := 3) (stages_append (k := 2)
    (stages_append (k := 1) ?size (Nat.zero_le 1) ?held) (by omega) ?carriers)
    (by omega) ?rows) (by omega) ?tuples).1
  case size => split <;> simp [Violation.stage]
  case held => split <;> simp [Violation.stage]
  case carriers =>
    intro v hv
    obtain ⟨x, sort, _, _, rfl⟩ := mem_carrierViolations.mp hv
    rfl
  case rows =>
    intro v hv
    obtain ⟨entry, _, hv⟩ := List.mem_flatMap.mp hv
    rcases mem_tableViolations.mp hv with ⟨_, rfl⟩ | ⟨_, row, _, hv⟩
    · rfl
    · rcases mem_rowViolations.mp hv with ⟨_, rfl⟩ | ⟨_, x, _, rfl⟩ <;> rfl
  case tuples =>
    intro v hv
    obtain ⟨entry, _, hv⟩ := List.mem_flatMap.mp hv
    obtain ⟨tuple, _, hv⟩ := List.mem_flatMap.mp hv
    rcases mem_tupleViolations.mp hv with ⟨_, rfl⟩ | ⟨_, x, _, rfl⟩ <;> rfl

/-- The check reports something that is wrong, and nothing is wrong that it looks at before. -/
theorem violation?_eq_some {v : Violation} (h : s.violation? = some v) :
    s.Violates v ∧ ∀ w, s.Violates w → v.stage ≤ w.stage := by
  obtain ⟨rest, hrest⟩ := List.head?_eq_some_iff.mp h
  have hordered := hrest ▸ s.violations_ordered
  refine ⟨mem_violations.mp (hrest ▸ List.mem_cons_self), fun w hw => ?_⟩
  rcases List.mem_cons.mp (hrest ▸ mem_violations.mpr hw) with rfl | hmem
  · exact Nat.le_refl _
  · exact List.rel_of_pairwise_cons hordered hmem

end Structure

end PartialHorn
