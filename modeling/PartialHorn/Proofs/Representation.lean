import PartialHorn.Proofs.Checking
import PartialHorn.Proofs.Declarations
import PartialHorn.Proofs.Safety
import PartialHorn.Proofs.Tightening
import PartialHorn.Proofs.Matches
import Mathlib.Algebra.BigOperators.Group.Finset.Basic
import Mathlib.Algebra.GroupWithZero.Nat

namespace PartialHorn

theorem total_eq_sum {α : Type} (measure : α → Nat) (xs : List α) :
    total measure xs = (xs.map measure).sum := by
  induction xs with
  | nil => simp
  | cons x xs ih => simp [ih]

/-- Counted value by value, a list of small numbers has all its entries. -/
theorem total_count {xs : List Nat} {n : Nat} (h : ∀ x ∈ xs, x < n) :
    total (fun k => xs.count k) (List.range n) = xs.length := by
  have hsum := Multiset.sum_count_eq_card (s := Finset.range n) (m := (xs : Multiset Nat))
    (by simpa using h)
  simp only [Multiset.coe_count, Multiset.coe_card] at hsum
  rw [total_eq_sum, ← hsum]
  rfl

theorem positionsFrom_length {α : Type} (p : α → Bool) (start : Nat) (xs : List α) :
    (positionsFrom p start xs).length = xs.countP p := by
  induction xs generalizing start with
  | nil => rfl
  | cons x xs ih =>
    unfold positionsFrom
    split
    next hx => simp [ih, hx]
    next hx => simp [ih, hx]

namespace Structure

/-- A valid structure over a signature with declared sorts only, whose elements have such sorts. -/
structure Grounded (s : Structure) : Prop where
  valid : s.Valid
  closed : s.signature.Closed
  declared : ∀ sort ∈ s.sorts, sort < s.signature.sorts.length

section Grounded

variable {s t : Structure} (grounded : s.Grounded)

include grounded

theorem Grounded.of_sorts (valid : t.Valid) (signature : t.signature = s.signature)
    (sorts : t.sorts = s.sorts) : t.Grounded :=
  ⟨valid, signature ▸ grounded.closed, by rw [sorts, signature]; exact grounded.declared⟩

theorem Grounded.renewed : s.renewed.Grounded := by
  have renews := renews_renewed grounded.valid
  exact grounded.of_sorts (renewed_valid grounded.valid) renews.signature renews.sorts

theorem Grounded.extended {sort : Nat} (h : sort < s.signature.sorts.length) :
    (s.extended sort).Grounded := by
  refine ⟨extended_valid sort grounded.valid, grounded.closed, fun other hmem => ?_⟩
  rcases List.mem_append.mp hmem with hmem | hmem
  · exact grounded.declared other hmem
  · exact List.mem_singleton.mp hmem ▸ h

theorem Grounded.codomain {op : Nat} {operation : Operation}
    (h : s.signature.operations[op]? = some operation) :
    operation.codomain < s.signature.sorts.length :=
  grounded.closed.operations operation (List.mem_of_getElem? h) _ (by simp)

end Grounded

end Structure

namespace Action

open Structure

theorem Refuses.grounded {ε α : Type} {action : Action Structure ε α} {s : Structure}
    (h : action.Refuses s) (grounded : s.Grounded) : (action s).after.Grounded := by
  rwa [h.2]

theorem Returns.grounded {ε α : Type} {action : Action Structure ε α} {s t : Structure} {a : α}
    (h : action.Returns s a t) (grounded : t.Grounded) : (action s).after.Grounded := by
  rwa [h.2]

theorem add_grounded {s : Structure} (grounded : s.Grounded) (sort : Nat) :
    (add sort s).after.Grounded := by
  rcases add_cases grounded.valid sort with ⟨_, h⟩ | ⟨hsort, h⟩
  · exact h.grounded grounded
  · exact h.grounded (grounded.extended hsort)

theorem define_grounded {s : Structure} (grounded : s.Grounded) (op : Nat) (args : List Nat) :
    (define op args s).after.Grounded := by
  have renewed := grounded.renewed
  rcases define_cases grounded.valid op args with ⟨_, h⟩ | ⟨operation, happ, ⟨x, _, h⟩ | ⟨_, h⟩⟩
  · exact h.grounded grounded
  · exact h.grounded renewed
  · have hop := ((renews_renewed grounded.valid).signature.symm ▸ happ.1 :
      s.renewed.signature.operations[op]? = some operation)
    have extended := renewed.extended (renewed.codomain hop)
    exact h.grounded (extended.of_sorts (defined_valid grounded.valid happ) rfl rfl)

theorem assert_grounded {s : Structure} (grounded : s.Grounded) (pred : Nat) (args : List Nat) :
    (assert pred args s).after.Grounded := by
  have valid' := (assert_keeps pred args s grounded.valid).1
  rcases assert_cases grounded.valid pred args with ⟨_, h⟩ | ⟨predicate, _, h⟩
  · exact h.grounded grounded
  · rw [h.2] at valid'
    exact h.grounded (grounded.renewed.of_sorts valid' rfl rfl)

theorem merge_grounded {s : Structure} (grounded : s.Grounded) (x y : Nat) :
    (merge x y s).after.Grounded := by
  have valid' := (merge_keeps x y s grounded.valid).1
  rcases merge_cases grounded.valid x y with ⟨_, h⟩ | ⟨sort, merged, equality, _, _, _, h⟩
  · exact h.grounded grounded
  · rw [h.2] at valid'
    exact h.grounded (grounded.of_sorts valid' rfl rfl)

theorem grounded_lasting : Lasting fun s t => s.Grounded → t.Grounded where
  refl _ h := h
  trans _ _ _ h h' hs := h' (h hs)
  rebuild _ h := h.renewed
  add sort _ h := add_grounded h sort
  define op args _ h := define_grounded h op args
  assert pred args _ h := assert_grounded h pred args
  merge x y _ h := merge_grounded h x y

end Action

namespace Structure

section Sound

variable {s : Structure}

theorem Valid.cells_typed (valid : s.Valid) {op : Nat} {row : Row} (h : s.HasRow op row) :
    ∃ operation, s.signature.operations[op]? = some operation ∧
      s.Typed row.cells (operation.domain ++ [operation.codomain]) := by
  obtain ⟨operation, hop, hargs, hresult⟩ := valid.rowTyped op row h
  exact ⟨operation, hop, List.rel_append hargs (.cons hresult .nil)⟩

theorem Valid.row_fixed (valid : s.Valid) (clean : s.dirty = false) {op : Nat} {row : Row}
    (h : s.HasRow op row) : ∀ x ∈ row.cells, s.equality.reps[x]? = some x := by
  have hlt := valid.row_lt h
  have hc := valid.rowCanonical clean op row h
  have hroots : row.cells.map s.equality.root = row.cells := by
    rw [Row.cells, List.map_append]
    exact congrArg₂ (· ++ ·) (congrArg Row.args hc) (congrArg (fun r => [Row.result r]) hc)
  refine valid.fixed_of_roots (fun x hx => ?_) hroots
  rcases List.mem_append.mp hx with hx | hx
  · exact hlt.1 x hx
  · exact List.mem_singleton.mp hx ▸ hlt.2

theorem Valid.tuple_fixed (valid : s.Valid) (clean : s.dirty = false) {pred : Nat}
    {tuple : List Nat} (h : s.HasTuple pred tuple) : ∀ x ∈ tuple, s.equality.reps[x]? = some x :=
  valid.fixed_of_roots (valid.tuple_lt h) (valid.tupleCanonical clean pred tuple h)

theorem Grounded.carriers_total (grounded : s.Grounded) :
    total List.length s.carriers = s.size := by
  have hcount : ∀ sort, (positions (· == sort) s.sorts).length = s.sorts.count sort := fun sort =>
    positionsFrom_length _ 0 s.sorts
  rw [grounded.valid.carried, total_eq_sum, List.map_map]
  simp only [Function.comp_def, hcount]
  rw [← total_eq_sum]
  exact total_count grounded.declared

/-- Every element is in the carrier of its sort. -/
theorem Grounded.mem_carrier (grounded : s.Grounded) {x sort : Nat} :
    x ∈ s.carrier sort ↔ s.sorts[x]? = some sort := by
  constructor
  · exact grounded.valid.sort_of_mem_carrier
  · intro hsort
    exact (grounded.valid.mem_carrier (grounded.declared _ (List.mem_of_getElem? hsort))).mpr hsort

/-- Nothing is wrong with the structure. -/
theorem Grounded.not_violates (grounded : s.Grounded) (v : Violation) : ¬s.Violates v := by
  have valid := grounded.valid
  intro h
  cases h with
  | equalitySize h => exact h valid.tracked
  | carrierTotal h => exact h grounded.carriers_total
  | missingFromCarrier hsort h => exact h (grounded.mem_carrier.mpr hsort)
  | wrongArity hop ht h =>
    obtain ⟨table, ht', arity⟩ := forall₂_getElem? valid.operationArities hop
    cases Option.some.inj (ht.symm.trans ht')
    exact h arity
  | illSortedRow hop ht _ hrow h =>
    obtain ⟨operation, hop', typed⟩ := valid.cells_typed ⟨_, ht, hrow⟩
    cases Option.some.inj (hop.symm.trans hop')
    exact h typed
  | staleRow _ ht _ hrow _ clean hx h =>
    exact h (Equality.find_eq_ok_iff.mpr (valid.row_fixed clean ⟨_, ht, hrow⟩ _ hx))
  | illSortedTuple hpred ht htuple h =>
    obtain ⟨predicate, hpred', typed⟩ := valid.tupleTyped _ _ ⟨_, ht, htuple⟩
    cases Option.some.inj (hpred.symm.trans hpred')
    exact h typed
  | staleTuple _ ht htuple _ clean hx h =>
    exact h (Equality.find_eq_ok_iff.mpr (valid.tuple_fixed clean ⟨_, ht, htuple⟩ _ hx))

end Sound

/-- What a host can rely on between two calls. There is one carrier for each declared sort, and every
element is in the carrier of its sort and in no other. Classes have one sort, rows are well-sorted and
functional and, unless the structure is dirty, canonical, no equation waits, and every merge has made
one class less. -/
structure WellFormed (s : Structure) : Prop where
  checked : s.violation? = none
  sorted : s.carriers.length = s.signature.sorts.length ∧
    ∀ carrier ∈ s.carriers, carrier.Pairwise (· < ·)
  carried : ∀ x < s.size, ∃ sort < s.signature.sorts.length, x ∈ s.carrier sort ∧
    ∀ other, x ∈ s.carrier other → other = sort
  carriers : ∀ sort, ∀ x ∈ s.carrier sort, x < s.size ∧ s.sortOf x = .ok sort
  classes : ∀ members ∈ s.equality.classes, ∃ sort, ∀ x ∈ members, s.sortOf x = .ok sort
  rows : ∀ op row, s.HasRow op row → (∀ x ∈ row.cells, x < s.size) ∧
    ∃ operation, s.signature.operations[op]? = some operation ∧
      s.sortedAs (operation.domain ++ [operation.codomain]) row.cells = true
  tuples : ∀ pred tuple, s.HasTuple pred tuple → (∀ x ∈ tuple, x < s.size) ∧
    ∃ predicate, s.signature.predicates[pred]? = some predicate ∧
      s.sortedAs predicate.domain tuple = true
  functional : ∀ table ∈ s.operations, (table.rows.map Row.args).Nodup
  rowsCanonical : s.dirty = false → ∀ op row, s.HasRow op row → ∀ x ∈ row.cells,
    s.equality.find x = .ok x
  tuplesCanonical : s.dirty = false → ∀ pred tuple, s.HasTuple pred tuple → ∀ x ∈ tuple,
    s.equality.find x = .ok x
  drained : s.equality.pending = []
  counted : s.equality.merges + s.equality.classes.length = s.size

/-- The members of a class are equal to each other. -/
theorem Valid.class_sort {s : Structure} (valid : s.Valid) {members : List Nat}
    (h : members ∈ s.equality.classes) : ∃ sort, ∀ x ∈ members, s.sortOf x = .ok sort := by
  obtain ⟨r, hr, rfl⟩ := List.mem_map.mp h
  have hrep := Equality.mem_roots.mp hr
  have htracked : s.equality.size = s.sorts.length := valid.tracked
  have hlt : r < s.sorts.length := htracked ▸ Equality.lt_size_of_getElem? hrep
  refine ⟨s.sorts[r], fun x hx => sortOf_eq_ok_iff.mpr ?_⟩
  obtain ⟨r', hx, he⟩ := mem_positions.mp hx
  have hxr : s.Equal r x := ⟨r, hrep, beq_iff_eq.mp he ▸ hx⟩
  exact valid.equal_sort hxr (List.getElem?_eq_getElem hlt)

theorem Grounded.wellFormed {s : Structure} (grounded : s.Grounded) : s.WellFormed where
  checked := violation?_eq_none_iff.mpr grounded.not_violates
  sorted := by
    refine ⟨grounded.valid.carriers_length, fun carrier hcarrier => ?_⟩
    obtain ⟨sort, hsort⟩ := List.mem_iff_getElem?.mp hcarrier
    have he : s.carrier sort = carrier := by rw [Structure.carrier, carrier?, hsort, Option.getD_some]
    exact he ▸ grounded.valid.carrier_pairwise sort
  carried x hx := by
    have hlt : x < s.sorts.length := hx
    have hsort : s.sorts[x]? = some s.sorts[x] := List.getElem?_eq_getElem hlt
    refine ⟨_, grounded.declared _ (List.getElem_mem hx), grounded.mem_carrier.mpr hsort, fun other h => ?_⟩
    exact Option.some.inj ((grounded.mem_carrier.mp h).symm.trans hsort)
  carriers sort x h := by
    have hsort := grounded.mem_carrier.mp h
    exact ⟨(List.getElem?_eq_some_iff.mp hsort).1, sortOf_eq_ok_iff.mpr hsort⟩
  classes _ h := grounded.valid.class_sort h
  rows op row h := by
    obtain ⟨operation, hop, typed⟩ := grounded.valid.cells_typed h
    exact ⟨typed.lt_size, operation, hop, sortedAs_iff.mpr typed⟩
  tuples pred tuple h := by
    obtain ⟨predicate, hpred, typed⟩ := grounded.valid.tupleTyped pred tuple h
    exact ⟨typed.lt_size, predicate, hpred, sortedAs_iff.mpr typed⟩
  functional := grounded.valid.keyed
  rowsCanonical clean _ _ h x hx :=
    Equality.find_eq_ok_iff.mpr (grounded.valid.row_fixed clean h x hx)
  tuplesCanonical clean _ _ h x hx :=
    Equality.find_eq_ok_iff.mpr (grounded.valid.tuple_fixed clean h x hx)
  drained := grounded.valid.drained
  counted := by
    have hcounted := grounded.valid.partition.counted
    have hclasses : s.equality.classes.length = s.equality.roots.length := List.length_map _
    rw [hclasses, Equality.roots_length, hcounted]
    exact grounded.valid.tracked

end Structure

/-- The representation invariant. It holds after any calls over any declared signature, also where
calls have failed or a chase with unchecked rules has stopped in the middle of a head. The check
that finds nothing wrong there finds nothing only where nothing is wrong. -/
theorem calls_keep_wellFormed (ds : List Declaration) (calls : List Call) :
    ((Structure.empty (Signature.ofDeclarations ds).2).afterCalls calls).WellFormed ∧
      ∀ s : Structure, s.violation? = none ↔ ∀ v, ¬s.Violates v := by
  have start : (Structure.empty (Signature.ofDeclarations ds).2).Grounded :=
    ⟨Structure.empty_valid _, Signature.ofDeclarations_closed ds, by simp [Structure.empty]⟩
  exact ⟨(Structure.afterCalls_lasting Action.grounded_lasting calls _ start).wellFormed,
    fun _ => Structure.violation?_eq_none_iff⟩

end PartialHorn
