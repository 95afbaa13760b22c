import PartialHorn.Chase
import PartialHorn.Proofs.Truth

namespace PartialHorn

namespace Structure

/-- The invariant of a structure. The tables may lag behind the partition only while the structure
is dirty, and no equation waits between two calls. -/
structure Valid (s : Structure) : Prop where
  partition : s.equality.Valid
  tracked : s.equality.size = s.size
  drained : s.equality.pending = []
  carried : s.carriers =
    (List.range s.signature.sorts.length).map fun sort => positions (· == sort) s.sorts
  oneSort : ∀ x y, s.Equal x y → s.sorts[x]? = s.sorts[y]?
  operationArities : List.Forall₂ (fun (operation : Operation) (table : OperationTable) =>
    table.arity = operation.domain.length) s.signature.operations s.operations
  predicateArities : List.Forall₂ (fun (predicate : Predicate) (table : PredicateTable) =>
    table.arity = predicate.domain.length) s.signature.predicates s.predicates
  keyed : ∀ table ∈ s.operations, table.Keyed
  unrepeated : ∀ table ∈ s.predicates, table.Unrepeated
  rowTyped : ∀ op row, s.HasRow op row → ∃ operation, s.signature.operations[op]? = some operation ∧
    s.Typed row.args operation.domain ∧ s.sorts[row.result]? = some operation.codomain
  tupleTyped : ∀ pred tuple, s.HasTuple pred tuple →
    ∃ predicate, s.signature.predicates[pred]? = some predicate ∧ s.Typed tuple predicate.domain
  rowCanonical : s.dirty = false → ∀ op row, s.HasRow op row → s.equality.canonical row = row
  tupleCanonical : s.dirty = false → ∀ pred tuple, s.HasTuple pred tuple →
    tuple.map s.equality.root = tuple

theorem Typed.lt_size {s : Structure} {xs sorts : List Nat} (h : s.Typed xs sorts) :
    ∀ x ∈ xs, x < s.size := by
  intro x hx
  obtain ⟨sort, _, hsort⟩ := forall₂_right_of_mem h hx
  exact (List.getElem?_eq_some_iff.mp hsort).1

theorem root_eq {s : Structure} {x y : Nat} (h : s.Equal x y) :
    s.equality.root x = s.equality.root y :=
  (Equality.same_iff_root (Equality.Same.lt_left h) (Equality.Same.lt_right h)).mp h

theorem roots_eq {s : Structure} {xs ys : List Nat} (h : List.Forall₂ s.Equal xs ys) :
    xs.map s.equality.root = ys.map s.equality.root :=
  map_eq_of_forall₂ (List.forall₂_map_right_iff.mpr (h.imp fun _ _ => root_eq))

/-- The partition as an equivalence of all numbers; what is not an element is in a class of its own. -/
theorem eq_or_equal_equivalence (s : Structure) : Equivalence fun x y => x = y ∨ s.Equal x y := by
  refine ⟨fun _ => Or.inl rfl, fun h => h.imp Eq.symm Equal.symm, fun {x y z} h h' => ?_⟩
  rcases h with rfl | h
  · exact h'
  · rcases h' with rfl | h'
    · exact Or.inr h
    · exact Or.inr (h.trans h')

/-- The representatives of the classes of a sort, in ascending order. -/
def canonicalCarrier (s : Structure) (sort : Nat) : List Nat :=
  (s.carrier sort).filter s.equality.isRepresentative

/-- What a scan finds where it cannot fail. -/
def domains (s : Structure) (rule : Rule) : Domains :=
  rule.sortsScanned.map fun sort => (sort, s.canonicalCarrier sort)

/-- The bindings that satisfy the plan of a rule, in strictly ascending order. -/
def solutions (s : Structure) (rule : Rule) : List Binding :=
  s.bindings (s.domains rule) rule

namespace Valid

variable {s : Structure} (valid : s.Valid)

include valid

theorem carriers_length : s.carriers.length = s.signature.sorts.length := by
  simp [valid.carried]

/-- The carrier of a declared sort lists the elements of the sort. -/
theorem carrier_eq {sort : Nat} (h : sort < s.signature.sorts.length) :
    s.carrier sort = positions (· == sort) s.sorts := by
  rw [carrier, carrier?, valid.carried, List.getElem?_map, List.getElem?_range h]
  rfl

theorem carrier_eq_nil {sort : Nat} (h : s.signature.sorts.length ≤ sort) : s.carrier sort = [] := by
  rw [carrier, carrier?, List.getElem?_eq_none (by rwa [valid.carriers_length])]
  rfl

theorem mem_carrier {x sort : Nat} (h : sort < s.signature.sorts.length) :
    x ∈ s.carrier sort ↔ s.sorts[x]? = some sort := by
  rw [valid.carrier_eq h, mem_positions]
  constructor
  · rintro ⟨y, hy, he⟩
    rwa [← beq_iff_eq.mp he]
  · intro h
    exact ⟨sort, h, beq_self_eq_true sort⟩

theorem declared_of_mem_carrier {x sort : Nat} (h : x ∈ s.carrier sort) :
    sort < s.signature.sorts.length := by
  by_contra hnot
  rw [valid.carrier_eq_nil (Nat.le_of_not_lt hnot)] at h
  exact List.not_mem_nil h

theorem sort_of_mem_carrier {x sort : Nat} (h : x ∈ s.carrier sort) : s.sorts[x]? = some sort :=
  (valid.mem_carrier (valid.declared_of_mem_carrier h)).mp h

theorem equal_refl {x : Nat} (hx : x < s.size) : s.Equal x x :=
  Equality.Same.refl (valid.tracked ▸ hx)

theorem lt_size {x y : Nat} (h : s.Equal x y) : x < s.size :=
  valid.tracked ▸ Equality.Same.lt_left h

theorem representatives_eq {xs : List Nat} (h : ∀ x ∈ xs, x < s.size) :
    representativesBy s.equality.find xs = .ok (xs.filter s.equality.isRepresentative) := by
  induction xs with
  | nil => rfl
  | cons x xs ih =>
    have hx : x < s.equality.size := valid.tracked ▸ h x (by simp)
    have hrest := ih fun y hy => h y (List.mem_cons_of_mem x hy)
    have hrep : s.equality.isRepresentative x = true ↔ s.equality.root x = x := by
      rw [Equality.isRepresentative_iff, Equality.getElem?_root hx, Option.some.injEq]
    rw [representativesBy, Equality.find_eq_ok_iff.mpr (Equality.getElem?_root hx), hrest]
    by_cases hroot : s.equality.root x = x
    · rw [List.filter_cons_of_pos (hrep.mpr hroot)]
      show Except.ok (if _ then _ else _) = _
      rw [if_pos hroot]
    · rw [List.filter_cons_of_neg (fun he => hroot (hrep.mp he))]
      show Except.ok (if _ then _ else _) = _
      rw [if_neg hroot]

/-- A scan looks up elements only, so it does not fail. -/
theorem scan_eq (rule : Rule) : s.scan rule = .ok (s.domains rule) := by
  refine mapM_eq_ok_iff.mpr (forall₂_map_right fun sort _ => ?_)
  have hlt : ∀ x ∈ s.carrier sort, x < s.size := fun x hx =>
    (List.getElem?_eq_some_iff.mp (valid.sort_of_mem_carrier hx)).1
  simp only [valid.representatives_eq hlt]
  rfl

theorem equal_root {x : Nat} (hx : x < s.size) : s.Equal x (s.equality.root x) :=
  Equality.same_root valid.partition (valid.tracked ▸ hx)

theorem fixed_of_roots {xs : List Nat} (hlt : ∀ x ∈ xs, x < s.size)
    (h : xs.map s.equality.root = xs) : ∀ x ∈ xs, s.equality.reps[x]? = some x := by
  intro x hx
  have hroot : s.equality.root x = x := map_eq_self_iff.mp h x hx
  have hrep := Equality.getElem?_root (valid.tracked ▸ hlt x hx)
  rwa [hroot] at hrep

theorem equal_all_refl {xs : List Nat} (h : ∀ x ∈ xs, x < s.size) : List.Forall₂ s.Equal xs xs :=
  forall₂_of_mem fun x hx => valid.equal_refl (h x hx)

theorem equal_all_of_or {xs ys : List Nat} (hx : ∀ x ∈ xs, x < s.size)
    (h : List.Forall₂ (fun x y => x = y ∨ s.Equal x y) xs ys) : List.Forall₂ s.Equal xs ys := by
  refine forall₂_imp_of_mem h fun x hxs y _ hxy => hxy.elim (fun he => ?_) id
  exact he ▸ valid.equal_refl (hx x hxs)

theorem equal_all_root {xs : List Nat} (h : ∀ x ∈ xs, x < s.size) :
    List.Forall₂ s.Equal xs (xs.map s.equality.root) :=
  forall₂_map_right fun x hx => valid.equal_root (h x hx)

theorem equal_all_lt {xs ys : List Nat} (h : List.Forall₂ s.Equal xs ys) :
    ∀ x ∈ xs, x < s.size := by
  intro x hx
  obtain ⟨y, _, hxy⟩ := forall₂_right_of_mem h hx
  exact valid.lt_size hxy

theorem row_lt {op : Nat} {row : Row} (h : s.HasRow op row) :
    (∀ x ∈ row.args, x < s.size) ∧ row.result < s.size := by
  obtain ⟨operation, _, hargs, hresult⟩ := valid.rowTyped op row h
  exact ⟨hargs.lt_size, (List.getElem?_eq_some_iff.mp hresult).1⟩

theorem tuple_lt {pred : Nat} {tuple : List Nat} (h : s.HasTuple pred tuple) :
    ∀ x ∈ tuple, x < s.size := by
  obtain ⟨predicate, _, hargs⟩ := valid.tupleTyped pred tuple h
  exact hargs.lt_size

theorem applies_row {op : Nat} {row : Row} (h : s.HasRow op row) :
    s.Applies op row.args row.result :=
  ⟨row, h, valid.equal_all_refl (valid.row_lt h).1, valid.equal_refl (valid.row_lt h).2⟩

theorem relates_tuple {pred : Nat} {tuple : List Nat} (h : s.HasTuple pred tuple) :
    s.Relates pred tuple :=
  ⟨tuple, h, valid.equal_all_refl (valid.tuple_lt h)⟩

theorem equal_sort {x y sort : Nat} (h : s.Equal x y) (hx : s.sorts[x]? = some sort) :
    s.sorts[y]? = some sort :=
  (valid.oneSort x y h).symm.trans hx

theorem typed_equal {xs ys sorts : List Nat} (h : List.Forall₂ s.Equal xs ys)
    (ht : s.Typed xs sorts) : s.Typed ys sorts := by
  refine forall₂_trans (fun y x sort hxy hx => ?_) (equal_all_symm h) ht
  exact valid.equal_sort (Equal.symm hxy) hx

theorem result?_iff {op x : Nat} {args : List Nat} :
    s.result? op args = some x ↔ s.HasRow op ⟨args, x⟩ := by
  refine ⟨hasRow_of_result?, ?_⟩
  rintro ⟨table, ht, hrow⟩
  have keyed := valid.keyed table (List.mem_of_getElem? ht)
  rw [result?, ht, Option.bind_some]
  exact (OperationTable.get?_eq_some_iff keyed).mpr hrow

theorem row_unique {op : Nat} {row row' : Row} (h : s.HasRow op row) (h' : s.HasRow op row')
    (he : row.args = row'.args) : row = row' := by
  obtain ⟨table, ht, hrow⟩ := h
  obtain ⟨table', ht', hrow'⟩ := h'
  cases Option.some.inj (ht.symm.trans ht')
  exact (valid.keyed table (List.mem_of_getElem? ht)).eq_of_args hrow hrow' he

/-- In a clean structure an application is true up to equality exactly when the table has its
canonical form as a row. -/
theorem applies_iff (clean : s.dirty = false) {op x : Nat} {args : List Nat} :
    s.Applies op args x ↔ (∀ a ∈ args, a < s.size) ∧ x < s.size ∧
      s.HasRow op ⟨args.map s.equality.root, s.equality.root x⟩ := by
  constructor
  · rintro ⟨row, hrow, hargs, hx⟩
    have hc : s.HasRow op (s.equality.canonical row) :=
      (valid.rowCanonical clean op row hrow).symm ▸ hrow
    refine ⟨valid.equal_all_lt hargs, valid.lt_size hx, ?_⟩
    rw [roots_eq hargs, root_eq hx]
    exact hc
  · rintro ⟨hlt, hx, hrow⟩
    exact ⟨_, hrow, valid.equal_all_root hlt, valid.equal_root hx⟩

theorem relates_iff (clean : s.dirty = false) {pred : Nat} {args : List Nat} :
    s.Relates pred args ↔ (∀ a ∈ args, a < s.size) ∧
      s.HasTuple pred (args.map s.equality.root) := by
  constructor
  · rintro ⟨tuple, htuple, hargs⟩
    refine ⟨valid.equal_all_lt hargs, ?_⟩
    rw [roots_eq hargs, valid.tupleCanonical clean pred tuple htuple]
    exact htuple
  · rintro ⟨hlt, htuple⟩
    exact ⟨_, htuple, valid.equal_all_root hlt⟩

/-- An operation has at most one value up to equality. -/
theorem applies_unique (clean : s.dirty = false) {op x y : Nat} {args : List Nat}
    (h : s.Applies op args x) (h' : s.Applies op args y) : s.Equal x y := by
  obtain ⟨_, hx, hrow⟩ := (valid.applies_iff clean).mp h
  obtain ⟨_, hy, hrow'⟩ := (valid.applies_iff clean).mp h'
  have he := (Row.mk.inj (valid.row_unique hrow hrow' rfl)).2
  exact (Equality.same_iff_root (valid.tracked ▸ hx) (valid.tracked ▸ hy)).mpr he

end Valid

end Structure

end PartialHorn
