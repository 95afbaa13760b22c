import PartialHorn.Proofs.Enlargement
import PartialHorn.Proofs.Renewal

namespace PartialHorn

namespace Equality

/-- Where more elements are equal, the least member of a class is no larger. -/
theorem root_le_of_same {eq eq' : Equality} (valid : eq.Valid) (valid' : eq'.Valid)
    (hsub : ∀ x y, eq.Same x y → eq'.Same x y) {x : Nat} (hx : x < eq.size) :
    eq'.root x ≤ eq.root x := by
  have hroot : eq'.Same x (eq.root x) := hsub _ _ (same_root valid hx)
  rw [(same_iff_root hroot.lt_left hroot.lt_right).mp hroot]
  exact valid'.le _ _ (getElem?_root hroot.lt_right)

/-- A valid partition is known by its size, its classes and its queue. -/
theorem ext_of_same {eq eq' : Equality} (valid : eq.Valid) (valid' : eq'.Valid)
    (hsize : eq'.size = eq.size) (hpending : eq'.pending = eq.pending)
    (hsub : ∀ x y, eq.Same x y → eq'.Same x y) (hsup : ∀ x y, eq'.Same x y → eq.Same x y) :
    eq' = eq := by
  have hreps : eq'.reps = eq.reps := by
    apply List.ext_getElem? fun x => ?_
    by_cases hx : x < eq.size
    · have hx' : x < eq'.size := hsize ▸ hx
      have hle := root_le_of_same valid valid' hsub hx
      have hge := root_le_of_same valid' valid hsup hx'
      have he : eq'.root x = eq.root x := by omega
      rw [getElem?_root hx, getElem?_root hx', he]
    · have hx' : ¬x < eq'.size := hsize ▸ hx
      rw [List.getElem?_eq_none (Nat.not_lt.mp hx), List.getElem?_eq_none (Nat.not_lt.mp hx')]
  have hmerges : eq'.merges = eq.merges := by
    have hc := valid.counted
    have hc' := valid'.counted
    have hr : eq'.rootCount = eq.rootCount := by
      unfold rootCount isRepresentative
      rw [hsize, hreps]
    omega
  cases eq
  cases eq'
  simp_all

end Equality

namespace OperationTable

/-- Two tables with the same rows, in whatever order and after whatever number of changes. -/
structure Twin (a b : OperationTable) : Prop where
  arity : b.arity = a.arity
  rows : a.rows.Perm b.rows

namespace Twin

theorem refl (a : OperationTable) : a.Twin a :=
  ⟨rfl, List.Perm.refl _⟩

variable {a b c : OperationTable}

theorem symm (h : a.Twin b) : b.Twin a :=
  ⟨h.arity.symm, h.rows.symm⟩

theorem trans (h : a.Twin b) (h' : b.Twin c) : a.Twin c :=
  ⟨h'.arity.trans h.arity, h.rows.trans h'.rows⟩

theorem size (h : a.Twin b) : b.size = a.size :=
  h.rows.length_eq.symm

theorem keyed (h : a.Twin b) (keyed : a.Keyed) : b.Keyed :=
  (h.rows.map Row.args).nodup_iff.mp keyed

theorem get? (h : a.Twin b) (keyed : a.Keyed) (args : List Nat) : b.get? args = a.get? args := by
  apply Option.ext
  intro x
  rw [get?_eq_some_iff (h.keyed keyed), get?_eq_some_iff keyed, h.rows.mem_iff]

theorem insert (h : a.Twin b) (keyed : a.Keyed) (row : Row) :
    (a.insert row).2.Twin (b.insert row).2 := by
  have hg := h.get? keyed row.args
  cases ha : a.get? row.args with
  | none =>
    rw [insert_of_not ha, insert_of_not (hg.trans ha)]
    exact ⟨h.arity, h.rows.append_right [row]⟩
  | some x =>
    rw [insert_of_get? ha, insert_of_get? (hg.trans ha)]
    exact h

end Twin

end OperationTable

namespace Structure

/-- Two structures that differ in their operation tables at most. -/
structure Aligned (s t : Structure) : Prop where
  signature : t.signature = s.signature
  sorts : t.sorts = s.sorts
  carriers : t.carriers = s.carriers
  equality : t.equality = s.equality
  predicates : t.predicates = s.predicates
  dirty : t.dirty = s.dirty

/-- Two structures that differ at most in the order of the rows of operations and in how often the
tables of operations have changed. -/
structure Twin (s t : Structure) : Prop extends s.Aligned t where
  operations : List.Forall₂ OperationTable.Twin s.operations t.operations

namespace Aligned

theorem refl (s : Structure) : s.Aligned s :=
  ⟨rfl, rfl, rfl, rfl, rfl, rfl⟩

variable {s t u : Structure}

theorem symm (h : s.Aligned t) : t.Aligned s :=
  ⟨h.signature.symm, h.sorts.symm, h.carriers.symm, h.equality.symm, h.predicates.symm, h.dirty.symm⟩

theorem trans (h : s.Aligned t) (h' : t.Aligned u) : s.Aligned u :=
  ⟨h'.signature.trans h.signature, h'.sorts.trans h.sorts, h'.carriers.trans h.carriers,
    h'.equality.trans h.equality, h'.predicates.trans h.predicates, h'.dirty.trans h.dirty⟩

theorem size (h : s.Aligned t) : t.size = s.size :=
  congrArg List.length h.sorts

theorem equal (h : s.Aligned t) {x y : Nat} : t.Equal x y ↔ s.Equal x y := by
  rw [Equal, Equal, h.equality]

theorem hasTuple (h : s.Aligned t) {pred : Nat} {tuple : List Nat} :
    t.HasTuple pred tuple ↔ s.HasTuple pred tuple := by
  rw [HasTuple, HasTuple, h.predicates]

theorem typed (h : s.Aligned t) {xs sorts : List Nat} : t.Typed xs sorts ↔ s.Typed xs sorts := by
  rw [Typed, Typed, h.sorts]

theorem sortOf (h : s.Aligned t) (x : Nat) : t.sortOf x = s.sortOf x := by
  rw [Structure.sortOf, Structure.sortOf, h.sorts, h.size]

theorem carrier? (h : s.Aligned t) (sort : Nat) : t.carrier? sort = s.carrier? sort := by
  rw [Structure.carrier?, Structure.carrier?, h.carriers]

theorem carrier (h : s.Aligned t) (sort : Nat) : t.carrier sort = s.carrier sort := by
  rw [Structure.carrier, Structure.carrier, h.carrier?]

theorem domains (h : s.Aligned t) (rule : Rule) : t.domains rule = s.domains rule := by
  simp only [Structure.domains, canonicalCarrier, h.carrier, h.equality]

theorem argumentError? (h : s.Aligned t) (symbol : String) (position : Nat) (sorts xs : List Nat) :
    t.argumentError? symbol position sorts xs = s.argumentError? symbol position sorts xs := by
  induction sorts generalizing position xs with
  | nil => rfl
  | cons sort sorts ih =>
    cases xs with
    | nil => rfl
    | cons x xs => simp only [Structure.argumentError?, h.sorts, h.size, ih]

theorem applicationError? (h : s.Aligned t) (symbol : String) (domain args : List Nat) :
    t.applicationError? symbol domain args = s.applicationError? symbol domain args := by
  simp only [Structure.applicationError?, h.argumentError?]

end Aligned

namespace Twin

theorem refl (s : Structure) : s.Twin s :=
  ⟨.refl s, forall₂_of_mem fun a _ => .refl a⟩

variable {s t u : Structure}

theorem symm (h : s.Twin t) : t.Twin s :=
  ⟨h.toAligned.symm, forall₂_swap (fun _ _ => .symm) h.operations⟩

theorem trans (h : s.Twin t) (h' : t.Twin u) : s.Twin u :=
  ⟨h.toAligned.trans h'.toAligned, forall₂_trans (fun _ _ _ => .trans) h.operations h'.operations⟩

theorem operationRows_le (h : s.Twin t) : t.operationRows ≤ s.operationRows :=
  total_le (h.symm.operations.imp fun _ _ hab => Nat.le_of_eq hab.size.symm)

theorem rowCount (h : s.Twin t) : t.rowCount = s.rowCount := by
  have hle := h.operationRows_le
  have hge := h.symm.operationRows_le
  simp only [Structure.rowCount, predicateRows, h.predicates]
  omega

theorem hasRow (h : s.Twin t) {op : Nat} {row : Row} : t.HasRow op row ↔ s.HasRow op row := by
  have moved : ∀ {u v : Structure}, u.Twin v → u.HasRow op row → v.HasRow op row := by
    rintro u v twin ⟨table, ht, hrow⟩
    obtain ⟨table', ht', same⟩ := forall₂_getElem? twin.operations ht
    exact ⟨table', ht', same.rows.mem_iff.mp hrow⟩
  exact ⟨moved h.symm, moved h⟩

theorem valid (h : s.Twin t) (valid : s.Valid) : t.Valid where
  partition := by rw [h.equality]; exact valid.partition
  tracked := by rw [h.equality, h.size]; exact valid.tracked
  drained := by rw [h.equality]; exact valid.drained
  carried := by rw [h.carriers, h.signature, h.sorts]; exact valid.carried
  oneSort x y hxy := by rw [h.sorts]; exact valid.oneSort x y (h.equal.mp hxy)
  operationArities := by
    rw [h.signature]
    exact forall₂_trans (fun _ _ _ ha hab => hab.arity.trans ha) valid.operationArities h.operations
  predicateArities := by rw [h.signature, h.predicates]; exact valid.predicateArities
  keyed table ht := by
    obtain ⟨table', ht', twin⟩ := forall₂_left_of_mem h.operations ht
    exact twin.keyed (valid.keyed table' ht')
  unrepeated := by rw [h.predicates]; exact valid.unrepeated
  rowTyped op row hrow := by
    rw [h.signature, h.sorts]
    obtain ⟨operation, hop, hargs, hresult⟩ := valid.rowTyped op row (h.hasRow.mp hrow)
    exact ⟨operation, hop, h.typed.mpr hargs, hresult⟩
  tupleTyped pred tuple htuple := by
    rw [h.signature]
    obtain ⟨predicate, hpred, hargs⟩ := valid.tupleTyped pred tuple (h.hasTuple.mp htuple)
    exact ⟨predicate, hpred, h.typed.mpr hargs⟩
  rowCanonical clean op row hrow := by
    rw [h.equality]
    exact valid.rowCanonical (h.dirty ▸ clean) op row (h.hasRow.mp hrow)
  tupleCanonical clean pred tuple htuple := by
    rw [h.equality]
    exact valid.tupleCanonical (h.dirty ▸ clean) pred tuple (h.hasTuple.mp htuple)

theorem result? (h : s.Twin t) (valid : s.Valid) (op : Nat) (args : List Nat) :
    t.result? op args = s.result? op args := by
  apply Option.ext
  intro x
  rw [(h.valid valid).result?_iff, valid.result?_iff, h.hasRow]

theorem hasTuple? (h : s.Twin t) (pred : Nat) (tuple : List Nat) :
    t.hasTuple pred tuple = s.hasTuple pred tuple := by
  rw [Structure.hasTuple, Structure.hasTuple, h.predicates]

theorem extended (h : s.Twin t) (sort : Nat) : (s.extended sort).Twin (t.extended sort) where
  signature := h.signature
  sorts := by simp only [Structure.extended, h.sorts]
  carriers := by simp only [Structure.extended, h.carriers, h.size]
  equality := by simp only [Structure.extended, h.equality]
  predicates := h.predicates
  dirty := h.dirty
  operations := h.operations

theorem withRow (h : s.Twin t) (valid : s.Valid) (op : Nat) (row : Row) :
    (s.withRow op row).Twin (t.withRow op row) where
  signature := h.signature
  sorts := h.sorts
  carriers := h.carriers
  equality := h.equality
  predicates := h.predicates
  dirty := h.dirty
  operations := by
    apply forall₂_of_getElem?
    · simpa [Structure.withRow] using h.operations.length_eq
    · intro i a b ha hb
      by_cases he : op = i
      · subst he
        simp only [Structure.withRow, List.getElem?_modify_eq] at ha hb
        obtain ⟨a, hold, rfl⟩ := Option.map_eq_some_iff.mp ha
        obtain ⟨b', hb', twin⟩ := forall₂_getElem? h.operations hold
        rw [hb'] at hb
        cases hb
        exact twin.insert (valid.keyed a (List.mem_of_getElem? hold)) row
      · simp only [Structure.withRow, List.getElem?_modify_ne _ _ he] at ha hb
        obtain ⟨b', hb', twin⟩ := forall₂_getElem? h.operations ha
        cases Option.some.inj (hb.symm.trans hb')
        exact twin

theorem withTuple (h : s.Twin t) (pred : Nat) (tuple : List Nat) :
    (s.withTuple pred tuple).Twin (t.withTuple pred tuple) where
  signature := h.signature
  sorts := h.sorts
  carriers := h.carriers
  equality := h.equality
  predicates := by simp only [Structure.withTuple, h.predicates]
  dirty := h.dirty
  operations := h.operations

theorem joined (h : s.Twin t) (merged : Bool) (equality : Equality) :
    (s.joined merged equality).Twin (t.joined merged equality) where
  signature := h.signature
  sorts := h.sorts
  carriers := h.carriers
  equality := rfl
  predicates := h.predicates
  dirty := by simp only [Structure.joined, h.dirty]
  operations := h.operations

end Twin

end Structure

end PartialHorn
