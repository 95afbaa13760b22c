import PartialHorn.Proofs.Recording
import Mathlib.Data.List.Perm.Subperm

namespace PartialHorn

namespace Equality

/-- The elements that represent their class, in ascending order. -/
def roots (eq : Equality) : List Nat :=
  (List.range eq.size).filter eq.isRepresentative

theorem mem_roots {eq : Equality} {x : Nat} : x ∈ eq.roots ↔ eq.reps[x]? = some x := by
  rw [roots, List.mem_filter, isRepresentative_iff, List.mem_range]
  exact ⟨fun h => h.2, fun h => ⟨lt_size_of_getElem? h, h⟩⟩

theorem roots_nodup (eq : Equality) : eq.roots.Nodup :=
  List.nodup_range.filter _

theorem roots_length (eq : Equality) : eq.roots.length = eq.rootCount :=
  List.countP_eq_length_filter.symm

end Equality

namespace Structure

theorem Valid.classCount_eq {s : Structure} (valid : s.Valid) :
    s.classCount = s.equality.roots.length := by
  have hcounted := valid.partition.counted
  rw [Equality.roots_length, classCount, Partition.classCount_eq, Equality.classCount]
  omega

/-- Every element is equal to one of the earlier structure. -/
def Covers (s t : Structure) : Prop :=
  ∀ y < t.size, ∃ x < s.size, t.Equal x y

/-- The earlier structure has all classes of the later one, where its own facts are still true. -/
structure Retains (s t : Structure) : Prop where
  signature : t.signature = s.signature
  equal : ∀ x y, s.Equal x y → t.Equal x y
  rows : ∀ op row, s.HasRow op row → t.Applies op row.args row.result
  tuples : ∀ pred tuple, s.HasTuple pred tuple → t.Relates pred tuple
  covers : s.Covers t

/-- There are fewer classes or, among as many classes, more facts. -/
def Advances (s t : Structure) : Prop :=
  t.classCount < s.classCount ∨ (t.classCount = s.classCount ∧ s.rowCount < t.rowCount)

section Classes

variable {s t : Structure} (valid : s.Valid) (valid' : t.Valid)
  (equal : ∀ x y, s.Equal x y → t.Equal x y) (covers : s.Covers t)

include valid valid' equal covers

theorem roots_subset : t.equality.roots ⊆ s.equality.roots.map t.equality.root := by
  intro y hy
  have hrep := Equality.mem_roots.mp hy
  have hlt : y < t.size := valid'.tracked ▸ Equality.lt_size_of_getElem? hrep
  obtain ⟨x, hx, hxy⟩ := covers y hlt
  have hroot : s.equality.reps[s.equality.root x]? = some (s.equality.root x) :=
    valid.partition.fixed x _ (Equality.getElem?_root (valid.tracked ▸ hx))
  have he : t.Equal (s.equality.root x) y := (equal _ _ (valid.equal_root hx)).symm.trans hxy
  refine List.mem_map.mpr ⟨s.equality.root x, Equality.mem_roots.mpr hroot, ?_⟩
  rw [root_eq he, Equality.root_eq_of_getElem? hrep]

theorem classCount_le : t.classCount ≤ s.classCount := by
  have hsub := roots_subset valid valid' equal covers
  have hle := (Equality.roots_nodup t.equality).length_le_of_subset hsub
  rw [List.length_map] at hle
  rw [valid.classCount_eq, valid'.classCount_eq]
  exact hle

/-- If no class is lost, then no two classes have become one. -/
theorem equal_reflects (hcount : s.classCount ≤ t.classCount) {x y : Nat} (hx : x < s.size)
    (hy : y < s.size) (h : t.Equal x y) : s.Equal x y := by
  have hlen : (s.equality.roots.map t.equality.root).length ≤ t.equality.roots.length := by
    rw [List.length_map, ← valid.classCount_eq, ← valid'.classCount_eq]
    exact hcount
  have hsub := (Equality.roots_nodup t.equality).subperm (roots_subset valid valid' equal covers)
  have hnodup : (s.equality.roots.map t.equality.root).Nodup :=
    (hsub.perm_of_length_le hlen).nodup_iff.mp (Equality.roots_nodup t.equality)
  have hmem : ∀ z, z < s.size → s.equality.root z ∈ s.equality.roots := fun z hz =>
    Equality.mem_roots.mpr (valid.partition.fixed z _ (Equality.getElem?_root (valid.tracked ▸ hz)))
  have hroots : t.Equal (s.equality.root x) (s.equality.root y) :=
    (equal _ _ (valid.equal_root hx)).symm.trans (h.trans (equal _ _ (valid.equal_root hy)))
  have he := List.inj_on_of_nodup_map hnodup (hmem x hx) (hmem y hy) (root_eq hroots)
  exact (Equality.same_iff_root (valid.tracked ▸ hx) (valid.tracked ▸ hy)).mpr he

end Classes

section Retains

variable {s t : Structure} (valid : s.Valid) (clean : s.dirty = false) (valid' : t.Valid)
  (clean' : t.dirty = false) (h : s.Retains t)

include valid valid' h

theorem Retains.classCount_le : t.classCount ≤ s.classCount :=
  Structure.classCount_le valid valid' h.equal h.covers

variable (hcount : t.classCount = s.classCount)

include hcount

theorem Retains.roots_reflect {xs ys : List Nat} (hx : ∀ x ∈ xs, x < s.size)
    (hy : ∀ y ∈ ys, y < s.size) (he : xs.map t.equality.root = ys.map t.equality.root) :
    List.Forall₂ s.Equal xs ys := by
  have hroots : List.Forall₂ (fun x y => t.equality.root x = t.equality.root y) xs ys :=
    List.forall₂_map_left_iff.mp (List.forall₂_map_right_iff.mp (he ▸ List.forall₂_refl _))
  have hknown : ∀ z, z < s.size → z < t.equality.size := fun z hz =>
    Equality.Same.lt_left (h.equal z z (valid.equal_refl hz))
  refine forall₂_imp_of_mem hroots fun x hxs y hys hxy => ?_
  refine equal_reflects valid valid' h.equal h.covers (Nat.le_of_eq hcount.symm) (hx x hxs) (hy y hys) ?_
  exact (Equality.same_iff_root (hknown x (hx x hxs)) (hknown y (hy y hys))).mpr hxy

/-- Among as many classes, a list of canonical tuples is not longer than one that has their images;
if it is as long, then that one has nothing else. -/
theorem Retains.image_tuples {xs ys : List (List Nat)} (nodup : xs.Nodup)
    (canonical : ∀ tuple ∈ xs, (∀ x ∈ tuple, x < s.size) ∧ tuple.map s.equality.root = tuple)
    (image : ∀ tuple ∈ xs, tuple.map t.equality.root ∈ ys) :
    xs.length ≤ ys.length ∧
      (ys.length ≤ xs.length → ∀ tuple ∈ ys, ∃ old ∈ xs, old.map t.equality.root = tuple) := by
  have hnodup : (xs.map fun tuple => tuple.map t.equality.root).Nodup := by
    refine nodup.map_on fun tuple ht tuple' ht' he => ?_
    have hequal := h.roots_reflect valid valid' hcount (canonical tuple ht).1 (canonical tuple' ht').1 he
    rw [← (canonical tuple ht).2, ← (canonical tuple' ht').2]
    exact roots_eq hequal
  have hsub : (xs.map fun tuple => tuple.map t.equality.root) ⊆ ys := by
    intro tuple ht
    obtain ⟨old, hold, rfl⟩ := List.mem_map.mp ht
    exact image old hold
  have hle := hnodup.length_le_of_subset hsub
  rw [List.length_map] at hle
  refine ⟨hle, fun hge tuple ht => ?_⟩
  have hperm := (hnodup.subperm hsub).perm_of_length_le (by rwa [List.length_map])
  exact List.mem_map.mp (hperm.mem_iff.mpr ht)

include clean clean'

theorem Retains.operation_tables {op : Nat} {a b : OperationTable}
    (ha : s.operations[op]? = some a) (hb : t.operations[op]? = some b) :
    a.size ≤ b.size ∧ (b.size ≤ a.size →
      ∀ row ∈ b.rows, ∃ old ∈ a.rows, old.args.map t.equality.root = row.args) := by
  have hkeyed := valid.keyed a (List.mem_of_getElem? ha)
  have hcanonical : ∀ args ∈ a.rows.map Row.args,
      (∀ x ∈ args, x < s.size) ∧ args.map s.equality.root = args := by
    intro args hargs
    obtain ⟨row, hrow, rfl⟩ := List.mem_map.mp hargs
    have hhas : s.HasRow op row := ⟨a, ha, hrow⟩
    exact ⟨(valid.row_lt hhas).1, congrArg Row.args (valid.rowCanonical clean op row hhas)⟩
  have himage : ∀ args ∈ a.rows.map Row.args, args.map t.equality.root ∈ b.rows.map Row.args := by
    intro args hargs
    obtain ⟨row, hrow, rfl⟩ := List.mem_map.mp hargs
    obtain ⟨_, _, b', hb', hrow'⟩ := (valid'.applies_iff clean').mp (h.rows op row ⟨a, ha, hrow⟩)
    cases Option.some.inj (hb.symm.trans hb')
    exact List.mem_map_of_mem hrow'
  obtain ⟨hle, hold⟩ := h.image_tuples valid valid' hcount hkeyed hcanonical himage
  simp only [List.length_map] at hle hold
  refine ⟨hle, fun hge row hrow => ?_⟩
  obtain ⟨args, hargs, he⟩ := hold hge row.args (List.mem_map_of_mem hrow)
  obtain ⟨old, hmem, rfl⟩ := List.mem_map.mp hargs
  exact ⟨old, hmem, he⟩

theorem Retains.predicate_tables {pred : Nat} {a b : PredicateTable}
    (ha : s.predicates[pred]? = some a) (hb : t.predicates[pred]? = some b) : a.size ≤ b.size := by
  have hnodup := PredicateTable.rows_nodup (valid.unrepeated a (List.mem_of_getElem? ha))
  have hcanonical : ∀ tuple ∈ a.rows, (∀ x ∈ tuple, x < s.size) ∧ tuple.map s.equality.root = tuple :=
    fun tuple ht => ⟨valid.tuple_lt ⟨a, ha, ht⟩, valid.tupleCanonical clean pred tuple ⟨a, ha, ht⟩⟩
  refine (h.image_tuples valid valid' hcount hnodup hcanonical fun tuple ht => ?_).1
  obtain ⟨_, b', hb', ht'⟩ := (valid'.relates_iff clean').mp (h.tuples pred tuple ⟨a, ha, ht⟩)
  cases Option.some.inj (hb.symm.trans hb')
  exact ht'

theorem Retains.operation_sizes :
    List.Forall₂ (fun a b => OperationTable.size a ≤ OperationTable.size b) s.operations t.operations := by
  have hlen := valid'.operationArities.length_eq
  rw [h.signature] at hlen
  refine forall₂_of_getElem? (valid.operationArities.length_eq.symm.trans hlen) ?_
  exact fun op a b ha hb => (h.operation_tables valid clean valid' clean' hcount ha hb).1

theorem Retains.predicate_sizes :
    List.Forall₂ (fun a b => PredicateTable.size a ≤ PredicateTable.size b) s.predicates t.predicates := by
  have hlen := valid'.predicateArities.length_eq
  rw [h.signature] at hlen
  refine forall₂_of_getElem? (valid.predicateArities.length_eq.symm.trans hlen) ?_
  exact fun pred a b ha hb => h.predicate_tables valid clean valid' clean' hcount ha hb

theorem Retains.rowCount_le : s.rowCount ≤ t.rowCount := by
  have hops := total_le (h.operation_sizes valid clean valid' clean' hcount)
  have hpreds := total_le (h.predicate_sizes valid clean valid' clean' hcount)
  simp only [rowCount, operationRows, predicateRows]
  omega

/-- If there are no more facts either, then an operation is defined only where it was. -/
theorem Retains.applies_reflects (hrows : t.rowCount ≤ s.rowCount) {op x : Nat} {args : List Nat}
    (hargs : ∀ a ∈ args, a < s.size) (happlies : t.Applies op args x) : ∃ y, s.Applies op args y := by
  have hops := h.operation_sizes valid clean valid' clean' hcount
  have hle := total_le hops
  have hle' := total_le (h.predicate_sizes valid clean valid' clean' hcount)
  simp only [rowCount, operationRows, predicateRows] at hrows
  have hsame := eq_of_total_eq hops (by omega)
  obtain ⟨_, _, b, hb, hrow⟩ := (valid'.applies_iff clean').mp happlies
  obtain ⟨a, ha, hsize⟩ := forall₂_getElem? (forall₂_swap (fun _ _ he => Eq.symm he) hsame) hb
  obtain ⟨_, hreflects⟩ := h.operation_tables valid clean valid' clean' hcount ha hb
  obtain ⟨old, hold, he⟩ := hreflects (Nat.le_of_eq hsize) _ hrow
  have hhas : s.HasRow op old := ⟨a, ha, hold⟩
  have hlt := valid.row_lt hhas
  have hequal := h.roots_reflect valid valid' hcount hargs hlt.1 he.symm
  exact ⟨old.result, old, hhas, hequal, valid.equal_refl hlt.2⟩

end Retains

section Renewed

variable {s t u : Structure}

/-- What a rebuild makes equal is equal in every later structure whose merges have reached the
tables. -/
theorem Grows.equal_renewed (grows : s.Grows t) (valid : s.Valid) (valid' : t.Valid)
    (clean : t.dirty = false) {x y : Nat} (h : s.renewed.Equal x y) : t.Equal x y := by
  have hlt : ∀ z, z < s.size → z < t.size := fun z hz => Nat.lt_of_lt_of_le hz grows.size
  have congruence : s.Congruence fun x y => x = y ∨ t.Equal x y := by
    refine ⟨eq_or_equal_equivalence t, fun x y he => Or.inr (grows.equal x y he), ?_⟩
    intro op row row' hrow hrow' hargs
    have hequal := valid'.equal_all_of_or (fun x hx => hlt x ((valid.row_lt hrow).1 x hx)) hargs
    have hresult := valid'.equal_refl (hlt _ (valid.row_lt hrow).2)
    have happlies := (grows.rows op row hrow).congr hequal hresult
    exact Or.inr (valid'.applies_unique clean happlies (grows.rows op row' hrow'))
  rcases (renews_renewed valid).least _ congruence x y h with rfl | he
  · have hx := (renewed_valid valid).lt_size h
    exact valid'.equal_refl (hlt x (renewed_size valid ▸ hx))
  · exact he

section Later

variable (grows : s.Grows t) (valid : s.Valid) (valid' : t.Valid) (clean : t.dirty = false)

include grows valid valid' clean

/-- What is true after a rebuild is true in every later structure whose merges have reached the
tables. -/
theorem Grows.applies_renewed {op x : Nat} {args : List Nat} (h : s.renewed.Applies op args x) :
    t.Applies op args x := by
  have equal : ∀ x y, s.renewed.Equal x y → t.Equal x y := fun x y he =>
    grows.equal_renewed valid valid' clean he
  obtain ⟨row, hrow, hargs, hx⟩ := h
  obtain ⟨old, hold, hrowargs, hresult⟩ := (renews_renewed valid).rows op row hrow
  have hall := equal_all_trans hrowargs (equal_all_symm hargs)
  exact (grows.rows op old hold).congr (hall.imp equal) (equal _ _ (hresult.trans hx.symm))

theorem Grows.relates_renewed {pred : Nat} {args : List Nat} (h : s.renewed.Relates pred args) :
    t.Relates pred args := by
  obtain ⟨tuple, htuple, hargs⟩ := h
  obtain ⟨old, hold, hcells⟩ := (renews_renewed valid).tuples pred tuple htuple
  have hall := equal_all_trans hcells (equal_all_symm hargs)
  exact (grows.tuples pred old hold).congr
    (hall.imp fun _ _ he => grows.equal_renewed valid valid' clean he)

end Later

theorem Grows.retains_renewed (grows : s.Grows t) (valid : s.Valid) (valid' : t.Valid)
    (covers : s.Covers t) : s.renewed.Retains t.renewed := by
  have grows' := grows.trans (grows_renewed valid')
  have hvalid := renewed_valid valid
  have hvalid' := renewed_valid valid'
  have clean := renewed_dirty valid'
  refine ⟨grows'.signature.trans (renews_renewed valid).signature.symm, fun x y he => ?_,
    fun op row hrow => ?_, fun pred tuple ht => ?_, fun y hy => ?_⟩
  · exact grows'.equal_renewed valid hvalid' clean he
  · exact grows'.applies_renewed valid hvalid' clean (hvalid.applies_row hrow)
  · exact grows'.relates_renewed valid hvalid' clean (hvalid.relates_tuple ht)
  · rw [renewed_size valid'] at hy
    obtain ⟨x, hx, hxy⟩ := covers y hy
    exact ⟨x, renewed_size valid ▸ hx, (grows_renewed valid').equal x y hxy⟩

/-- What a step makes of a structure that introduces no values. Every element that it has created is
equal to an old one, and if there are any, then the structure has advanced. -/
structure Tightens (s t : Structure) : Prop where
  valid : t.Valid
  grows : s.Grows t
  covers : s.Covers t
  advances : t.size = s.size ∨ s.renewed.Advances t.renewed

theorem Tightens.of_size (valid : t.Valid) (grows : s.Grows t) (hsize : t.size = s.size) :
    s.Tightens t where
  valid := valid
  grows := grows
  covers y hy := ⟨y, hsize ▸ hy, valid.equal_refl hy⟩
  advances := Or.inl hsize

theorem Tightens.refl (valid : s.Valid) : s.Tightens s :=
  .of_size valid (.refl valid) rfl

theorem Tightens.renewed (valid : s.Valid) : s.Tightens s.renewed :=
  .of_size (renewed_valid valid) (grows_renewed valid) (renewed_size valid)

theorem Tightens.classCount_le (h : s.Tightens t) (valid : s.Valid) : t.classCount ≤ s.classCount :=
  Structure.classCount_le valid h.valid h.grows.equal h.covers

theorem Tightens.retains (h : s.Tightens t) (valid : s.Valid) : s.renewed.Retains t.renewed :=
  h.grows.retains_renewed valid h.valid h.covers

/-- A step never goes back. -/
theorem Tightens.ordered (h : s.Tightens t) (valid : s.Valid) :
    t.renewed.classCount ≤ s.renewed.classCount ∧
      (t.renewed.classCount = s.renewed.classCount → s.renewed.rowCount ≤ t.renewed.rowCount) := by
  have retains := h.retains valid
  have hvalid := renewed_valid valid
  have hvalid' := renewed_valid h.valid
  exact ⟨retains.classCount_le hvalid hvalid',
    retains.rowCount_le hvalid (renewed_dirty valid) hvalid' (renewed_dirty h.valid)⟩

theorem Tightens.trans (h : s.Tightens t) (h' : t.Tightens u) (valid : s.Valid) : s.Tightens u where
  valid := h'.valid
  grows := h.grows.trans h'.grows
  covers z hz := by
    obtain ⟨y, hy, hyz⟩ := h'.covers z hz
    obtain ⟨x, hx, hxy⟩ := h.covers y hy
    exact ⟨x, hx, (h'.grows.equal x y hxy).trans hyz⟩
  advances := by
    obtain ⟨hclasses, hrows⟩ := h.ordered valid
    obtain ⟨hclasses', hrows'⟩ := h'.ordered h.valid
    have hfirst := h.advances
    have hsecond := h'.advances
    unfold Advances at hfirst hsecond ⊢
    omega

end Renewed

end Structure

end PartialHorn
