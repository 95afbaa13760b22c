import PartialHorn.Proofs.Validity

namespace PartialHorn

theorem total_le {α β : Type} {f : α → Nat} {g : β → Nat} {xs : List α} {ys : List β}
    (h : List.Forall₂ (fun x y => f x ≤ g y) xs ys) : total f xs ≤ total g ys := by
  induction h with
  | nil => exact Nat.le_refl _
  | cons hab _ ih =>
    simp only [total_cons]
    omega

/-- Sums that agree leave no room between summands that are ordered one by one. -/
theorem eq_of_total_eq {α β : Type} {f : α → Nat} {g : β → Nat} {xs : List α} {ys : List β}
    (h : List.Forall₂ (fun x y => f x ≤ g y) xs ys) (he : total f xs = total g ys) :
    List.Forall₂ (fun x y => f x = g y) xs ys := by
  induction h with
  | nil => exact .nil
  | cons hab hrest ih =>
    have hle := total_le hrest
    simp only [total_cons] at he
    exact .cons (by omega) (ih (by omega))

namespace Structure

/-- Every row that a table has gained has moved its generation. -/
def Gains (operations operations' : List OperationTable)
    (predicates predicates' : List PredicateTable) : Prop :=
  List.Forall₂ (fun a b : OperationTable => a.size + b.generation = b.size + a.generation)
      operations operations' ∧
    List.Forall₂ (fun a b : PredicateTable => a.size + b.generation = b.size + a.generation)
      predicates predicates'

theorem Gains.refl (as : List OperationTable) (ps : List PredicateTable) : Gains as as ps ps :=
  ⟨forall₂_of_mem fun _ _ => rfl, forall₂_of_mem fun _ _ => rfl⟩

theorem Gains.trans {as bs cs : List OperationTable} {ps qs rs : List PredicateTable}
    (h : Gains as bs ps qs) (h' : Gains bs cs qs rs) : Gains as cs ps rs := by
  refine ⟨forall₂_trans (fun a b c hab hbc => ?_) h.1 h'.1,
    forall₂_trans (fun a b c hab hbc => ?_) h.2 h'.2⟩
  · omega
  · omega

/-- What any sequence of calls makes of a structure. Elements stay, equal elements stay equal, and
what was true stays true under the new representatives. As long as no classes are merged, a clean
structure stays clean and only gains rows. -/
structure Grows (s t : Structure) : Prop where
  signature : t.signature = s.signature
  sorts : s.sorts <+: t.sorts
  carriers : List.Forall₂ (· <+: ·) s.carriers t.carriers
  merges : s.equality.merges ≤ t.equality.merges
  equal : ∀ x y, s.Equal x y → t.Equal x y
  reps : t.equality.merges = s.equality.merges → s.equality.reps <+: t.equality.reps
  operations : List.Forall₂ OperationTable.Precedes s.operations t.operations
  predicates : List.Forall₂ PredicateTable.Precedes s.predicates t.predicates
  rows : ∀ op row, s.HasRow op row → t.Applies op row.args row.result
  tuples : ∀ pred tuple, s.HasTuple pred tuple → t.Relates pred tuple
  steady : s.dirty = false → t.equality.merges = s.equality.merges →
    t.dirty = false ∧ Gains s.operations t.operations s.predicates t.predicates

namespace Grows

theorem refl {s : Structure} (valid : s.Valid) : s.Grows s where
  signature := rfl
  sorts := List.prefix_refl _
  carriers := forall₂_of_mem fun _ _ => List.prefix_refl _
  merges := Nat.le_refl _
  equal _ _ h := h
  reps _ := List.prefix_refl _
  operations := forall₂_of_mem fun a _ => .refl a
  predicates := forall₂_of_mem fun a _ => .refl a
  rows _ _ h := valid.applies_row h
  tuples _ _ h := valid.relates_tuple h
  steady clean _ := ⟨clean, .refl _ _⟩

variable {s t u : Structure}

theorem equal_all (h : s.Grows t) {xs ys : List Nat} (hxy : List.Forall₂ s.Equal xs ys) :
    List.Forall₂ t.Equal xs ys :=
  hxy.imp fun _ _ he => h.equal _ _ he

theorem applies (h : s.Grows t) {op x : Nat} {args : List Nat} (ha : s.Applies op args x) :
    t.Applies op args x := by
  obtain ⟨row, hrow, hargs, hx⟩ := ha
  exact (h.rows op row hrow).congr (h.equal_all (equal_all_symm hargs)) (h.equal _ _ hx).symm

theorem relates (h : s.Grows t) {pred : Nat} {args : List Nat} (hr : s.Relates pred args) :
    t.Relates pred args := by
  obtain ⟨tuple, htuple, hargs⟩ := hr
  exact (h.tuples pred tuple htuple).congr (h.equal_all (equal_all_symm hargs))

theorem trans (h : s.Grows t) (h' : t.Grows u) : s.Grows u where
  signature := h'.signature.trans h.signature
  sorts := h.sorts.trans h'.sorts
  carriers := forall₂_trans (fun _ _ _ => .trans) h.carriers h'.carriers
  merges := Nat.le_trans h.merges h'.merges
  equal x y he := h'.equal x y (h.equal x y he)
  reps he := by
    have hle := h.merges
    have hle' := h'.merges
    exact (h.reps (by omega)).trans (h'.reps (by omega))
  operations := forall₂_trans (fun _ _ _ => .trans) h.operations h'.operations
  predicates := forall₂_trans (fun _ _ _ => .trans) h.predicates h'.predicates
  rows op row hrow := h'.applies (h.rows op row hrow)
  tuples pred tuple htuple := h'.relates (h.tuples pred tuple htuple)
  steady clean he := by
    have hle := h.merges
    have hle' := h'.merges
    obtain ⟨clean', hgains⟩ := h.steady clean (by omega)
    obtain ⟨clean'', hgains'⟩ := h'.steady clean' (by omega)
    exact ⟨clean'', hgains.trans hgains'⟩

theorem size (h : s.Grows t) : s.size ≤ t.size :=
  h.sorts.length_le

theorem sort (h : s.Grows t) {x sort : Nat} (hx : s.sorts[x]? = some sort) :
    t.sorts[x]? = some sort := by
  obtain ⟨rest, hrest⟩ := h.sorts
  rw [← hrest, List.getElem?_append_left (List.getElem?_eq_some_iff.mp hx).1]
  exact hx

theorem typed (h : s.Grows t) {xs sorts : List Nat} (hx : s.Typed xs sorts) : t.Typed xs sorts :=
  hx.imp fun _ _ hs => h.sort hs

theorem operation_sizes (h : s.Grows t) (clean : s.dirty = false)
    (he : t.equality.merges = s.equality.merges) :
    List.Forall₂ (fun a b => OperationTable.size a ≤ OperationTable.size b)
      s.operations t.operations :=
  (forall₂_and h.operations (h.steady clean he).2.1).imp fun a b hab => by
    have := hab.1.generation
    omega

theorem predicate_sizes (h : s.Grows t) (clean : s.dirty = false)
    (he : t.equality.merges = s.equality.merges) :
    List.Forall₂ (fun a b => PredicateTable.size a ≤ PredicateTable.size b)
      s.predicates t.predicates :=
  (forall₂_and h.predicates (h.steady clean he).2.2).imp fun a b hab => by
    have := hab.1.generation
    omega

theorem rowCount_le (h : s.Grows t) (clean : s.dirty = false)
    (he : t.equality.merges = s.equality.merges) : s.rowCount ≤ t.rowCount := by
  have hops := total_le (h.operation_sizes clean he)
  have hpreds := total_le (h.predicate_sizes clean he)
  simp only [rowCount, operationRows, predicateRows]
  omega

/-- The footprint of a clean structure tells every change. -/
theorem eq_of_footprint (h : s.Grows t) (valid : s.Valid) (valid' : t.Valid)
    (clean : s.dirty = false) (he : t.footprint = s.footprint) : t = s := by
  have hsize : t.size = s.size := congrArg (·.1) he
  have hmerges : t.equality.merges = s.equality.merges := congrArg (·.2.1) he
  have hrows : t.rowCount = s.rowCount := congrArg (·.2.2) he
  obtain ⟨clean', hops, hpreds⟩ := h.steady clean hmerges
  have hsorts : s.sorts = t.sorts := h.sorts.eq_of_length hsize.symm
  have hcarriers : t.carriers = s.carriers := by
    rw [valid'.carried, valid.carried, h.signature, hsorts]
  have hreps : s.equality.reps = t.equality.reps := (h.reps hmerges).eq_of_length (by
    have hs := valid.tracked
    have ht := valid'.tracked
    simp only [Equality.size] at hs ht
    omega)
  have hle := total_le (h.operation_sizes clean hmerges)
  have hle' := total_le (h.predicate_sizes clean hmerges)
  simp only [rowCount, operationRows, predicateRows] at hrows
  have hopsize := eq_of_total_eq (h.operation_sizes clean hmerges) (by omega)
  have hpredsize := eq_of_total_eq (h.predicate_sizes clean hmerges) (by omega)
  have hoperations : s.operations = t.operations := by
    refine List.forall₂_eq_eq_eq ▸ (forall₂_and (forall₂_and h.operations hops) hopsize).imp ?_
    rintro a b ⟨⟨hp, hg⟩, hs⟩
    exact (hp.unchanged (by omega)).symm
  have hpredicates : s.predicates = t.predicates := by
    refine List.forall₂_eq_eq_eq ▸ (forall₂_and (forall₂_and h.predicates hpreds) hpredsize).imp ?_
    rintro a b ⟨⟨hp, hg⟩, hs⟩
    exact (hp.unchanged (by omega)).symm
  have hequality : t.equality = s.equality := by
    have hp := valid.drained
    have hp' := valid'.drained
    cases hs : s.equality
    cases ht : t.equality
    simp_all
  cases s
  cases t
  have hsig := h.signature
  simp_all

/-- A structure that lies between a clean one and an unchanged one is unchanged too. -/
theorem eq_of_between (h : s.Grows t) (h' : t.Grows u) (valid : s.Valid) (valid' : t.Valid)
    (clean : s.dirty = false) (he : u.footprint = s.footprint) : t = s := by
  refine h.eq_of_footprint valid valid' clean ?_
  have hsize : u.size = s.size := congrArg (·.1) he
  have hmerges : u.equality.merges = s.equality.merges := congrArg (·.2.1) he
  have hrows : u.rowCount = s.rowCount := congrArg (·.2.2) he
  have hle := h.size
  have hle' := h'.size
  have hm := h.merges
  have hm' := h'.merges
  have hmt : t.equality.merges = s.equality.merges := by omega
  have clean' := (h.steady clean hmt).1
  have hr := h.rowCount_le clean hmt
  have hr' := h'.rowCount_le clean' (by omega)
  have hst : t.size = s.size := by omega
  have hrt : t.rowCount = s.rowCount := by omega
  simp only [footprint, Partition.merges_eq, hst, hmt, hrt]

end Grows

end Structure

end PartialHorn
