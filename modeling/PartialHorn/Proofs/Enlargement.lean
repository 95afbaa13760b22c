import PartialHorn.Proofs.Growth

namespace PartialHorn

namespace Structure

section Extended

variable {s : Structure} (sort : Nat)

theorem extended_size : (s.extended sort).size = s.size + 1 := by
  simp [extended, size]

theorem extended_sort {x y : Nat} (h : s.sorts[x]? = some y) :
    (s.extended sort).sorts[x]? = some y := by
  rw [extended, List.getElem?_append_left (List.getElem?_eq_some_iff.mp h).1]
  exact h

theorem extended_sort_size : (s.extended sort).sorts[s.size]? = some sort :=
  List.getElem?_concat_length

variable (valid : s.Valid)

include valid

theorem extended_equal_cases {x y : Nat} (h : (s.extended sort).Equal x y) :
    s.Equal x y ∨ x = s.size ∧ y = s.size := by
  have hcases := Equality.grow_same_cases valid.partition h
  rwa [valid.tracked] at hcases

theorem extended_root {x : Nat} (hx : x < s.size) :
    (s.extended sort).equality.root x = s.equality.root x := by
  have hlt : x < s.equality.size := valid.tracked ▸ hx
  exact Equality.root_eq_of_getElem?
    ((Equality.grow_getElem?_of_lt hlt).trans (Equality.getElem?_root hlt))

theorem extended_root_size : (s.extended sort).equality.root s.size = s.size := by
  have h : s.equality.grow.reps[s.equality.size]? = some s.equality.size :=
    Equality.grow_getElem?_size
  rw [valid.tracked] at h
  exact Equality.root_eq_of_getElem? h

/-- The new element comes last in the carrier of its sort. -/
theorem extended_carriers : (s.extended sort).carriers =
    s.carriers.modify sort fun carrier => carrier ++ [s.size] := by
  refine List.ext_getElem? fun other => ?_
  rw [extended, List.getElem?_modify, List.getElem?_modify]
  cases hcarrier : s.carriers[other]? with
  | none => rfl
  | some carrier =>
    split
    next he =>
      have hmem : ∀ x ∈ carrier, x < s.size := by
        intro x hx
        have hmem : x ∈ s.carrier other := by rwa [Structure.carrier, carrier?, hcarrier]
        exact (List.getElem?_eq_some_iff.mp (valid.sort_of_mem_carrier hmem)).1
      have habove : Ascending.merge [s.size] carrier = carrier ++ [s.size] :=
        Ascending.merge_singleton_of_above fun x hx => by have := hmem x hx; omega
      simp [habove]
    next => rfl

theorem extended_carried : (s.extended sort).carriers =
    (List.range s.signature.sorts.length).map fun other =>
      positions (· == other) (s.sorts ++ [sort]) := by
  rw [extended_carriers sort valid, valid.carried]
  refine List.ext_getElem? fun other => ?_
  rw [List.getElem?_modify, List.getElem?_map, List.getElem?_map]
  cases hother : (List.range s.signature.sorts.length)[other]? with
  | none => rfl
  | some k =>
    obtain ⟨_, hk⟩ := List.getElem?_eq_some_iff.mp hother
    rw [List.getElem_range] at hk
    subst hk
    rw [Option.map_some, Option.map_some, positions_concat]
    by_cases he : sort = other
    · simp [he, size]
    · simp [he]

theorem extended_valid : (s.extended sort).Valid where
  partition := Equality.grow_valid valid.partition
  carried := extended_carried sort valid
  tracked := by
    have h := valid.tracked
    rw [extended_size, extended, Partition.grow_eq, Equality.grow_size]
    omega
  drained := valid.drained
  oneSort x y h := by
    rcases extended_equal_cases sort valid h with h | ⟨rfl, rfl⟩
    · rw [extended, List.getElem?_append_left (valid.lt_size h),
        List.getElem?_append_left (valid.lt_size h.symm)]
      exact valid.oneSort x y h
    · rfl
  operationArities := valid.operationArities
  predicateArities := valid.predicateArities
  keyed := valid.keyed
  unrepeated := valid.unrepeated
  rowTyped op row h := by
    obtain ⟨operation, hop, hargs, hresult⟩ := valid.rowTyped op row h
    exact ⟨operation, hop, hargs.imp fun _ _ => extended_sort sort, extended_sort sort hresult⟩
  tupleTyped pred tuple h := by
    obtain ⟨predicate, hpred, hargs⟩ := valid.tupleTyped pred tuple h
    exact ⟨predicate, hpred, hargs.imp fun _ _ => extended_sort sort⟩
  rowCanonical clean op row h := by
    obtain ⟨hargs, hresult⟩ := valid.row_lt h
    have hc := valid.rowCanonical clean op row h
    rw [Equality.canonical, extended_root sort valid hresult,
      List.map_congr_left fun x hx => extended_root sort valid (hargs x hx)]
    exact hc
  tupleCanonical clean pred tuple h := by
    rw [List.map_congr_left fun x hx => extended_root sort valid (valid.tuple_lt h x hx)]
    exact valid.tupleCanonical clean pred tuple h

theorem carriers_extended : List.Forall₂ (· <+: ·) s.carriers (s.extended sort).carriers := by
  rw [extended_carriers sort valid, List.forall₂_iff_get]
  refine ⟨(List.length_modify ..).symm, fun i hi hi' => ?_⟩
  simp only [List.get_eq_getElem, List.getElem_modify]
  split
  next => exact List.prefix_append _ _
  next => exact List.prefix_refl _

theorem extended_grows : s.Grows (s.extended sort) where
  signature := rfl
  sorts := List.prefix_append _ _
  carriers := carriers_extended sort valid
  merges := Nat.le_refl _
  equal _ _ h := Equality.grow_same h
  reps _ := List.prefix_append _ _
  operations := forall₂_of_mem fun a _ => .refl a
  predicates := forall₂_of_mem fun a _ => .refl a
  rows _ _ h := (extended_valid sort valid).applies_row (s := s.extended sort) h
  tuples _ _ h := (extended_valid sort valid).relates_tuple (s := s.extended sort) h
  steady clean _ := ⟨clean, .refl _ _⟩

end Extended

section WithRow

variable {s : Structure} {op : Nat} {row : Row} (fresh : s.result? op row.args = none)

theorem withRow_hasRow {f : Nat} {r : Row} (h : s.HasRow f r) : (s.withRow op row).HasRow f r := by
  obtain ⟨table, ht, hr⟩ := h
  by_cases he : op = f
  · subst he
    refine ⟨(table.insert row).2, ?_, OperationTable.mem_insert hr⟩
    rw [withRow, List.getElem?_modify_eq, ht]
    rfl
  · refine ⟨table, ?_, hr⟩
    rw [withRow, List.getElem?_modify_ne _ _ he]
    exact ht

theorem withRow_hasRow_cases {f : Nat} {r : Row} (h : (s.withRow op row).HasRow f r) :
    s.HasRow f r ∨ f = op ∧ r = row := by
  obtain ⟨table, ht, hr⟩ := h
  by_cases he : op = f
  · subst he
    rw [withRow, List.getElem?_modify_eq] at ht
    obtain ⟨old, hold, rfl⟩ := Option.map_eq_some_iff.mp ht
    exact (OperationTable.mem_insert_cases hr).imp (fun hr => ⟨old, hold, hr⟩) fun hr => ⟨rfl, hr⟩
  · rw [withRow, List.getElem?_modify_ne _ _ he] at ht
    exact Or.inl ⟨table, ht, hr⟩

include fresh in
theorem withRow_hasRow_self (hop : op < s.operations.length) :
    (s.withRow op row).HasRow op row := by
  have ht : s.operations[op]? = some s.operations[op] := List.getElem?_eq_getElem hop
  rw [result?, ht, Option.bind_some] at fresh
  refine ⟨(s.operations[op].insert row).2, ?_, ?_⟩
  · rw [withRow, List.getElem?_modify_eq, ht]
    rfl
  · rw [OperationTable.insert_of_not fresh]
    simp

variable (valid : s.Valid)

include valid

theorem withRow_valid {operation : Operation} (hop : s.signature.operations[op]? = some operation)
    (hargs : s.Typed row.args operation.domain)
    (hresult : s.sorts[row.result]? = some operation.codomain)
    (canonical : s.equality.canonical row = row) : (s.withRow op row).Valid where
  partition := valid.partition
  tracked := valid.tracked
  drained := valid.drained
  carried := valid.carried
  oneSort := valid.oneSort
  operationArities := forall₂_modify valid.operationArities
    (fun _ table h => (table.insert_precedes row).arity.trans h) op
  predicateArities := valid.predicateArities
  keyed table ht := by
    obtain ⟨i, hi⟩ := List.mem_iff_getElem?.mp ht
    by_cases he : op = i
    · subst he
      rw [withRow, List.getElem?_modify_eq] at hi
      obtain ⟨old, hold, rfl⟩ := Option.map_eq_some_iff.mp hi
      exact OperationTable.insert_keyed (valid.keyed old (List.mem_of_getElem? hold)) row
    · rw [withRow, List.getElem?_modify_ne _ _ he] at hi
      exact valid.keyed table (List.mem_of_getElem? hi)
  unrepeated := valid.unrepeated
  rowTyped f r h := by
    rcases withRow_hasRow_cases h with h | ⟨rfl, rfl⟩
    · exact valid.rowTyped f r h
    · exact ⟨operation, hop, hargs, hresult⟩
  tupleTyped := valid.tupleTyped
  rowCanonical clean f r h := by
    rcases withRow_hasRow_cases h with h | ⟨rfl, rfl⟩
    · exact valid.rowCanonical clean f r h
    · exact canonical
  tupleCanonical := valid.tupleCanonical

theorem withRow_grows : s.Grows (s.withRow op row) where
  signature := rfl
  sorts := List.prefix_refl _
  carriers := forall₂_of_mem fun _ _ => List.prefix_refl _
  merges := Nat.le_refl _
  equal _ _ h := h
  reps _ := List.prefix_refl _
  operations := forall₂_modify (forall₂_of_mem fun a _ => .refl a)
    (fun _ b h => h.trans (b.insert_precedes row)) op
  predicates := forall₂_of_mem fun a _ => .refl a
  rows _ r h := ⟨r, withRow_hasRow h, valid.equal_all_refl (valid.row_lt h).1,
    valid.equal_refl (valid.row_lt h).2⟩
  tuples _ tuple h := ⟨tuple, h, valid.equal_all_refl (valid.tuple_lt h)⟩
  steady clean _ := by
    refine ⟨clean, ?_, forall₂_of_mem fun _ _ => rfl⟩
    refine forall₂_modify (R := fun a b : OperationTable =>
      a.size + b.generation = b.size + a.generation) (forall₂_of_mem fun _ _ => rfl)
      (fun a b h => ?_) op
    have hsize := b.insert_size row
    omega

end WithRow

section WithTuple

variable {s : Structure} {pred : Nat} {tuple : List Nat}

theorem withTuple_hasTuple {p : Nat} {t : List Nat} (h : s.HasTuple p t) :
    (s.withTuple pred tuple).HasTuple p t := by
  obtain ⟨table, ht, hr⟩ := h
  by_cases he : pred = p
  · subst he
    refine ⟨(table.insert tuple).2, ?_, PredicateTable.mem_insert.mpr (Or.inr hr)⟩
    rw [withTuple, List.getElem?_modify_eq, ht]
    rfl
  · refine ⟨table, ?_, hr⟩
    rw [withTuple, List.getElem?_modify_ne _ _ he]
    exact ht

theorem withTuple_hasTuple_cases {p : Nat} {t : List Nat}
    (h : (s.withTuple pred tuple).HasTuple p t) : s.HasTuple p t ∨ p = pred ∧ t = tuple := by
  obtain ⟨table, ht, hr⟩ := h
  by_cases he : pred = p
  · subst he
    rw [withTuple, List.getElem?_modify_eq] at ht
    obtain ⟨old, hold, rfl⟩ := Option.map_eq_some_iff.mp ht
    rcases PredicateTable.mem_insert.mp hr with hr | hr
    · exact Or.inr ⟨rfl, hr⟩
    · exact Or.inl ⟨old, hold, hr⟩
  · rw [withTuple, List.getElem?_modify_ne _ _ he] at ht
    exact Or.inl ⟨table, ht, hr⟩

theorem withTuple_hasTuple_self (hpred : pred < s.predicates.length) :
    (s.withTuple pred tuple).HasTuple pred tuple := by
  have ht : s.predicates[pred]? = some s.predicates[pred] := List.getElem?_eq_getElem hpred
  refine ⟨(s.predicates[pred].insert tuple).2, ?_, PredicateTable.mem_insert.mpr (Or.inl rfl)⟩
  rw [withTuple, List.getElem?_modify_eq, ht]
  rfl

/-- A tuple that is in the extent already changes nothing. -/
theorem withTuple_of_hasTuple (h : s.HasTuple pred tuple) : s.withTuple pred tuple = s := by
  obtain ⟨table, ht, hr⟩ := h
  have hsame : s.predicates.modify pred (fun table => (table.insert tuple).2) = s.predicates := by
    refine List.ext_getElem? fun i => ?_
    by_cases he : pred = i
    · subst he
      rw [List.getElem?_modify_eq, ht]
      simp [PredicateTable.insert_of_mem hr]
    · rw [List.getElem?_modify_ne _ _ he]
  rw [withTuple, hsame]

variable (valid : s.Valid)

include valid

theorem withTuple_valid {predicate : Predicate}
    (hpred : s.signature.predicates[pred]? = some predicate)
    (hargs : s.Typed tuple predicate.domain)
    (canonical : tuple.map s.equality.root = tuple) : (s.withTuple pred tuple).Valid where
  partition := valid.partition
  tracked := valid.tracked
  drained := valid.drained
  carried := valid.carried
  oneSort := valid.oneSort
  operationArities := valid.operationArities
  predicateArities := forall₂_modify valid.predicateArities
    (fun _ table h => (table.insert_precedes tuple).arity.trans h) pred
  keyed := valid.keyed
  unrepeated table ht := by
    obtain ⟨i, hi⟩ := List.mem_iff_getElem?.mp ht
    by_cases he : pred = i
    · subst he
      rw [withTuple, List.getElem?_modify_eq] at hi
      obtain ⟨old, hold, rfl⟩ := Option.map_eq_some_iff.mp hi
      exact PredicateTable.insert_unrepeated
        (valid.unrepeated old (List.mem_of_getElem? hold)) tuple
    · rw [withTuple, List.getElem?_modify_ne _ _ he] at hi
      exact valid.unrepeated table (List.mem_of_getElem? hi)
  rowTyped := valid.rowTyped
  tupleTyped p t h := by
    rcases withTuple_hasTuple_cases h with h | ⟨rfl, rfl⟩
    · exact valid.tupleTyped p t h
    · exact ⟨predicate, hpred, hargs⟩
  rowCanonical := valid.rowCanonical
  tupleCanonical clean p t h := by
    rcases withTuple_hasTuple_cases h with h | ⟨rfl, rfl⟩
    · exact valid.tupleCanonical clean p t h
    · exact canonical

theorem withTuple_grows : s.Grows (s.withTuple pred tuple) where
  signature := rfl
  sorts := List.prefix_refl _
  carriers := forall₂_of_mem fun _ _ => List.prefix_refl _
  merges := Nat.le_refl _
  equal _ _ h := h
  reps _ := List.prefix_refl _
  operations := forall₂_of_mem fun a _ => .refl a
  predicates := forall₂_modify (forall₂_of_mem fun a _ => .refl a)
    (fun _ b h => h.trans (b.insert_precedes tuple)) pred
  rows _ r h := ⟨r, h, valid.equal_all_refl (valid.row_lt h).1,
    valid.equal_refl (valid.row_lt h).2⟩
  tuples _ t h := ⟨t, withTuple_hasTuple h, valid.equal_all_refl (valid.tuple_lt h)⟩
  steady clean _ := by
    refine ⟨clean, forall₂_of_mem fun _ _ => rfl, ?_⟩
    refine forall₂_modify (R := fun a b : PredicateTable => b.Unrepeated ∧
      a.size + b.generation = b.size + a.generation) (forall₂_of_mem fun a ha =>
        ⟨valid.unrepeated a ha, rfl⟩) (fun a b h => ?_) pred |>.imp fun _ _ h => h.2
    have hsize := PredicateTable.insert_size h.1 tuple
    exact ⟨PredicateTable.insert_unrepeated h.1 tuple, by omega⟩

end WithTuple

def joined (s : Structure) (merged : Bool) (equality : Equality) : Structure :=
  { s with equality, dirty := s.dirty || merged }

section Joined

variable {s : Structure} (valid : s.Valid) {x y : Nat} {merged : Bool} {equality : Equality}
  (merges : s.equality.Merges x y merged equality)

include merges in
theorem joined_of_unchanged (h : equality.merges = s.equality.merges) :
    s.joined merged equality = s := by
  have hcount := merges.counted
  have hfalse : merged = false := by
    cases merged with
    | false => rfl
    | true =>
      simp only [Bool.toNat_true] at hcount
      omega
  rw [joined, merges.coarsens.unchanged h, hfalse, Bool.or_false]

include valid merges

theorem joined_valid (hsort : s.sorts[x]? = s.sorts[y]?) : (s.joined merged equality).Valid where
  partition := merges.valid
  tracked := merges.coarsens.size.trans valid.tracked
  drained := merges.coarsens.pending.trans valid.drained
  carried := valid.carried
  oneSort u v h := by
    refine merges.least (fun u v => s.sorts[u]? = s.sorts[v]?) ?_ valid.oneSort hsort u v h
    exact ⟨fun _ => rfl, Eq.symm, Eq.trans⟩
  operationArities := valid.operationArities
  predicateArities := valid.predicateArities
  keyed := valid.keyed
  unrepeated := valid.unrepeated
  rowTyped := valid.rowTyped
  tupleTyped := valid.tupleTyped
  rowCanonical clean op row h := by
    obtain ⟨clean, hm⟩ := Bool.or_eq_false_iff.mp clean
    have hcount := merges.counted
    rw [hm, Bool.toNat_false] at hcount
    rw [joined_of_unchanged merges (by omega)]
    exact valid.rowCanonical clean op row h
  tupleCanonical clean pred tuple h := by
    obtain ⟨clean, hm⟩ := Bool.or_eq_false_iff.mp clean
    have hcount := merges.counted
    rw [hm, Bool.toNat_false] at hcount
    rw [joined_of_unchanged merges (by omega)]
    exact valid.tupleCanonical clean pred tuple h

theorem joined_grows : s.Grows (s.joined merged equality) where
  signature := rfl
  sorts := List.prefix_refl _
  carriers := forall₂_of_mem fun _ _ => List.prefix_refl _
  merges := merges.coarsens.merges
  equal := merges.coarsens.same
  reps h := (joined_of_unchanged merges h).symm ▸ List.prefix_refl _
  operations := forall₂_of_mem fun a _ => .refl a
  predicates := forall₂_of_mem fun a _ => .refl a
  rows _ row h := by
    refine ⟨row, h, ?_, merges.coarsens.same _ _ (valid.equal_refl (valid.row_lt h).2)⟩
    exact (valid.equal_all_refl (valid.row_lt h).1).imp merges.coarsens.same
  tuples _ tuple h := by
    refine ⟨tuple, h, ?_⟩
    exact (valid.equal_all_refl (valid.tuple_lt h)).imp merges.coarsens.same
  steady clean h := by
    rw [joined_of_unchanged merges h]
    exact ⟨clean, .refl _ _⟩

end Joined

end Structure

end PartialHorn
