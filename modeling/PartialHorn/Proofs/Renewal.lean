import PartialHorn.Proofs.Growth

namespace PartialHorn

namespace Structure

/-- An equivalence that contains the partition and respects the rows of the operations. -/
structure Congruence (s : Structure) (R : Nat → Nat → Prop) : Prop where
  equivalence : Equivalence R
  equal : ∀ x y, s.Equal x y → R x y
  rows : ∀ op row row', s.HasRow op row → s.HasRow op row' → List.Forall₂ R row.args row'.args →
    R row.result row'.result

/-- What a rebuild makes of a structure. The elements and the facts are the old ones under new
representatives, and only what a congruence cannot tell apart has become equal. -/
structure Renews (s t : Structure) : Prop where
  signature : t.signature = s.signature
  sorts : t.sorts = s.sorts
  rows : ∀ op row, t.HasRow op row → ∃ old, s.HasRow op old ∧
    List.Forall₂ t.Equal old.args row.args ∧ t.Equal old.result row.result
  tuples : ∀ pred tuple, t.HasTuple pred tuple → ∃ old, s.HasTuple pred old ∧
    List.Forall₂ t.Equal old tuple
  least : ∀ R, s.Congruence R → ∀ x y, t.Equal x y → R x y
  rowCount : t.rowCount ≤ s.rowCount

theorem Renews.congruence {s t : Structure} (h : s.Renews t) {R : Nat → Nat → Prop}
    (hR : s.Congruence R) : t.Congruence R where
  equivalence := hR.equivalence
  equal := h.least R hR
  rows op row row' hrow hrow' hargs := by
    obtain ⟨old, hold, hoa, hor⟩ := h.rows op row hrow
    obtain ⟨old', hold', hoa', hor'⟩ := h.rows op row' hrow'
    have hsub := h.least R hR
    have htrans : ∀ x y z, R x y → R y z → R x z := fun _ _ _ => hR.equivalence.trans
    have hleft : List.Forall₂ R old.args row.args := hoa.imp hsub
    have hright : List.Forall₂ R row'.args old'.args :=
      forall₂_swap (fun _ _ hxy => hR.equivalence.symm (hsub _ _ hxy)) hoa'
    have hres := hR.rows op old old' hold hold'
      (forall₂_trans htrans (forall₂_trans htrans hleft hargs) hright)
    exact htrans _ _ _ (hR.equivalence.symm (hsub _ _ hor)) (htrans _ _ _ hres (hsub _ _ hor'))

theorem Renews.refl {s : Structure} (valid : s.Valid) : s.Renews s where
  signature := rfl
  sorts := rfl
  rows _ row h := ⟨row, h, valid.equal_all_refl (valid.row_lt h).1,
    valid.equal_refl (valid.row_lt h).2⟩
  tuples _ tuple h := ⟨tuple, h, valid.equal_all_refl (valid.tuple_lt h)⟩
  least _ hR := hR.equal
  rowCount := Nat.le_refl _

theorem Renews.trans {s t u : Structure} (h : s.Renews t) (h' : t.Renews u) (grows : t.Grows u) :
    s.Renews u where
  signature := h'.signature.trans h.signature
  sorts := h'.sorts.trans h.sorts
  rows op row hrow := by
    obtain ⟨mid, hmid, hma, hmr⟩ := h'.rows op row hrow
    obtain ⟨old, hold, hoa, hor⟩ := h.rows op mid hmid
    exact ⟨old, hold, equal_all_trans (grows.equal_all hoa) hma, (grows.equal _ _ hor).trans hmr⟩
  tuples pred tuple ht := by
    obtain ⟨mid, hmid, hm⟩ := h'.tuples pred tuple ht
    obtain ⟨old, hold, ho⟩ := h.tuples pred mid hmid
    exact ⟨old, hold, equal_all_trans (grows.equal_all ho) hm⟩
  least R hR := h'.least R (h.congruence hR)
  rowCount := Nat.le_trans h'.rowCount h.rowCount

structure Round (s : Structure) (merges : Nat) (equations : List Equation) (t : Structure) : Prop where
  signature : t.signature = s.signature
  sorts : t.sorts = s.sorts
  carriers : t.carriers = s.carriers
  operations : List.Forall₂ (OperationTable.Refreshed s.equality equations) s.operations t.operations
  predicates : List.Forall₂ (PredicateTable.Refreshed s.equality) s.predicates t.predicates
  collisions : ∀ e ∈ equations, ∃ table ∈ s.operations, OperationTable.Collides s.equality table e
  dirty : t.dirty = decide (0 < merges)
  partition : t.equality.Valid
  coarsens : s.equality.Coarsens t.equality
  counted : t.equality.merges = s.equality.merges + merges
  joined : ∀ e ∈ equations, t.Equal e.lhs e.rhs
  least : ∀ R : Nat → Nat → Prop, Equivalence R → (∀ x y, s.Equal x y → R x y) →
    (∀ e ∈ equations, R e.lhs e.rhs) → ∀ x y, t.Equal x y → R x y

theorem drain_queued {eq : Equality} (drained : eq.pending = []) (es : List Equation) :
    Equality.drain { eq with pending := eq.pending ++ es } = eq.mergeEach es := by
  obtain ⟨reps, merges, pending⟩ := eq
  simp only at drained
  subst drained
  rfl

theorem Equality.settle_eq {eq eq' : Equality} (drained : eq.pending = []) {es : List Equation}
    {flags : List Bool} (h : eq.mergeEach es = (flags.map .ok, eq')) :
    eq.settle es = .ok (flags.count true, eq') := by
  have hflags : (flags.map Except.ok : List (Except ContractError Bool)).mapM id = .ok flags :=
    mapM_eq_ok_iff.mpr (List.forall₂_map_left_iff.mpr (List.forall₂_same.mpr fun _ _ => rfl))
  simp only [Equality.settle, drain_queued drained es, h, hflags]
  rfl

section Round

variable {s : Structure} (valid : s.Valid)

include valid

theorem Valid.known_operations : ∀ table ∈ s.operations, table.Known s.equality := by
  intro table ht row hrow
  obtain ⟨op, hop⟩ := List.mem_iff_getElem?.mp ht
  have hlt := valid.row_lt ⟨table, hop, hrow⟩
  rw [valid.tracked]
  exact hlt

theorem Valid.known_predicates : ∀ table ∈ s.predicates, table.Known s.equality := by
  intro table ht tuple htuple
  obtain ⟨pred, hpred⟩ := List.mem_iff_getElem?.mp ht
  have hlt := valid.tuple_lt ⟨table, hpred, htuple⟩
  rw [valid.tracked]
  exact hlt

/-- The side of an equation is the representative of the result of some row. -/
theorem collides_known {table : OperationTable} {e : Equation} (ht : table ∈ s.operations)
    (h : OperationTable.Collides s.equality table e) :
    e.lhs < s.equality.size ∧ e.rhs < s.equality.size := by
  obtain ⟨row, hrow, row', hrow', _, hl, hr⟩ := h
  have known := valid.known_operations table ht
  have side : ∀ x, x < s.equality.size → s.equality.root x < s.equality.size := fun x hx =>
    Equality.Same.lt_right (Equality.same_root valid.partition hx)
  exact ⟨hl ▸ side _ (known row hrow).2, hr ▸ side _ (known row' hrow').2⟩

theorem round_spec : ∃ merges equations t, s.round = .ok (merges, t) ∧
    s.Round merges equations t := by
  obtain ⟨ops, es, hops, hrefreshed, hcollides⟩ :=
    OperationTable.refreshFrom_refreshed valid.keyed valid.known_operations 0
  have hrefresh : ∀ table ∈ s.predicates, ∃ table', table.refresh s.equality.find = .ok table' ∧
      PredicateTable.Refreshed s.equality table table' := fun table ht =>
    PredicateTable.refresh_refreshed (valid.unrepeated table ht) (valid.known_predicates table ht)
  obtain ⟨preds, hpreds⟩ := forall₂_exists hrefresh
  have hmap : s.predicates.mapM (·.refresh s.equality.find) = .ok preds :=
    mapM_eq_ok_iff.mpr (hpreds.imp fun _ _ h => h.1)
  have known : ∀ e ∈ es, e.lhs < s.equality.size ∧ e.rhs < s.equality.size := fun e he => by
    obtain ⟨table, ht, hc⟩ := hcollides e he
    exact collides_known valid ht hc
  obtain ⟨flags, eq', hmerge, hvalid, hcoarse, hcount, hjoin, hleast⟩ :=
    Equality.mergeEach_spec valid.partition es known
  refine ⟨flags.count true, es,
    { s with
      equality := eq'
      operations := ops
      predicates := preds
      dirty := decide (0 < flags.count true) },
    ?_, rfl, rfl, rfl, hrefreshed, hpreds.imp fun _ _ h => h.2, hcollides, rfl, hvalid, hcoarse, hcount,
    hjoin, hleast⟩
  refine except_bind_eq_ok.mpr ⟨(ops, es), hops, except_bind_eq_ok.mpr ⟨preds, hmap, ?_⟩⟩
  exact except_bind_eq_ok.mpr ⟨_, Equality.settle_eq valid.drained hmerge, rfl⟩

theorem canonical_canonical {row : Row} (hargs : ∀ x ∈ row.args, x < s.size)
    (hresult : row.result < s.size) :
    s.equality.canonical (s.equality.canonical row) = s.equality.canonical row := by
  have hroot : ∀ x, x < s.size → s.equality.root (s.equality.root x) = s.equality.root x :=
    fun x hx => (root_eq (valid.equal_root hx)).symm
  exact Equality.canonical_canonical (fun x hx => hroot x (hargs x hx)) (hroot _ hresult)

end Round

namespace Round

variable {s t : Structure} {merges : Nat} {equations : List Equation}
  (round : s.Round merges equations t)

include round

theorem row {op : Nat} {row : Row} (h : t.HasRow op row) :
    ∃ old, s.HasRow op old ∧ row = s.equality.canonical old := by
  obtain ⟨table', ht', hrow⟩ := h
  obtain ⟨table, ht, hr⟩ := forall₂_getElem? (forall₂_swap (fun _ _ h => h) round.operations) ht'
  obtain ⟨old, hold, he⟩ := hr.origin row hrow
  exact ⟨old, ⟨table, ht, hold⟩, he⟩

theorem tuple {pred : Nat} {tuple : List Nat} (h : t.HasTuple pred tuple) :
    ∃ old, s.HasTuple pred old ∧ tuple = old.map s.equality.root := by
  obtain ⟨table', ht', htuple⟩ := h
  obtain ⟨table, ht, hr⟩ := forall₂_getElem? (forall₂_swap (fun _ _ h => h) round.predicates) ht'
  obtain ⟨old, hold, he⟩ := (hr.rows tuple).mp htuple
  exact ⟨old, ⟨table, ht, hold⟩, he⟩

theorem equal {x y : Nat} (h : s.Equal x y) : t.Equal x y :=
  round.coarsens.same x y h

variable (valid : s.Valid)

include valid

/-- The canonical form of a row is there, or has given way to a row with the same arguments, and
then the two results were merged. -/
theorem covers {op : Nat} {row : Row} (h : s.HasRow op row) :
    ∃ new, t.HasRow op new ∧ new.args = row.args.map s.equality.root ∧
      t.Equal row.result new.result := by
  have hroot := round.equal (valid.equal_root (valid.row_lt h).2)
  obtain ⟨table, ht, hrow⟩ := h
  obtain ⟨table', ht', hr⟩ := forall₂_getElem? round.operations ht
  obtain ⟨new, hnew, hargs, hres⟩ := hr.covered row hrow
  refine ⟨new, ⟨table', ht', hnew⟩, hargs, ?_⟩
  rcases hres with hres | ⟨e, he, hl, hr'⟩
  · exact hres ▸ hroot
  · have hj := round.joined e he
    rw [hl, hr'] at hj
    exact hroot.trans hj.symm

theorem applies {op : Nat} {row : Row} (h : s.HasRow op row) :
    t.Applies op row.args row.result := by
  obtain ⟨new, hnew, hargs, hres⟩ := round.covers valid h
  refine ⟨new, hnew, ?_, hres⟩
  rw [hargs]
  exact (valid.equal_all_root (valid.row_lt h).1).imp fun _ _ he => round.equal he

theorem relates {pred : Nat} {tuple : List Nat} (h : s.HasTuple pred tuple) :
    t.Relates pred tuple := by
  have hlt := valid.tuple_lt h
  obtain ⟨table, ht, htuple⟩ := h
  obtain ⟨table', ht', hr⟩ := forall₂_getElem? round.predicates ht
  refine ⟨_, ⟨table', ht', (hr.rows _).mpr ⟨tuple, htuple, rfl⟩⟩, ?_⟩
  exact (valid.equal_all_root hlt).imp fun _ _ he => round.equal he

theorem root_sort {x : Nat} {sort : Nat} (h : s.sorts[x]? = some sort) :
    t.sorts[s.equality.root x]? = some sort := by
  rw [round.sorts]
  exact valid.equal_sort (valid.equal_root (List.getElem?_eq_some_iff.mp h).1) h

theorem typed {xs sorts : List Nat} (h : s.Typed xs sorts) :
    t.Typed (xs.map s.equality.root) sorts :=
  List.forall₂_map_left_iff.mpr (h.imp fun _ _ => round.root_sort valid)

/-- Both sides of an equation are results of one operation, so they have one sort. -/
theorem oneSort {x y : Nat} (h : t.Equal x y) : t.sorts[x]? = t.sorts[y]? := by
  rw [round.sorts]
  refine round.least (fun x y => s.sorts[x]? = s.sorts[y]?) ?_ valid.oneSort ?_ x y h
  · exact ⟨fun _ => rfl, Eq.symm, Eq.trans⟩
  · intro e he
    obtain ⟨table, ht, row, hrow, row', hrow', _, hl, hr⟩ := round.collisions e he
    obtain ⟨op, hop⟩ := List.mem_iff_getElem?.mp ht
    obtain ⟨operation, hoper, _, hsort⟩ := valid.rowTyped op row ⟨table, hop, hrow⟩
    obtain ⟨operation', hoper', _, hsort'⟩ := valid.rowTyped op row' ⟨table, hop, hrow'⟩
    cases Option.some.inj (hoper.symm.trans hoper')
    have hroot := round.root_sort valid hsort
    have hroot' := round.root_sort valid hsort'
    rw [round.sorts] at hroot hroot'
    rw [hl, hr, hroot, hroot']

theorem after_valid : t.Valid where
  partition := round.partition
  tracked := by
    rw [round.coarsens.size, valid.tracked, size, size, round.sorts]
  drained := round.coarsens.pending.trans valid.drained
  carried := by rw [round.carriers, round.signature, round.sorts, valid.carried]
  oneSort _ _ := round.oneSort valid
  operationArities := by
    rw [round.signature]
    refine forall₂_trans (fun _ _ _ ha hr => ?_) valid.operationArities round.operations
    exact hr.precedes.arity.trans ha
  predicateArities := by
    rw [round.signature]
    refine forall₂_trans (fun _ _ _ ha hr => ?_) valid.predicateArities round.predicates
    exact hr.precedes.arity.trans ha
  keyed table ht := by
    obtain ⟨_, _, hr⟩ := forall₂_left_of_mem round.operations ht
    exact hr.keyed
  unrepeated table ht := by
    obtain ⟨_, _, hr⟩ := forall₂_left_of_mem round.predicates ht
    exact hr.unrepeated
  rowTyped op row h := by
    obtain ⟨old, hold, rfl⟩ := round.row h
    obtain ⟨operation, hoper, hargs, hresult⟩ := valid.rowTyped op old hold
    rw [round.signature]
    exact ⟨operation, hoper, round.typed valid hargs, round.root_sort valid hresult⟩
  tupleTyped pred tuple h := by
    obtain ⟨old, hold, rfl⟩ := round.tuple h
    obtain ⟨predicate, hpred, hargs⟩ := valid.tupleTyped pred old hold
    rw [round.signature]
    exact ⟨predicate, hpred, round.typed valid hargs⟩
  rowCanonical clean op row h := by
    have hzero : ¬0 < merges := of_decide_eq_false (round.dirty.symm.trans clean)
    have hcount := round.counted
    obtain ⟨old, hold, rfl⟩ := round.row h
    rw [round.coarsens.unchanged (by omega)]
    exact canonical_canonical valid (valid.row_lt hold).1 (valid.row_lt hold).2
  tupleCanonical clean pred tuple h := by
    have hzero : ¬0 < merges := of_decide_eq_false (round.dirty.symm.trans clean)
    have hcount := round.counted
    obtain ⟨old, hold, rfl⟩ := round.tuple h
    rw [round.coarsens.unchanged (by omega), List.map_map]
    exact List.map_congr_left fun x hx => (root_eq (valid.equal_root (valid.tuple_lt hold x hx))).symm

theorem grows (dirty : s.dirty = true) : s.Grows t where
  signature := round.signature
  sorts := round.sorts.symm ▸ List.prefix_refl _
  carriers := round.carriers.symm ▸ forall₂_of_mem fun _ _ => List.prefix_refl _
  merges := round.coarsens.merges
  equal _ _ := round.equal
  reps he := (round.coarsens.unchanged he).symm ▸ List.prefix_refl _
  operations := round.operations.imp fun _ _ h => h.precedes
  predicates := round.predicates.imp fun _ _ h => h.precedes
  rows _ _ := round.applies valid
  tuples _ _ := round.relates valid
  steady clean := by
    rw [dirty] at clean
    exact nomatch clean

theorem renews : s.Renews t where
  signature := round.signature
  sorts := round.sorts
  rows op row h := by
    obtain ⟨old, hold, rfl⟩ := round.row h
    obtain ⟨hargs, hresult⟩ := valid.row_lt hold
    refine ⟨old, hold, ?_, round.equal (valid.equal_root hresult)⟩
    exact (valid.equal_all_root hargs).imp fun _ _ he => round.equal he
  tuples pred tuple h := by
    obtain ⟨old, hold, rfl⟩ := round.tuple h
    refine ⟨old, hold, ?_⟩
    exact (valid.equal_all_root (valid.tuple_lt hold)).imp fun _ _ he => round.equal he
  least R hR := by
    refine round.least R hR.equivalence hR.equal fun e he => ?_
    obtain ⟨table, ht, row, hrow, row', hrow', hargs, hl, hr⟩ := round.collisions e he
    obtain ⟨op, hop⟩ := List.mem_iff_getElem?.mp ht
    have hrow : s.HasRow op row := ⟨table, hop, hrow⟩
    have hrow' : s.HasRow op row' := ⟨table, hop, hrow'⟩
    have hroot : ∀ x, x < s.size → R x (s.equality.root x) := fun x hx =>
      hR.equal _ _ (valid.equal_root hx)
    have hcanon : ∀ r, s.HasRow op r → List.Forall₂ R r.args (r.args.map s.equality.root) :=
      fun r h => forall₂_map_right fun x hx => hroot x ((valid.row_lt h).1 x hx)
    have htrans : ∀ x y z, R x y → R y z → R x z := fun _ _ _ => hR.equivalence.trans
    have hback := forall₂_swap (fun _ _ => hR.equivalence.symm) (hcanon row' hrow')
    have hres := hR.rows op row row' hrow hrow'
      (forall₂_trans htrans (hargs ▸ hcanon row hrow) hback)
    rw [hl, hr]
    exact htrans _ _ _ (hR.equivalence.symm (hroot _ (valid.row_lt hrow).2))
      (htrans _ _ _ hres (hroot _ (valid.row_lt hrow').2))
  rowCount := by
    have hops := total_le (f := OperationTable.size) (g := OperationTable.size)
      (forall₂_swap (fun _ _ h => h.size) round.operations)
    have hpreds := total_le (f := PredicateTable.size) (g := PredicateTable.size)
      (forall₂_swap (fun _ _ h => h.size) round.predicates)
    simp only [rowCount, operationRows, predicateRows]
    omega

end Round

theorem rounds_clean {s : Structure} (clean : s.dirty = false) (most : Nat) :
    s.rounds most = .ok (0, s) :=
  repeated_finished clean most

theorem rounds_dirty {s next last : Structure} {merges more most : Nat} (dirty : s.dirty = true)
    (one : s.round = .ok (merges, next)) (rest : next.rounds most = .ok (more, last)) :
    s.rounds (most + 1) = .ok (merges + more, last) := by
  have hrest : repeated Structure.dirty round most next = .ok (more, last) := rest
  simp only [rounds, repeated_unfinished dirty, one]
  show (repeated Structure.dirty round most next >>= _) = _
  rw [hrest]
  rfl

/-- A rebuild of a valid structure comes to an end within the rounds it is allowed, without an
error: a round that leaves the structure dirty has made two classes into one. -/
theorem rounds_spec {s : Structure} (valid : s.Valid) {most : Nat} (h : s.classCount < most) :
    ∃ merges t, s.rounds most = .ok (merges, t) ∧ t.Valid ∧ t.dirty = false ∧ s.Grows t ∧
      s.Renews t ∧ t.equality.merges = s.equality.merges + merges := by
  induction most generalizing s with
  | zero => omega
  | succ most ih =>
    by_cases dirty : s.dirty = true
    · obtain ⟨merges, es, mid, hround, round⟩ := round_spec valid
      have valid' := round.after_valid valid
      have grows := round.grows valid dirty
      have hcount := round.counted
      -- A round without merges is the last one; any other leaves fewer classes for the next rounds.
      by_cases hz : merges = 0
      · have clean : mid.dirty = false := by simp [round.dirty, hz]
        exact ⟨merges + 0, mid, rounds_dirty dirty hround (rounds_clean clean most), valid', clean,
          grows, round.renews valid, hcount⟩
      · have hc := valid.partition.counted
        have hc' := valid'.partition.counted
        have hsize := round.coarsens.size
        have hless : mid.classCount < most := by
          simp only [classCount, Partition.classCount_eq, Equality.classCount] at h ⊢
          omega
        obtain ⟨more, t, hrest, hvalid, hclean, hgrows, hrenews, hmerges⟩ := ih valid' hless
        exact ⟨merges + more, t, rounds_dirty dirty hround hrest, hvalid, hclean, grows.trans hgrows,
          (round.renews valid).trans hrenews hgrows, by omega⟩
    · have clean : s.dirty = false := by simpa using dirty
      exact ⟨0, s, rounds_clean clean _, valid, clean, .refl valid, .refl valid, rfl⟩

def renewed (s : Structure) : Structure :=
  (Action.rebuild s).after

theorem renewed_clean {s : Structure} (clean : s.dirty = false) :
    (Action.rebuild s).answer = .ok 0 ∧ s.renewed = s := by
  simp only [renewed, Action.rebuild, rebuilt, rounds_clean clean]
  exact ⟨trivial, trivial⟩

structure Rebuilds (s : Structure) (merges : Nat) : Prop where
  answer : (Action.rebuild s).answer = .ok merges
  valid : s.renewed.Valid
  clean : s.renewed.dirty = false
  grows : s.Grows s.renewed
  renews : s.Renews s.renewed
  counted : s.renewed.equality.merges = s.equality.merges + merges

theorem Valid.rebuilds {s : Structure} (valid : s.Valid) : ∃ merges, s.Rebuilds merges := by
  obtain ⟨merges, t, h, hvalid, hclean, hgrows, hrenews, hcount⟩ :=
    rounds_spec valid (Nat.lt_succ_self s.classCount)
  have ht : s.renewed = t := by simp only [renewed, Action.rebuild, rebuilt, h]
  refine ⟨merges, ?_, ht ▸ hvalid, ht ▸ hclean, ht ▸ hgrows, ht ▸ hrenews, ht ▸ hcount⟩
  simp only [Action.rebuild, rebuilt, h]

end Structure

end PartialHorn
