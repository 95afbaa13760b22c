import PartialHorn.Facts
import PartialHorn.Proofs.Enlargement
import PartialHorn.Proofs.Renewal
import PartialHorn.Proofs.Runs

namespace PartialHorn

namespace Structure

/-- An operation of the signature can be applied to some elements. -/
def Applicable (s : Structure) (op : Nat) (args : List Nat) (operation : Operation) : Prop :=
  s.signature.operations[op]? = some operation ∧ s.Typed args operation.domain

/-- A predicate of the signature can be asked of some elements. -/
def Relatable (s : Structure) (pred : Nat) (args : List Nat) (predicate : Predicate) : Prop :=
  s.signature.predicates[pred]? = some predicate ∧ s.Typed args predicate.domain

/-- The arguments under which the tables are read after a rebuild. -/
def key (s : Structure) (args : List Nat) : List Nat :=
  args.map s.renewed.equality.root

/-- The structure with a fresh value for an operation. -/
def defined (s : Structure) (op : Nat) (operation : Operation) (args : List Nat) : Structure :=
  (s.renewed.extended operation.codomain).withRow op ⟨s.key args, s.size⟩

/-- The structure with a predicate recorded at some arguments. -/
def asserted (s : Structure) (pred : Nat) (args : List Nat) : Structure :=
  s.renewed.withTuple pred (s.key args)

theorem argumentError?_eq_none {s : Structure} {symbol : String} {args domain : List Nat}
    (h : args.length = domain.length) (position : Nat) :
    s.argumentError? symbol position domain args = none ↔ s.Typed args domain := by
  induction domain generalizing args position with
  | nil =>
    cases List.length_eq_zero_iff.mp h
    simp [argumentError?, Typed]
  | cons expected domain ih =>
    cases args with
    | nil => simp at h
    | cons x args =>
      have hlen : args.length = domain.length := by simpa using h
      rw [Typed, List.forall₂_cons, argumentError?]
      cases hx : s.sorts[x]? with
      | none => simp
      | some actual =>
        simp only [Option.some.injEq]
        by_cases he : actual = expected
        · rw [if_pos he, ih hlen]
          simp [he, Typed]
        · simp [he]

theorem applicationError?_eq_none {s : Structure} {symbol : String} {args domain : List Nat} :
    s.applicationError? symbol domain args = none ↔ s.Typed args domain := by
  unfold applicationError?
  split
  next h => exact argumentError?_eq_none h 0
  next h => simp only [reduceCtorEq, false_iff]; exact fun ht => h ht.length_eq

theorem sortOf_eq_ok_iff {s : Structure} {x sort : Nat} :
    s.sortOf x = .ok sort ↔ s.sorts[x]? = some sort := by
  unfold sortOf
  cases s.sorts[x]? with
  | none => simp
  | some y => simp

section Renewed

variable {s : Structure} (valid : s.Valid)

include valid

theorem renewed_valid : s.renewed.Valid := by
  obtain ⟨_, h⟩ := valid.rebuilds
  exact h.valid

theorem renewed_dirty : s.renewed.dirty = false := by
  obtain ⟨_, h⟩ := valid.rebuilds
  exact h.clean

theorem grows_renewed : s.Grows s.renewed := by
  obtain ⟨_, h⟩ := valid.rebuilds
  exact h.grows

theorem renews_renewed : s.Renews s.renewed := by
  obtain ⟨_, h⟩ := valid.rebuilds
  exact h.renews

theorem renewed_size : s.renewed.size = s.size :=
  congrArg List.length (renews_renewed valid).sorts

theorem key_equal {args : List Nat} (h : ∀ x ∈ args, x < s.size) :
    List.Forall₂ s.renewed.Equal args (s.key args) :=
  (renewed_valid valid).equal_all_root fun x hx => renewed_size valid ▸ h x hx

theorem key_canonical {args : List Nat} (h : ∀ x ∈ args, x < s.size) :
    (s.key args).map s.renewed.equality.root = s.key args :=
  (roots_eq (key_equal valid h)).symm

theorem key_typed {args domain : List Nat} (h : s.Typed args domain) :
    s.renewed.Typed (s.key args) domain :=
  (renewed_valid valid).typed_equal (key_equal valid h.lt_size) ((grows_renewed valid).typed h)

theorem findAll_renewed {args : List Nat} (h : ∀ x ∈ args, x < s.size) :
    s.renewed.equality.findAll args = .ok (s.key args) :=
  Equality.findAll_known fun x hx => by
    rw [(renewed_valid valid).tracked, renewed_size valid]
    exact h x hx

theorem defined_valid {op : Nat} {operation : Operation} {args : List Nat}
    (h : s.Applicable op args operation) : (s.defined op operation args).Valid := by
  have hv := renewed_valid valid
  have hlt := h.2.lt_size
  have hsig : s.renewed.signature = s.signature := (renews_renewed valid).signature
  have hsize := renewed_size valid
  have hop : s.renewed.signature.operations[op]? = some operation := hsig ▸ h.1
  refine withRow_valid (extended_valid _ hv) hop ?_ ?_ ?_
  · exact (key_typed valid h.2).imp fun _ _ => extended_sort _
  · exact hsize ▸ extended_sort_size operation.codomain
  · have hroot : ∀ x ∈ s.key args, x < s.renewed.size := (key_typed valid h.2).lt_size
    rw [Equality.canonical, List.map_congr_left fun x hx => extended_root _ hv (hroot x hx)]
    refine congrArg₂ Row.mk (key_canonical valid hlt) ?_
    exact hsize ▸ extended_root_size operation.codomain hv

theorem defined_hasRow {op : Nat} {operation : Operation} {args : List Nat}
    (h : s.Applicable op args operation) (fresh : s.renewed.result? op (s.key args) = none) :
    (s.defined op operation args).HasRow op ⟨s.key args, s.size⟩ := by
  have harity := (renewed_valid valid).operationArities.length_eq
  rw [(renews_renewed valid).signature] at harity
  have hlt : op < (s.renewed.extended operation.codomain).operations.length :=
    harity ▸ (List.getElem?_eq_some_iff.mp h.1).1
  exact withRow_hasRow_self fresh hlt

theorem defined_grows (op : Nat) (operation : Operation) (args : List Nat) :
    s.renewed.Grows (s.defined op operation args) :=
  (extended_grows _ (renewed_valid valid)).trans
    (withRow_grows (extended_valid _ (renewed_valid valid)))

end Renewed

end Structure

namespace Action

open Structure

section Cases

variable {s : Structure} (valid : s.Valid)

include valid

theorem returns_rebuild :
    ∃ merges, (rebuild : Action Structure ContractError Nat).Returns s merges s.renewed := by
  obtain ⟨merges, h⟩ := valid.rebuilds
  exact ⟨merges, h.answer, rfl⟩

omit valid in
theorem refuse_cases (symbol : String) (domain args : List Nat) :
    (¬s.Typed args domain ∧ (refuse (s.applicationError? symbol domain args)).Refuses s) ∨
      (s.Typed args domain ∧ (refuse (s.applicationError? symbol domain args)).Returns s () s) := by
  cases herr : s.applicationError? symbol domain args with
  | some e =>
    refine Or.inl ⟨fun typed => ?_, refuses_fail e s⟩
    exact nomatch herr.symm.trans (applicationError?_eq_none.mpr typed)
  | none => exact Or.inr ⟨applicationError?_eq_none.mp herr, give_returns _ _⟩

theorem applied_cases (op : Nat) (args : List Nat) :
    ((∀ operation, ¬s.Applicable op args operation) ∧ (applied op args).Refuses s) ∨
      ∃ operation, s.Applicable op args operation ∧
        (applied op args).Returns s (operation, s.key args) s.renewed := by
  have start := current_returns (ε := ContractError) s
  cases hop : s.signature.operations[op]? with
  | none =>
    refine Or.inl ⟨fun operation h => (nomatch hop.symm.trans h.1), start.refuses ?_⟩
    exact (refuses_ofOption _ hop s).andThen _
  | some operation =>
    have found := ofOption_returns (ContractError.unknownOperation op) hop s
    rcases refuse_cases operation.name operation.domain args with ⟨hnot, refused⟩ | ⟨typed, allowed⟩
    · refine Or.inl ⟨fun other h => ?_, start.refuses (found.refuses (refused.andThen _))⟩
      cases Option.some.inj (hop.symm.trans h.1)
      exact hnot h.2
    · obtain ⟨merges, hrebuild⟩ := returns_rebuild valid
      refine Or.inr ⟨operation, ⟨hop, typed⟩, start.andThen (found.andThen ?_)⟩
      refine allowed.andThen (hrebuild.andThen ?_)
      exact (ask_returns (findAll_renewed valid typed.lt_size)).andThen (give_returns _ _)

theorem related_cases (pred : Nat) (args : List Nat) :
    ((∀ predicate, ¬s.Relatable pred args predicate) ∧ (related pred args).Refuses s) ∨
      ∃ predicate, s.Relatable pred args predicate ∧
        (related pred args).Returns s (s.key args) s.renewed := by
  have start := current_returns (ε := ContractError) s
  cases hpred : s.signature.predicates[pred]? with
  | none =>
    refine Or.inl ⟨fun predicate h => (nomatch hpred.symm.trans h.1), start.refuses ?_⟩
    exact (refuses_ofOption _ hpred s).andThen _
  | some predicate =>
    have found := ofOption_returns (ContractError.unknownPredicate pred) hpred s
    rcases refuse_cases predicate.name predicate.domain args with ⟨hnot, refused⟩ | ⟨typed, allowed⟩
    · refine Or.inl ⟨fun other h => ?_, start.refuses (found.refuses (refused.andThen _))⟩
      cases Option.some.inj (hpred.symm.trans h.1)
      exact hnot h.2
    · obtain ⟨merges, hrebuild⟩ := returns_rebuild valid
      refine Or.inr ⟨predicate, ⟨hpred, typed⟩, start.andThen (found.andThen ?_)⟩
      exact allowed.andThen (hrebuild.andThen (ask_returns (findAll_renewed valid typed.lt_size)))

theorem create_returns (sort : Nat) : (create sort).Returns s s.size (s.extended sort) := by
  refine (current_returns s).andThen ?_
  rw [Partition.size_eq, if_pos valid.tracked]
  exact (update_returns _ _).andThen (give_returns _ _)

/-- A definition is refused and changes nothing, or finds a value after a rebuild, or creates one. -/
theorem define_cases (op : Nat) (args : List Nat) :
    ((∀ operation, ¬s.Applicable op args operation) ∧ (define op args).Refuses s) ∨
      ∃ operation, s.Applicable op args operation ∧
        ((∃ x, s.renewed.HasRow op ⟨s.key args, x⟩ ∧ (define op args).Returns s x s.renewed) ∨
          (s.renewed.result? op (s.key args) = none ∧
            (define op args).Returns s s.size (s.defined op operation args))) := by
  rcases applied_cases valid op args with ⟨hnot, h⟩ | ⟨operation, happ, h⟩
  · exact Or.inl ⟨hnot, h.andThen _⟩
  · have start := current_returns (ε := ContractError) s.renewed
    refine Or.inr ⟨operation, happ, ?_⟩
    cases hres : s.renewed.result? op (s.key args) with
    | some x =>
      refine Or.inl ⟨x, hasRow_of_result? hres, h.andThen (start.andThen ?_)⟩
      simp only [hres]
      exact give_returns _ _
    | none =>
      have created := create_returns (renewed_valid valid) operation.codomain
      rw [renewed_size valid] at created
      refine Or.inr ⟨rfl, h.andThen (start.andThen ?_)⟩
      simp only [hres]
      exact created.andThen ((update_returns _ _).andThen (give_returns _ _))

theorem lookup_cases (op : Nat) (args : List Nat) :
    ((∀ operation, ¬s.Applicable op args operation) ∧ (lookup op args).Refuses s) ∨
      ∃ operation, s.Applicable op args operation ∧
        (lookup op args).Returns s (s.renewed.result? op (s.key args)) s.renewed := by
  rcases applied_cases valid op args with ⟨hnot, h⟩ | ⟨operation, happ, h⟩
  · exact Or.inl ⟨hnot, h.andThen _⟩
  · refine Or.inr ⟨operation, happ, h.andThen ?_⟩
    exact (current_returns _).andThen (give_returns _ _)

/-- An assertion is refused and changes nothing, or puts a canonical tuple into the extent after a
rebuild. -/
theorem assert_cases (pred : Nat) (args : List Nat) :
    ((∀ predicate, ¬s.Relatable pred args predicate) ∧ (assert pred args).Refuses s) ∨
      ∃ predicate, s.Relatable pred args predicate ∧
        (assert pred args).Returns s (!s.renewed.hasTuple pred (s.key args))
          (s.renewed.withTuple pred (s.key args)) := by
  rcases related_cases valid pred args with ⟨hnot, h⟩ | ⟨predicate, hrel, h⟩
  · exact Or.inl ⟨hnot, h.andThen _⟩
  · refine Or.inr ⟨predicate, hrel, h.andThen ((current_returns _).andThen ?_)⟩
    exact (update_returns _ _).andThen (give_returns _ _)

theorem holds_cases (pred : Nat) (args : List Nat) :
    ((∀ predicate, ¬s.Relatable pred args predicate) ∧ (holds pred args).Refuses s) ∨
      ∃ predicate, s.Relatable pred args predicate ∧
        (holds pred args).Returns s (s.renewed.hasTuple pred (s.key args)) s.renewed := by
  rcases related_cases valid pred args with ⟨hnot, h⟩ | ⟨predicate, hrel, h⟩
  · exact Or.inl ⟨hnot, h.andThen _⟩
  · refine Or.inr ⟨predicate, hrel, h.andThen ((current_returns _).andThen ?_)⟩
    exact give_returns _ _

/-- A merge is refused and changes nothing, or joins two classes of one sort. -/
theorem merge_cases (x y : Nat) :
    ((¬∃ sort, s.sorts[x]? = some sort ∧ s.sorts[y]? = some sort) ∧ (merge x y).Refuses s) ∨
      ∃ sort merged equality, s.sorts[x]? = some sort ∧ s.sorts[y]? = some sort ∧
        s.equality.Merges x y merged equality ∧
        (merge x y).Returns s merged (s.joined merged equality) := by
  have start := current_returns (ε := ContractError) s
  cases hx : s.sortOf x with
  | error e =>
    refine Or.inl ⟨?_, start.refuses ((refuses_ofExcept hx).andThen _)⟩
    rintro ⟨sort, h, _⟩
    exact nomatch hx.symm.trans (sortOf_eq_ok_iff.mpr h)
  | ok xSort =>
    have first := ofExcept_returns hx s
    have hxs := sortOf_eq_ok_iff.mp hx
    cases hy : s.sortOf y with
    | error e =>
      refine Or.inl ⟨?_, start.refuses (first.refuses ((refuses_ofExcept hy).andThen _))⟩
      rintro ⟨sort, _, h⟩
      exact nomatch hy.symm.trans (sortOf_eq_ok_iff.mpr h)
    | ok ySort =>
      have second := ofExcept_returns hy s
      have hys := sortOf_eq_ok_iff.mp hy
      by_cases he : xSort = ySort
      · subst he
        have hlt : ∀ z, s.sorts[z]? = some xSort → z < s.equality.size := fun z hz => by
          rw [valid.tracked]
          exact (List.getElem?_eq_some_iff.mp hz).1
        obtain ⟨merged, equality, hmerge, spec⟩ :=
          Equality.merge_spec valid.partition (hlt x hxs) (hlt y hys)
        refine Or.inr ⟨xSort, merged, equality, hxs, hys, spec, ?_⟩
        refine start.andThen (first.andThen (second.andThen ?_))
        rw [if_pos rfl]
        refine (join_returns hmerge).andThen ?_
        exact (update_returns _ _).andThen (give_returns _ _)
      · refine Or.inl ⟨?_, start.refuses (first.refuses (second.refuses ?_))⟩
        · rintro ⟨sort, h, h'⟩
          have hs := Option.some.inj (hxs.symm.trans h)
          have hs' := Option.some.inj (hys.symm.trans h')
          exact he (hs.trans hs'.symm)
        · rw [if_neg he]
          exact refuses_fail _ s

theorem add_cases (sort : Nat) :
    (¬sort < s.signature.sorts.length ∧ (add sort).Refuses s) ∨
      (sort < s.signature.sorts.length ∧ (add sort).Returns s s.size (s.extended sort)) := by
  have start := current_returns (ε := ContractError) s
  by_cases h : sort < s.signature.sorts.length
  · refine Or.inr ⟨h, start.andThen ?_⟩
    rw [if_pos (valid.carriers_length ▸ h)]
    exact create_returns valid sort
  · refine Or.inl ⟨h, start.refuses ?_⟩
    rw [if_neg (valid.carriers_length ▸ h)]
    exact refuses_fail _ s

end Cases

section Answers

variable {s : Structure} (valid : s.Valid) {xs : List Nat}

include valid

theorem applied_returns {op : Nat} {operation : Operation} (happ : s.Applicable op xs operation) :
    (applied op xs).Returns s (operation, s.key xs) s.renewed := by
  rcases applied_cases valid op xs with ⟨hnot, _⟩ | ⟨other, hother, h⟩
  · exact absurd happ (hnot operation)
  · cases Option.some.inj (happ.1.symm.trans hother.1)
    exact h

theorem related_returns {pred : Nat} {predicate : Predicate} (hrel : s.Relatable pred xs predicate) :
    (related pred xs).Returns s (s.key xs) s.renewed := by
  rcases related_cases valid pred xs with ⟨hnot, _⟩ | ⟨_, _, h⟩
  · exact absurd hrel (hnot predicate)
  · exact h

theorem lookup_returns {op : Nat} {operation : Operation} (happ : s.Applicable op xs operation) :
    (lookup op xs).Returns s (s.renewed.result? op (s.key xs)) s.renewed :=
  (applied_returns valid happ).andThen ((current_returns _).andThen (give_returns _ _))

theorem holds_returns {pred : Nat} {predicate : Predicate} (hrel : s.Relatable pred xs predicate) :
    (holds pred xs).Returns s (s.renewed.hasTuple pred (s.key xs)) s.renewed :=
  (related_returns valid hrel).andThen ((current_returns _).andThen (give_returns _ _))

theorem returns_asserted {pred : Nat} {predicate : Predicate}
    (hrel : s.Relatable pred xs predicate) :
    (assert pred xs).Returns s (!s.renewed.hasTuple pred (s.key xs)) (s.asserted pred xs) := by
  refine (related_returns valid hrel).andThen ((current_returns _).andThen ?_)
  exact (update_returns _ _).andThen (give_returns _ _)

end Answers

end Action

end PartialHorn
