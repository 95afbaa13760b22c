import PartialHorn.Proofs.Dealing

namespace PartialHorn

namespace Structure

/-- A structure doubles for another one: what it keeps stands for the same partition, its rows may
come up in another order, and all else is the same. -/
structure Doubles {E : Type} (R : E → Equality → Prop) (t : Structure E) (s : Structure) : Prop where
  equality : R t.equality s.equality
  twin : s.Twin (t.withEquality s.equality)

theorem applicationError?_withEquality {E F : Type} (s : Structure E) (equality : F) (symbol : String)
    (domain args : List Nat) : (s.withEquality equality).applicationError? symbol domain args =
      s.applicationError? symbol domain args := by
  have hargument : ∀ position, (s.withEquality equality).argumentError? symbol position domain args =
      s.argumentError? symbol position domain args := by
    induction domain generalizing args with
    | nil => exact fun _ => rfl
    | cons sort domain ih =>
      cases args with
      | nil => exact fun _ => rfl
      | cons x args =>
        intro position
        simp only [argumentError?, ih]
        rfl
  simp only [applicationError?, hargument]

namespace Doubles

section

variable {E : Type} {R : E → Equality → Prop} {s : Structure} {t : Structure E}
  (h : t.Doubles R s)

include h

theorem stores : t.Stores R (t.withEquality s.equality) :=
  ⟨h.equality, rfl⟩

theorem signature : t.signature = s.signature :=
  h.twin.signature

theorem carriers : t.carriers = s.carriers :=
  h.twin.carriers

theorem predicates : t.predicates = s.predicates :=
  h.twin.predicates

theorem dirty : t.dirty = s.dirty :=
  h.twin.dirty

theorem size : t.size = s.size :=
  h.twin.size

theorem carrier? (sort : Nat) : t.carrier? sort = s.carrier? sort :=
  h.twin.carrier? sort

theorem sortOf (x : Nat) : t.sortOf x = s.sortOf x :=
  h.twin.sortOf x

theorem rowCount : t.rowCount = s.rowCount :=
  h.twin.rowCount

theorem hasTuple? (pred : Nat) (tuple : List Nat) : t.hasTuple pred tuple = s.hasTuple pred tuple :=
  h.twin.hasTuple? pred tuple

theorem result? (valid : s.Valid) (op : Nat) (args : List Nat) :
    t.result? op args = s.result? op args :=
  h.twin.result? valid op args

theorem applicationError? (symbol : String) (domain args : List Nat) :
    t.applicationError? symbol domain args = s.applicationError? symbol domain args := by
  rw [← h.twin.applicationError?, applicationError?_withEquality]

theorem withRow (valid : s.Valid) (op : Nat) (row : Row) :
    (t.withRow op row).Doubles R (s.withRow op row) :=
  ⟨h.equality, h.twin.withRow valid op row⟩

theorem withTuple (pred : Nat) (tuple : List Nat) :
    (t.withTuple pred tuple).Doubles R (s.withTuple pred tuple) :=
  ⟨h.equality, h.twin.withTuple pred tuple⟩

/-- Lookups may rearrange what stands for the partition. -/
theorem rearranged {equality : E} (kept : R equality s.equality) :
    Doubles R { t with equality } s :=
  ⟨kept, h.twin⟩

theorem joined {equality : E} {eq : Equality} (kept : R equality eq) (merged : Bool) :
    Doubles R { t with equality, dirty := t.dirty || merged } (s.joined merged eq) :=
  ⟨kept, h.twin.joined merged eq⟩

omit h in
theorem of_stores {u : Structure} (twin : s.Twin u) (stores : t.Stores R u) : t.Doubles R s := by
  refine ⟨twin.equality ▸ stores.equality, ?_⟩
  rw [stores.rest, ← twin.equality]
  exact twin

end

section

variable {E : Type} [PartitionStore E] {R : E → Equality → Prop} (models : PartitionStore.Models R)
  {s : Structure} {t : Structure E}

include models

theorem merges (h : t.Doubles R s) : Partition.merges t.equality = s.equality.merges :=
  models.merges h.equality

theorem classCount (h : t.Doubles R s) : t.classCount = s.classCount := by
  simp only [Structure.classCount, Partition.classCount, models.size h.equality,
    models.merges h.equality, Partition.size_eq, Partition.merges_eq]

theorem footprint (h : t.Doubles R s) : t.footprint = s.footprint := by
  simp only [Structure.footprint, h.size, h.merges models, h.rowCount, Partition.merges_eq]

theorem extended (h : t.Doubles R s) (sort : Nat) : (t.extended sort).Doubles R (s.extended sort) :=
  ⟨models.grow h.equality, h.twin.extended sort⟩

end

end Doubles

section Rounds

variable {E : Type} {R : E → Equality → Prop} (dealer : Dealer)

theorem Stores.deal {t : Structure E} {u : Structure} (h : t.Stores R u) (n : Nat) :
    (dealer.deal n t).Stores R (dealer.deal n u) := by
  refine ⟨h.equality, ?_⟩
  conv_lhs => rw [h.rest]
  rfl

variable [PartitionStore E] (models : PartitionStore.Models R)

include models

/-- On akin structures both kinds of rounds make the same number of merges, whatever is dealt and
however the partition is kept, and leave akin structures. -/
theorem Akin.rounds {s u : Structure} {t : Structure E} (akin : s.Akin u) (valid : s.Valid)
    (valid' : u.Valid) (stores : t.Stores R u) (most n : Nat) : ∃ merges s' u' t' m,
      s.rounds most = .ok (merges, s') ∧
      (dealer.rounds most n t).outcome t.equality = (.ok (merges, (t', m)), t'.equality) ∧
      t'.Stores R u' ∧ u'.Valid ∧ s'.Akin u' := by
  induction most generalizing s u t n with
  | zero => exact ⟨0, s, u, t, n, rfl, rfl, stores, valid', akin⟩
  | succ most ih =>
    have hdirty := stores.dirty.trans akin.dirty
    by_cases dirty : s.dirty = true
    · have twin := deal_twin dealer n u
      obtain ⟨merges, s₁, u₁, hround, hround', hs₁, hu₁, next⟩ :=
        (akin.trans twin.akin).round valid (twin.valid valid')
      obtain ⟨t₁, hout, stores₁⟩ := (stores.deal dealer n).round models hround'
      obtain ⟨more, s₂, u₂, t₂, m, hrest, hrest', last⟩ := ih next hs₁ hu₁ stores₁ (n + 1)
      refine ⟨merges + more, s₂, u₂, t₂, m, rounds_dirty dirty hround hrest, ?_, last⟩
      have hone : (dealer.round (t, n)).outcome t.equality =
          (.ok (merges, (t₁, n + 1)), t₁.equality) := by
        rw [Dealer.round, Lookup.outcome_bind]
        exact hout ▸ rfl
      exact dealer.rounds_dirty (hdirty.trans dirty) hone hrest'
    · have clean : s.dirty = false := by simpa using dirty
      exact ⟨0, s, u, t, n, rounds_clean clean _, dealer.rounds_clean (hdirty.trans clean) _ n _,
        stores, valid', akin⟩

end Rounds

end Structure

namespace Hand

open Structure

variable {E : Type} [PartitionStore E] {R : E → Equality → Prop} (models : PartitionStore.Models R)
  {dealer : Dealer} (hand : Hand E dealer) {s : Structure} (valid : s.Valid)
  (double : hand.held.Doubles R s)

include models valid double

/-- A rebuild reports the same and leaves a double, whatever the orders of the rows are. -/
theorem rebuild_doubles : (rebuild hand).answer = (Action.rebuild s).answer ∧
    (rebuild hand).events = (Action.rebuild s).events ∧
    (rebuild hand).after.held.Doubles R s.renewed := by
  obtain ⟨merges, s', u', t', m, h, h', stores, valid', akin⟩ :=
    double.twin.akin.rounds dealer models valid (double.twin.valid valid) double.stores
      (s.classCount + 1) hand.iteration
  have hs' : s.renewed = s' := by simp only [renewed, Action.rebuild, rebuilt, h]
  have twin := akin.twin (hs' ▸ renewed_valid valid) valid' (hs' ▸ renewed_dirty valid)
  simp only [rebuild, double.classCount models, h', Action.rebuild, rebuilt, h, hs']
  exact ⟨trivial, trivial, .of_stores twin stores⟩

/-- A search finds the same matches and at most rearranges what stands for the partition. -/
theorem search_doubles (rule : Rule) : (search rule hand).answer = .ok (s.solutions rule) ∧
    (search rule hand).events = [] ∧ ∃ equality, R equality s.equality ∧
      (search rule hand).after.held = { hand.held with equality } := by
  obtain ⟨equality, hscan, kept⟩ := double.stores.scan models rule
  rw [(double.twin.valid valid).scan_eq] at hscan
  have hfound := double.twin.ascending_found dealer valid rule hand.iteration
  rw [← found_withEquality dealer _ hand.held.equality] at hfound
  simp only [search, hscan]
  exact ⟨congrArg _ hfound, trivial, equality, kept, rfl⟩

end Hand

end PartialHorn
