import PartialHorn.Proofs.Tracking

namespace PartialHorn

open Structure

namespace Structure.Doubles

variable {E : Type} [PartitionStore E] {R : E → Equality → Prop} (models : PartitionStore.Models R)
  {s u : Structure} {t v : Structure E}

include models

/-- The counters of a double tell what those of the other structure tell, which has grown. -/
theorem tallies (h : t.Doubles R s) (h' : v.Doubles R u)
    (grows : (t.withEquality s.equality).Grows (v.withEquality u.equality)) : t.Tallies v := by
  obtain ⟨hmerges, hsteady⟩ := grows.tallies
  refine ⟨?_, fun clean he => hsteady clean ?_⟩
  · rw [h.merges models, h'.merges models]
    exact hmerges
  · rw [h.merges models, h'.merges models] at he
    exact he

theorem tallies_rearranged (h : t.Doubles R s) {equality : E} (kept : R equality s.equality) :
    t.Tallies { t with equality } := by
  have hmerges : Partition.merges equality = Partition.merges t.equality :=
    (models.merges kept).trans (h.merges models).symm
  exact ⟨Nat.le_of_eq hmerges.symm, fun clean _ => ⟨clean, .refl _ _⟩⟩

/-- A merge that has an effect is one more merge and leaves no clean structure. -/
theorem tallies_joined (h : t.Doubles R s) {equality : E} {eq : Equality} {merged : Bool}
    (kept : R equality eq) (counted : eq.merges = s.equality.merges + merged.toNat) :
    t.Tallies { t with equality, dirty := t.dirty || merged } := by
  have hmerges : Partition.merges equality = Partition.merges t.equality + merged.toNat := by
    rw [models.merges kept, counted, h.merges models]
  refine ⟨hmerges ▸ Nat.le_add_right _ _, fun clean he => ?_⟩
  cases merged with
  | false => exact ⟨by simpa using clean, .refl _ _⟩
  | true =>
    have hone : Partition.merges equality = Partition.merges t.equality + 1 := hmerges
    exact absurd (he.symm.trans hone) (by simp)

end Structure.Doubles

namespace Hand

section Steps

variable {E : Type} [PartitionStore E] {R : E → Equality → Prop} (models : PartitionStore.Models R)
  {dealer : Dealer} {s : Structure} {t : Structure E} (valid : s.Valid)
  (double : t.Doubles R s)

include models double

/-- A merge puts off the work on the tables, so the partition and the mark of a dirty structure
change together. -/
theorem merged_tracks (x y : Nat) :
    Tracks R
      (do
        let merged ← Machine.join x y
        Action.update fun s => { s with dirty := s.dirty || merged }
        return merged : Action (Hand E dealer) ContractError Bool)
      (do
        let merged ← Machine.join x y
        Action.update fun s => { s with dirty := s.dirty || merged }
        return merged) s t fun a a' _ _ => a' = a := by
  obtain ⟨equality, hout, kept⟩ := models.merge x y double.equality
  have hheld : ∀ n, Machine.join x y (⟨t, n⟩ : Hand E dealer) =
      { answer := (s.equality.merging x y).1, after := ⟨{ t with equality }, n⟩ } := fun n => by
    show onPartition _ _ = _
    simp only [onPartition, hout]
  intro n
  cases hmerge : s.equality.merge x y with
  | error error =>
    have hown : Machine.join x y s = { answer := .error error, after := s } := by
      show Action.join x y s = _
      simp only [Action.join, hmerge]
    simp only [Equality.merging, hmerge] at hheld kept
    simp only [Action.bind_eq_andThen, Action.andThen, hown, hheld]
    exact ⟨⟨rfl, Or.inl ⟨error, rfl, rfl⟩, double.rearranged kept⟩,
      double.tallies_rearranged models kept⟩
  | ok one =>
    obtain ⟨merged, eq⟩ := one
    have hown : Machine.join x y s =
        { answer := .ok merged, after := { s with equality := eq } } := by
      show Action.join x y s = _
      simp only [Action.join, hmerge]
    simp only [Equality.merging_ok hmerge] at hheld kept
    simp only [Action.bind_eq_andThen, Action.andThen, hown, hheld]
    exact ⟨⟨rfl, Or.inr ⟨merged, merged, rfl, rfl, rfl⟩, double.joined kept merged⟩,
      double.tallies_joined models kept (Equality.merge_counted hmerge)⟩

include valid

theorem create_tracks (sort : Nat) :
    Tracks R (Action.create sort : Action (Hand E dealer) ContractError Nat) (Action.create sort) s t
      fun a a' _ _ => a' = a := by
  have tracked : Partition.size t.equality = t.size := by
    rw [models.size double.equality, double.size, valid.tracked]
  apply tracks_current
  rw [if_pos tracked, Partition.size_eq, if_pos valid.tracked]
  have double' := double.extended models sort
  refine tracks_update double' ?_ double.size
  exact double.tallies models double' (extended_grows sort (double.twin.valid valid))

theorem rebuild_tracks :
    Tracks R (Machine.rebuild : Action (Hand E dealer) ContractError Nat) Machine.rebuild s t
      fun a a' u _ => a' = a ∧ u.dirty = false := by
  intro n
  obtain ⟨hanswer, hevents, hdouble⟩ := rebuild_doubles models ⟨t, n⟩ valid double
  obtain ⟨merges, rebuilds⟩ := valid.rebuilds
  refine ⟨⟨hevents, Or.inr ⟨merges, merges, rebuilds.answer, hanswer.trans rebuilds.answer, rfl,
    rebuilds.clean⟩, hdouble⟩, ?_⟩
  by_cases dirty : t.dirty = true
  · refine ⟨?_, fun clean => ?_⟩
    · rw [double.merges models]
      exact (hdouble.merges models).symm ▸ rebuilds.grows.merges
    · rw [dirty] at clean
      cases clean
  · have clean : t.dirty = false := by simpa using dirty
    show t.Tallies (Hand.rebuild _).after.held
    simp only [Hand.rebuild, dealer.rounds_clean clean]
    exact .refl t

theorem search_tracks (rule : Rule) :
    Tracks R (Machine.search rule : Action (Hand E dealer) ContractError (List Binding))
      (Machine.search rule) s t fun a a' _ _ => a' = a := by
  have hown : Action.search rule s = { answer := .ok (s.solutions rule), after := s } := by
    simp only [Action.search, Action.ask, valid.scan_eq]
    rfl
  intro n
  obtain ⟨hanswer, hevents, equality, kept, hheld⟩ := search_doubles models ⟨t, n⟩ valid double rule
  show (Action.search rule s).Concurs R _ (Hand.search rule ⟨t, n⟩) ∧
    t.Tallies (Hand.search rule ⟨t, n⟩).after.held
  rw [hown, hheld]
  refine ⟨⟨hevents, Or.inr ⟨_, _, rfl, hanswer, rfl⟩, ?_⟩, double.tallies_rearranged models kept⟩
  rw [hheld]
  exact double.rearranged kept

end Steps

section Actions

variable {E : Type} [PartitionStore E] {R : E → Equality → Prop} (models : PartitionStore.Models R)
  (dealer : Dealer)

include models

/-- A question about the partition is answered in the hand of a dealer as in the structure itself. -/
theorem onPartition_mirrors {α : Type} {step : Lookup E α}
    (question : Equality → Except ContractError α)
    (agrees : ∀ {t eq}, R t eq → Lookup.Agrees R t step (question eq) eq) :
    Mirrors R (onPartition step : Action (Hand E dealer) ContractError α)
      (Action.ask fun s => question s.equality) := by
  refine ⟨Action.obeys_ask Action.Keeps.refl _, fun s t _ double n => ?_⟩
  obtain ⟨equality, hout, kept⟩ := agrees double.equality
  simp only [onPartition, hout, Action.ask]
  refine ⟨⟨rfl, ?_, double.rearranged kept⟩, double.tallies_rearranged models kept⟩
  cases question s.equality with
  | error e => exact Or.inl ⟨e, rfl, rfl⟩
  | ok a => exact Or.inr ⟨a, a, rfl, rfl, rfl⟩

theorem findAll_mirrors (xs : List Nat) :
    Mirrors R (Machine.findAll xs : Action (Hand E dealer) ContractError (List Nat))
      (Machine.findAll xs) :=
  onPartition_mirrors models dealer (fun eq => eq.findAll xs) fun kept =>
    Lookup.agrees_mapM (fun x _ kept => models.find x kept) xs kept

theorem areEqual_mirrors (x y : Nat) :
    Mirrors R (Machine.areEqual x y : Action (Hand E dealer) ContractError Bool)
      (Machine.areEqual x y) :=
  onPartition_mirrors models dealer (fun eq => eq.areEqual x y) (models.areEqual x y)

theorem find_mirrors (x : Nat) :
    Mirrors R (Machine.find x : Action (Hand E dealer) ContractError Nat) (Machine.find x) :=
  onPartition_mirrors models dealer (fun eq => eq.find x) (models.find x)

theorem classes_mirrors :
    Mirrors R (Machine.classes : Action (Hand E dealer) ContractError (List (List Nat)))
      Machine.classes :=
  onPartition_mirrors models dealer (fun eq => .ok eq.classes) models.classes

omit models in
theorem sortOf_mirrors (x : Nat) :
    Mirrors R (Action.sortOf x : Action (Hand E dealer) ContractError Nat) (Action.sortOf x) := by
  refine ⟨fun s => Action.Keeps.refl s, fun s t valid double => tracks_current ?_⟩
  rw [double.sortOf]
  exact (mirrors_ofExcept _).tracks s t valid double

theorem rebuild_mirrors :
    Mirrors R (Machine.rebuild : Action (Hand E dealer) ContractError Nat) Machine.rebuild :=
  ⟨Action.rebuild_keeps, fun _ _ valid double =>
    (rebuild_tracks models valid double).mono fun _ _ _ _ h => h.1⟩

theorem add_mirrors (sort : Nat) :
    Mirrors R (Action.add sort : Action (Hand E dealer) ContractError Nat) (Action.add sort) := by
  refine ⟨Action.add_keeps sort, fun s t valid double => tracks_current ?_⟩
  rw [double.carriers]
  by_cases h : sort < s.carriers.length
  · rw [if_pos h, if_pos h]
    exact create_tracks models valid double sort
  · rw [if_neg h, if_neg h]
    exact tracks_fail _ double

theorem applied_mirrors (op : Nat) (args : List Nat) :
    Mirrors R (Action.applied op args : Action (Hand E dealer) ContractError _)
      (Action.applied op args) := by
  refine ⟨Action.keeps_lasting.applied op args, fun s t valid double => tracks_current ?_⟩
  simp only [double.signature, double.applicationError?]
  apply (mirrors_ofOption _ _).first valid double
  intro operation u v leads
  apply (mirrors_refuse _).first leads.valid leads.double
  intro _ u v leads
  apply (rebuild_tracks models leads.valid leads.double).andThen Action.rebuild_keeps leads.valid
  intro _ _ u v leads _
  apply (findAll_mirrors models dealer args).first leads.valid leads.double
  intro key u v leads
  exact tracks_give leads.double rfl

theorem related_mirrors (pred : Nat) (args : List Nat) :
    Mirrors R (Action.related pred args : Action (Hand E dealer) ContractError _)
      (Action.related pred args) := by
  refine ⟨Action.keeps_lasting.related pred args, fun s t valid double => tracks_current ?_⟩
  simp only [double.signature, double.applicationError?]
  apply (mirrors_ofOption _ _).first valid double
  intro predicate u v leads
  apply (mirrors_refuse _).first leads.valid leads.double
  intro _ u v leads
  apply (rebuild_tracks models leads.valid leads.double).andThen Action.rebuild_keeps leads.valid
  intro _ _ u v leads _
  exact (findAll_mirrors models dealer args).tracks u v leads.valid leads.double

theorem define_mirrors (op : Nat) (args : List Nat) :
    Mirrors R (Action.define op args : Action (Hand E dealer) ContractError Nat)
      (Action.define op args) := by
  refine ⟨Action.define_keeps op args, fun s t valid double => ?_⟩
  apply (applied_mirrors models dealer op args).first valid double
  rintro ⟨operation, key⟩ u v leads
  apply tracks_current
  simp only [leads.double.result? leads.valid]
  cases u.result? op key with
  | some x => exact tracks_give leads.double rfl
  | none =>
    apply (create_tracks models leads.valid leads.double operation.codomain).andThen
      (Action.create_keeps _) leads.valid
    rintro _ fresh u v leads rfl
    have double := leads.double.withRow leads.valid op ⟨key, fresh⟩
    refine tracks_update double ?_ rfl
    exact leads.double.tallies models double (withRow_grows (leads.double.twin.valid leads.valid))

theorem lookup_mirrors (op : Nat) (args : List Nat) :
    Mirrors R (Action.lookup op args : Action (Hand E dealer) ContractError _)
      (Action.lookup op args) := by
  apply (applied_mirrors models dealer op args).andThen
  rintro ⟨operation, key⟩
  exact mirrors_read fun s t valid double => double.result? valid op key

theorem assert_mirrors (pred : Nat) (args : List Nat) :
    Mirrors R (Action.assert pred args : Action (Hand E dealer) ContractError Bool)
      (Action.assert pred args) := by
  refine ⟨Action.assert_keeps pred args, fun s t valid double => ?_⟩
  apply (related_mirrors models dealer pred args).first valid double
  intro tuple u v leads
  apply tracks_current
  have double' := leads.double.withTuple pred tuple
  refine tracks_update double' ?_ (by rw [leads.double.hasTuple?])
  exact leads.double.tallies models double' (withTuple_grows (leads.double.twin.valid leads.valid))

theorem holds_mirrors (pred : Nat) (args : List Nat) :
    Mirrors R (Action.holds pred args : Action (Hand E dealer) ContractError Bool)
      (Action.holds pred args) := by
  apply (related_mirrors models dealer pred args).andThen
  intro tuple
  exact mirrors_read fun s t _ double => double.hasTuple? pred tuple

theorem merge_mirrors (x y : Nat) :
    Mirrors R (Action.merge x y : Action (Hand E dealer) ContractError Bool) (Action.merge x y) := by
  refine ⟨Action.merge_keeps x y, fun s t valid double => tracks_current ?_⟩
  rw [double.sortOf, double.sortOf]
  apply (mirrors_ofExcept _).first valid double
  intro xSort u v leads
  apply (mirrors_ofExcept _).first leads.valid leads.double
  intro ySort u v leads
  by_cases he : xSort = ySort
  · rw [if_pos he, if_pos he]
    exact merged_tracks models leads.double x y
  · rw [if_neg he, if_neg he]
    exact tracks_fail _ leads.double

theorem solve_mirrors (rule : Rule) :
    Mirrors R (Action.solve rule : Action (Hand E dealer) ContractError _) (Action.solve rule) := by
  refine ⟨Action.solve_obeys Action.Keeps.refl Action.Keeps.trans Action.rebuild_keeps rule,
    fun s t valid double => ?_⟩
  apply (rebuild_tracks models valid double).andThen Action.rebuild_keeps valid
  intro _ _ u v leads _
  exact search_tracks models leads.valid leads.double rule

theorem mergeFor_mirrors (rule : Rule) (x y : Nat) :
    Mirrors R (Action.mergeFor rule x y : Action (Hand E dealer) ContractError Unit)
      (Action.mergeFor rule x y) := by
  apply (merge_mirrors models dealer x y).andThen
  intro merged
  cases merged with
  | false => exact mirrors_give ()
  | true => exact mirrors_report _

theorem conclude_mirrors (rule : Rule) (binding : Binding) (atom : Atom) :
    Mirrors R (Action.conclude rule binding atom : Action (Hand E dealer) ContractError Binding)
      (Action.conclude rule binding atom) := by
  cases atom with
  | op op args result =>
    apply (mirrors_ofExcept _).andThen fun args => ?_
    apply (define_mirrors models dealer op args).andThen fun x => ?_
    cases binding.value result with
    | none => exact mirrors_give _
    | some existing =>
      exact (mergeFor_mirrors models dealer rule existing x).andThen fun _ => mirrors_give _
  | pred pred args =>
    apply (mirrors_ofExcept _).andThen fun args => ?_
    exact (assert_mirrors models dealer pred args).andThen fun _ => mirrors_give _
  | eq lhs rhs =>
    apply (mirrors_ofExcept _).andThen fun x => ?_
    apply (mirrors_ofExcept _).andThen fun y => ?_
    exact (mergeFor_mirrors models dealer rule x y).andThen fun _ => mirrors_give _

theorem concludeAll_mirrors (rule : Rule) (atoms : List Atom) (binding : Binding) :
    Mirrors R (Action.concludeAll rule atoms binding : Action (Hand E dealer) ContractError Unit)
      (Action.concludeAll rule atoms binding) := by
  induction atoms generalizing binding with
  | nil => exact mirrors_give ()
  | cons atom atoms ih => exact (conclude_mirrors models dealer rule binding atom).andThen ih

theorem fire_mirrors (rule : Rule) (binding : Binding) :
    Mirrors R (Action.fire rule binding : Action (Hand E dealer) ContractError Unit)
      (Action.fire rule binding) :=
  concludeAll_mirrors models dealer rule rule.head binding

end Actions

end Hand

end PartialHorn
