import PartialHorn.Rebuild
import PartialHorn.Proofs.Partition
import Mathlib.Data.List.Perm.Subperm

namespace PartialHorn

namespace PredicateTable

def Unrepeated (table : PredicateTable) : Prop :=
  (table.log.map Entry.tuple).Nodup

/-- What changes of the extent leave of a table: its arity, and a generation that tells a change. -/
structure Precedes (a b : PredicateTable) : Prop where
  arity : b.arity = a.arity
  generation : a.generation ≤ b.generation
  unchanged : b.generation = a.generation → b = a

namespace Precedes

theorem refl (a : PredicateTable) : a.Precedes a :=
  ⟨rfl, Nat.le_refl _, fun _ => rfl⟩

theorem trans {a b c : PredicateTable} (h : a.Precedes b) (h' : b.Precedes c) : a.Precedes c where
  arity := h'.arity.trans h.arity
  generation := Nat.le_trans h.generation h'.generation
  unchanged he := by
    have hle := h.generation
    have hle' := h'.generation
    have hb := h.unchanged (by omega)
    exact (h'.unchanged (by omega)).trans hb

end Precedes

theorem mem_rows {table : PredicateTable} {tuple : List Nat} :
    tuple ∈ table.rows ↔ ⟨tuple, true⟩ ∈ table.log := by
  simp only [rows, List.mem_map, List.mem_filter]
  constructor
  · rintro ⟨⟨t, p⟩, ⟨hentry, hp⟩, rfl⟩
    simp only at hp
    exact hp ▸ hentry
  · intro h
    exact ⟨_, ⟨h, rfl⟩, rfl⟩

theorem contains_iff {table : PredicateTable} {tuple : List Nat} :
    table.contains tuple = true ↔ tuple ∈ table.rows := by
  rw [mem_rows, contains, List.any_eq_true]
  constructor
  · rintro ⟨⟨t, p⟩, hentry, hp⟩
    simp only [Bool.and_eq_true, beq_iff_eq] at hp
    obtain ⟨rfl, rfl⟩ := hp
    exact hentry
  · intro h
    exact ⟨_, h, by simp⟩

theorem logged_iff {table : PredicateTable} {tuple : List Nat} :
    table.logged tuple = true ↔ tuple ∈ table.log.map Entry.tuple := by
  simp [logged]

theorem rows_nodup {table : PredicateTable} (unrepeated : table.Unrepeated) : table.rows.Nodup :=
  unrepeated.sublist (List.Sublist.map _ List.filter_sublist)

theorem mark_tuples (table : PredicateTable) (tuple : List Nat) (present : Bool) :
    (table.mark tuple present).map Entry.tuple = table.log.map Entry.tuple := by
  rw [mark, List.map_map]
  refine List.map_congr_left fun entry _ => ?_
  rw [Function.comp_apply]
  split <;> rfl

theorem mem_mark {table : PredicateTable} {tuple t : List Nat} {present : Bool} :
    (⟨t, true⟩ : Entry) ∈ table.mark tuple present ↔
      (t = tuple ∧ present = true ∧ table.logged tuple = true) ∨
        (t ≠ tuple ∧ (⟨t, true⟩ : Entry) ∈ table.log) := by
  rw [logged_iff, mark, List.mem_map]
  constructor
  · rintro ⟨entry, hentry, he⟩
    split at he
    next ht =>
      obtain ⟨rfl, rfl⟩ := Entry.mk.inj he
      exact Or.inl ⟨ht, rfl, ht ▸ List.mem_map_of_mem hentry⟩
    next ht =>
      subst he
      exact Or.inr ⟨ht, hentry⟩
  · rintro (⟨rfl, rfl, hl⟩ | ⟨hne, hentry⟩)
    · obtain ⟨entry, hentry, rfl⟩ := List.mem_map.mp hl
      exact ⟨entry, hentry, by rw [if_pos rfl]⟩
    · exact ⟨_, hentry, if_neg hne⟩

theorem insert_of_mem {table : PredicateTable} {tuple : List Nat} (h : tuple ∈ table.rows) :
    table.insert tuple = (false, table) := by
  simp [insert, contains_iff.mpr h]

theorem mem_insert {table : PredicateTable} {tuple t : List Nat} :
    t ∈ (table.insert tuple).2.rows ↔ t = tuple ∨ t ∈ table.rows := by
  unfold insert
  split
  next h =>
    refine ⟨Or.inr, ?_⟩
    rintro (rfl | ht)
    · exact contains_iff.mp h
    · exact ht
  next h =>
    rw [mem_rows, mem_rows]
    simp only
    split
    next hl =>
      rw [mem_mark]
      constructor
      · rintro (⟨ht, _⟩ | ⟨_, ht⟩)
        · exact Or.inl ht
        · exact Or.inr ht
      · rintro (rfl | ht)
        · exact Or.inl ⟨rfl, rfl, hl⟩
        · by_cases he : t = tuple
          · exact Or.inl ⟨he, rfl, hl⟩
          · exact Or.inr ⟨he, ht⟩
    next =>
      rw [List.mem_append, List.mem_singleton]
      constructor
      · rintro (ht | ht)
        · exact Or.inr ht
        · exact Or.inl (Entry.mk.inj ht).1
      · rintro (rfl | ht)
        · exact Or.inr rfl
        · exact Or.inl ht

theorem mem_remove {table : PredicateTable} {tuple t : List Nat} :
    t ∈ (table.remove tuple).2.rows ↔ t ≠ tuple ∧ t ∈ table.rows := by
  unfold remove
  split
  next =>
    rw [mem_rows, mem_rows]
    simp only
    rw [mem_mark]
    simp
  next h =>
    refine ⟨fun ht => ⟨?_, ht⟩, And.right⟩
    rintro rfl
    exact h (contains_iff.mpr ht)

theorem insert_unrepeated {table : PredicateTable} (unrepeated : table.Unrepeated)
    (tuple : List Nat) : (table.insert tuple).2.Unrepeated := by
  unfold insert
  split
  next => exact unrepeated
  next =>
    rw [Unrepeated]
    simp only
    split
    next => rwa [mark_tuples]
    next hl =>
      rw [List.map_append]
      refine List.Nodup.append unrepeated (List.nodup_singleton _) ?_
      intro t ht hnew
      rw [List.map_singleton, List.mem_singleton] at hnew
      subst hnew
      exact hl (logged_iff.mpr ht)

theorem remove_unrepeated {table : PredicateTable} (unrepeated : table.Unrepeated)
    (tuple : List Nat) : (table.remove tuple).2.Unrepeated := by
  unfold remove
  split
  next =>
    rw [Unrepeated, mark_tuples]
    exact unrepeated
  next => exact unrepeated

theorem insert_precedes (table : PredicateTable) (tuple : List Nat) :
    table.Precedes (table.insert tuple).2 := by
  unfold insert
  split
  next => exact .refl table
  next => exact ⟨rfl, Nat.le_succ _, fun h => absurd h (Nat.succ_ne_self _)⟩

theorem remove_precedes (table : PredicateTable) (tuple : List Nat) :
    table.Precedes (table.remove tuple).2 := by
  unfold remove
  split
  next => exact ⟨rfl, Nat.le_succ _, fun h => absurd h (Nat.succ_ne_self _)⟩
  next => exact .refl table

/-- An insertion adds one to the size of the extent exactly when it adds one to the generation. -/
theorem insert_size {table : PredicateTable} (unrepeated : table.Unrepeated) (tuple : List Nat) :
    table.size + (table.insert tuple).2.generation =
      (table.insert tuple).2.size + table.generation := by
  by_cases h : tuple ∈ table.rows
  · rw [insert_of_mem h]
  · have hperm : (table.insert tuple).2.rows.Perm (tuple :: table.rows) := by
      refine (List.perm_ext_iff_of_nodup (rows_nodup (insert_unrepeated unrepeated tuple)) ?_).mpr ?_
      · exact List.nodup_cons.mpr ⟨h, rows_nodup unrepeated⟩
      · exact fun t => by rw [mem_insert, List.mem_cons]
    have hlen := hperm.length_eq
    have hgen : (table.insert tuple).2.generation = table.generation + 1 := by
      unfold insert
      rw [if_neg fun hc => h (contains_iff.mp hc)]
    rw [List.length_cons] at hlen
    rw [size, size]
    omega

theorem mem_removeAll {table : PredicateTable} {tuples : List (List Nat)} {t : List Nat} :
    t ∈ (table.removeAll tuples).rows ↔ t ∉ tuples ∧ t ∈ table.rows := by
  unfold removeAll
  induction tuples generalizing table with
  | nil => simp
  | cons tuple tuples ih =>
    rw [List.foldl_cons, ih, mem_remove, List.mem_cons, not_or]
    tauto

theorem mem_insertAll {table : PredicateTable} {tuples : List (List Nat)} {t : List Nat} :
    t ∈ (table.insertAll tuples).rows ↔ t ∈ tuples ∨ t ∈ table.rows := by
  unfold insertAll
  induction tuples generalizing table with
  | nil => simp
  | cons tuple tuples ih =>
    rw [List.foldl_cons, ih, mem_insert, List.mem_cons]
    tauto

theorem removeAll_unrepeated {table : PredicateTable} (unrepeated : table.Unrepeated)
    (tuples : List (List Nat)) : (table.removeAll tuples).Unrepeated := by
  unfold removeAll
  induction tuples generalizing table with
  | nil => exact unrepeated
  | cons tuple tuples ih => exact ih (remove_unrepeated unrepeated tuple)

theorem insertAll_unrepeated {table : PredicateTable} (unrepeated : table.Unrepeated)
    (tuples : List (List Nat)) : (table.insertAll tuples).Unrepeated := by
  unfold insertAll
  induction tuples generalizing table with
  | nil => exact unrepeated
  | cons tuple tuples ih => exact ih (insert_unrepeated unrepeated tuple)

theorem removeAll_precedes (table : PredicateTable) (tuples : List (List Nat)) :
    table.Precedes (table.removeAll tuples) := by
  unfold removeAll
  induction tuples generalizing table with
  | nil => exact .refl table
  | cons tuple tuples ih => exact (table.remove_precedes tuple).trans (ih _)

theorem insertAll_precedes (table : PredicateTable) (tuples : List (List Nat)) :
    table.Precedes (table.insertAll tuples) := by
  unfold insertAll
  induction tuples generalizing table with
  | nil => exact .refl table
  | cons tuple tuples ih => exact (table.insert_precedes tuple).trans (ih _)

/-- Every id in the extent is tracked by the partition. -/
def Known (table : PredicateTable) (eq : Equality) : Prop :=
  ∀ tuple ∈ table.rows, ∀ x ∈ tuple, x < eq.size

/-- What a table owes to the one of which it is the canonical form. -/
structure Refreshed (eq : Equality) (table table' : PredicateTable) : Prop where
  unrepeated : table'.Unrepeated
  precedes : table.Precedes table'
  size : table'.size ≤ table.size
  rows : ∀ tuple, tuple ∈ table'.rows ↔ ∃ old ∈ table.rows, tuple = old.map eq.root

def stale (table : PredicateTable) (eq : Equality) : List (List Nat) :=
  table.rows.filter fun tuple => decide (tuple ≠ tuple.map eq.root)

theorem staleTuples_known {table : PredicateTable} {eq : Equality} (known : table.Known eq) :
    staleTuples eq.find table.rows =
      .ok ((table.stale eq).map fun tuple => (tuple, tuple.map eq.root)) := by
  have hm : (table.rows.mapM fun tuple => tuple.mapM eq.find) = .ok (table.rows.map (·.map eq.root)) :=
    mapM_eq_ok_iff.mpr (forall₂_map_right fun tuple ht => Equality.findAll_known (known tuple ht))
  have hz : table.rows.zip (table.rows.map (·.map eq.root)) =
      table.rows.map fun tuple => (tuple, tuple.map eq.root) := by
    generalize table.rows = rows
    induction rows with
    | nil => rfl
    | cons row rows ih => rw [List.map_cons, List.zip_cons_cons, ih, List.map_cons]
  simp only [staleTuples, hm]
  refine congrArg Except.ok ?_
  rw [hz, List.filter_map]
  rfl

theorem refresh_known {table : PredicateTable} {eq : Equality} (known : table.Known eq) :
    table.refresh eq.find = .ok
      ((table.removeAll (table.stale eq)).insertAll ((table.stale eq).map (·.map eq.root))) := by
  simp only [refresh, staleTuples_known known]
  refine congrArg Except.ok ?_
  rw [List.map_map, List.map_map]
  congr 2
  exact List.map_id _

theorem refresh_refreshed {table : PredicateTable} {eq : Equality}
    (unrepeated : table.Unrepeated) (known : table.Known eq) :
    ∃ table', table.refresh eq.find = .ok table' ∧ Refreshed eq table table' := by
  have hnodup := insertAll_unrepeated (removeAll_unrepeated unrepeated (table.stale eq))
    ((table.stale eq).map (·.map eq.root))
  have hrows : ∀ tuple, tuple ∈ ((table.removeAll (table.stale eq)).insertAll
      ((table.stale eq).map (·.map eq.root))).rows ↔ ∃ old ∈ table.rows, tuple = old.map eq.root := by
    intro tuple
    rw [mem_insertAll, mem_removeAll, List.mem_map]
    constructor
    · rintro (⟨old, hold, rfl⟩ | ⟨hs, ht⟩)
      · exact ⟨old, (List.mem_filter.mp hold).1, rfl⟩
      · refine ⟨tuple, ht, ?_⟩
        by_contra hne
        exact hs (List.mem_filter.mpr ⟨ht, decide_eq_true hne⟩)
    · rintro ⟨old, hold, rfl⟩
      by_cases hc : old = old.map eq.root
      · refine Or.inr ⟨fun hs => ?_, hc ▸ hold⟩
        rw [← hc] at hs
        exact of_decide_eq_true (List.mem_filter.mp hs).2 hc
      · exact Or.inl ⟨old, List.mem_filter.mpr ⟨hold, decide_eq_true hc⟩, rfl⟩
  refine ⟨_, refresh_known known, hnodup, ?_, ?_, hrows⟩
  · exact (removeAll_precedes table _).trans (insertAll_precedes _ _)
  · have hsub : ((table.removeAll (table.stale eq)).insertAll
        ((table.stale eq).map (·.map eq.root))).rows ⊆ table.rows.map (·.map eq.root) := by
      intro tuple ht
      obtain ⟨old, hold, rfl⟩ := (hrows tuple).mp ht
      exact List.mem_map_of_mem hold
    have hle := (List.subperm_of_subset (rows_nodup hnodup) hsub).length_le
    rwa [List.length_map] at hle

end PredicateTable

end PartialHorn
