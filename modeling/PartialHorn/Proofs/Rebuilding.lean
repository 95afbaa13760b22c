import PartialHorn.Proofs.CongruenceClosure
import PartialHorn.Proofs.Representation

namespace PartialHorn

namespace Structure

/-- Rounds are made as long as the structure is dirty, however many it takes. Counted are the rounds
and the merges in them; a round that fails leads nowhere. -/
inductive RoundsTo : Structure → Nat → Nat → Structure → Prop
  | settled {s : Structure} (clean : s.dirty = false) : RoundsTo s 0 0 s
  | again {s next last : Structure} {merges rounds more : Nat} (dirty : s.dirty = true)
      (one : s.round = .ok (merges, next)) (rest : RoundsTo next rounds more last) :
      RoundsTo s (rounds + 1) (merges + more) last

/-- Allowing more rounds than are needed makes no difference. -/
theorem RoundsTo.rounds_eq {s t : Structure} {rounds merges : Nat} (h : s.RoundsTo rounds merges t)
    {most : Nat} (enough : rounds ≤ most) : s.rounds most = .ok (merges, t) := by
  induction h generalizing most with
  | settled clean => exact rounds_clean clean most
  | again dirty one rest ih =>
    obtain ⟨fewer, rfl⟩ : ∃ fewer, most = fewer + 1 := ⟨most - 1, by omega⟩
    exact rounds_dirty dirty one (ih (by omega))

/-- Every round but the last one merges two classes, so only finitely many follow each other. -/
theorem Valid.rounds_end {s : Structure} (valid : s.Valid) :
    ∃ rounds merges t, s.RoundsTo rounds merges t ∧ rounds ≤ merges + 1 ∧ merges ≤ s.classCount := by
  induction hclasses : s.classCount using Nat.strong_induction_on generalizing s with
  | _ classes ih =>
    by_cases dirty : s.dirty = true
    · obtain ⟨merges, equations, next, one, round⟩ := round_spec valid
      have valid' := round.after_valid valid
      have hcount := round.counted
      have hbefore := valid.partition.counted
      have hafter := valid'.partition.counted
      have hsize := round.coarsens.size
      have hless : next.classCount + merges = s.classCount := by
        simp only [classCount, Partition.classCount_eq, Equality.classCount]
        omega
      -- A round without merges leaves the structure clean, so no other one follows.
      by_cases hz : merges = 0
      · have clean : next.dirty = false := by simp [round.dirty, hz]
        exact ⟨1, merges + 0, next, .again dirty one (.settled clean), by omega, by omega⟩
      · obtain ⟨rounds, more, last, rest, hrounds, hmore⟩ :=
          ih next.classCount (by omega) valid' rfl
        exact ⟨rounds + 1, merges + more, last, .again dirty one rest, by omega, by omega⟩
    · have clean : s.dirty = false := by simpa using dirty
      exact ⟨0, 0, s, .settled clean, by omega, by omega⟩

theorem RoundsTo.renewed {s t : Structure} {rounds merges : Nat} (h : s.RoundsTo rounds merges t)
    (enough : rounds ≤ s.classCount + 1) :
    (Action.rebuild s).answer = .ok merges ∧ s.renewed = t := by
  simp only [Structure.renewed, Action.rebuild, rebuilt, h.rounds_eq enough]
  exact ⟨trivial, trivial⟩

/-- The merges of a rebuild are the classes that it takes away. -/
theorem Valid.classCount_renewed {s : Structure} (valid : s.Valid) {merges : Nat}
    (rebuilds : s.Rebuilds merges) : s.renewed.classCount + merges = s.classCount := by
  have hcounted := rebuilds.counted
  have hsize : s.renewed.equality.size = s.equality.size := by
    rw [rebuilds.valid.tracked, valid.tracked, size, rebuilds.renews.sorts, size]
  have hbefore := valid.partition.counted
  have hafter := rebuilds.valid.partition.counted
  simp only [classCount, Partition.classCount_eq, Equality.classCount]
  omega

/-- Nothing is left to be done: no merge waits to reach the tables, no equation waits to be merged,
every stored element is the least of its class, and no operation has two rows for some arguments. -/
structure Settled (s : Structure) : Prop where
  clean : s.dirty = false
  drained : s.equality.pending = []
  rows : ∀ op row, s.HasRow op row → ∀ x ∈ row.cells, s.equality.find x = .ok x
  tuples : ∀ pred tuple, s.HasTuple pred tuple → ∀ x ∈ tuple, s.equality.find x = .ok x
  functional : ∀ table ∈ s.operations, (table.rows.map Row.args).Nodup

theorem Valid.settled {s : Structure} (valid : s.Valid) (clean : s.dirty = false) : s.Settled where
  clean := clean
  drained := valid.drained
  rows _ _ h x hx := Equality.find_eq_ok_iff.mpr (valid.row_fixed clean h x hx)
  tuples _ _ h x hx := Equality.find_eq_ok_iff.mpr (valid.tuple_fixed clean h x hx)
  functional := valid.keyed

end Structure

/-- A rebuild never fails and comes to its end by itself, after at most one round more than there
were classes. It settles the structure without touching the elements, and answers how many classes
were merged away. After that there is nothing to rebuild. -/
theorem rebuild_settles {sig : Signature} {s : Structure} (reachable : s.Reachable sig) :
    ∃ rounds merges t, s.RoundsTo rounds merges t ∧ rounds ≤ s.classCount + 1 ∧
      (Action.rebuild s).answer = .ok merges ∧ (Action.rebuild s).after = t ∧ t.Settled ∧
      t.size = s.size ∧ t.sorts = s.sorts ∧
      t.classCount + merges = s.classCount ∧
      t.equality.merges = s.equality.merges + merges ∧
      (Action.rebuild t).answer = .ok 0 ∧ (Action.rebuild t).after = t := by
  have valid := reachable.valid
  obtain ⟨rounds, merges, t, rest, hrounds, hmerges⟩ := valid.rounds_end
  have enough : rounds ≤ s.classCount + 1 := by omega
  obtain ⟨hanswer, rfl⟩ := rest.renewed enough
  obtain ⟨merges', rebuilds⟩ := valid.rebuilds
  obtain rfl : merges' = merges := Except.ok.inj (rebuilds.answer.symm.trans hanswer)
  have hsorts := rebuilds.renews.sorts
  obtain ⟨hagain, hsame⟩ := Structure.renewed_clean rebuilds.clean
  exact ⟨rounds, merges', s.renewed, rest, enough, hanswer, rfl, rebuilds.valid.settled rebuilds.clean,
    congrArg List.length hsorts, hsorts, valid.classCount_renewed rebuilds, rebuilds.counted, hagain,
    hsame⟩

/-- Two merges follow from the one at the bottom, one after the other. -/
theorem rebuild_settles_chain :
    (Action.rebuild ((Structure.empty chainSignature).afterCalls chainCalls)).answer = .ok 2 ∧
      (∃ rounds ≤ 6,
        ((Structure.empty chainSignature).afterCalls chainCalls).RoundsTo rounds 2 chainClosure) ∧
      chainClosure.Settled ∧ chainClosure.classCount = 3 := by
  have reachable : ((Structure.empty chainSignature).afterCalls chainCalls).Reachable chainSignature :=
    ⟨chainCalls, rfl⟩
  have answered : (Action.rebuild ((Structure.empty chainSignature).afterCalls chainCalls)).answer =
      .ok 2 := rfl
  have closed : (Action.rebuild ((Structure.empty chainSignature).afterCalls chainCalls)).after =
      chainClosure := rfl
  obtain ⟨rounds, merges, t, rest, hrounds, hanswer, hafter, hsettled, _⟩ := rebuild_settles reachable
  obtain rfl : 2 = merges := Except.ok.inj (answered.symm.trans hanswer)
  obtain rfl : chainClosure = t := closed.symm.trans hafter
  exact ⟨answered, ⟨rounds, hrounds, rest⟩, hsettled, rfl⟩

end PartialHorn
