import PartialHorn.Proofs.Reordering

namespace PartialHorn

namespace Structure

/-- An operation has a row with a given canonical form. -/
def HasForm (s : Structure) (op : Nat) (form : Row) : Prop :=
  ∃ row, s.HasRow op row ∧ s.equality.canonical row = form

/-- Two structures that differ in their operation tables at most, the rows of which have the same
canonical forms. -/
structure Akin (s t : Structure) : Prop extends s.Aligned t where
  forms : ∀ op form, t.HasForm op form ↔ s.HasForm op form

theorem Akin.symm {s t : Structure} (h : s.Akin t) : t.Akin s :=
  ⟨h.toAligned.symm, fun op form => (h.forms op form).symm⟩

theorem Akin.trans {s t u : Structure} (h : s.Akin t) (h' : t.Akin u) : s.Akin u :=
  ⟨h.toAligned.trans h'.toAligned, fun op form => (h'.forms op form).trans (h.forms op form)⟩

theorem Twin.akin {s t : Structure} (h : s.Twin t) : s.Akin t := by
  refine ⟨h.toAligned, fun op form => ?_⟩
  simp only [HasForm, h.hasRow, h.equality]

theorem Valid.hasForm_iff {s : Structure} (valid : s.Valid) (clean : s.dirty = false) {op : Nat}
    {row : Row} : s.HasForm op row ↔ s.HasRow op row := by
  constructor
  · rintro ⟨old, hold, rfl⟩
    rwa [valid.rowCanonical clean op old hold]
  · intro h
    exact ⟨row, h, valid.rowCanonical clean op row h⟩

/-- In clean structures the rows are their own canonical forms. -/
theorem Akin.twin {s t : Structure} (h : s.Akin t) (valid : s.Valid) (valid' : t.Valid)
    (clean : s.dirty = false) : s.Twin t := by
  have harities : List.Forall₂ (fun a b : OperationTable => b.arity = a.arity)
      s.operations t.operations := by
    have hs := forall₂_swap (fun _ _ => Eq.symm) valid.operationArities
    have ht := valid'.operationArities
    rw [h.signature] at ht
    exact forall₂_trans (fun _ _ _ ha hb => hb.trans ha) hs ht
  refine ⟨h.toAligned, forall₂_of_getElem? harities.length_eq fun op a b ha hb => ?_⟩
  obtain ⟨b', hb', harity⟩ := forall₂_getElem? harities ha
  cases Option.some.inj (hb.symm.trans hb')
  have nodup : ∀ {u : Structure} {table : OperationTable}, u.Valid →
      u.operations[op]? = some table → table.rows.Nodup := fun valid ht =>
    List.Nodup.of_map _ (valid.keyed _ (List.mem_of_getElem? ht))
  refine ⟨harity, (List.perm_ext_iff_of_nodup (nodup valid ha) (nodup valid' hb)).mpr fun row => ?_⟩
  rw [← hasRow_iff ha, ← hasRow_iff hb, ← valid.hasForm_iff clean, ← h.forms,
    valid'.hasForm_iff (h.dirty.trans clean)]

namespace Round

variable {s t : Structure} {merges : Nat} {equations : List Equation}
  (round : s.Round merges equations t) (valid : s.Valid)

include round valid

theorem canonical {op : Nat} {row : Row} (h : s.HasRow op row) :
    t.equality.canonical (s.equality.canonical row) = t.equality.canonical row := by
  obtain ⟨hargs, hresult⟩ := valid.row_lt h
  have hroot : ∀ x, x < s.size → t.equality.root (s.equality.root x) = t.equality.root x :=
    fun x hx => (root_eq (round.equal (valid.equal_root hx))).symm
  exact Equality.canonical_canonical (fun x hx => hroot x (hargs x hx)) (hroot _ hresult)

/-- A round makes the canonical forms canonical for the new partition and adds no other one, so it
does not matter which rows stay where several have one form. -/
theorem hasForm {op : Nat} {form : Row} :
    t.HasForm op form ↔ ∃ old, s.HasForm op old ∧ t.equality.canonical old = form := by
  constructor
  · rintro ⟨row, hrow, rfl⟩
    obtain ⟨old, hold, rfl⟩ := round.row hrow
    exact ⟨_, ⟨old, hold, rfl⟩, rfl⟩
  · rintro ⟨_, ⟨old, hold, rfl⟩, rfl⟩
    obtain ⟨new, hnew, hargs, hresult⟩ := round.covers valid hold
    refine ⟨new, hnew, ?_⟩
    have hsame := round.canonical valid hold
    rw [hsame]
    simp only [Equality.canonical, Row.mk.injEq] at hsame ⊢
    rw [hargs, hsame.1]
    exact ⟨rfl, (root_eq hresult).symm⟩

/-- Two canonical forms that differ in their results at most have their results merged. -/
theorem settles {op : Nat} {form form' : Row} (h : s.HasForm op form) (h' : s.HasForm op form')
    (hargs : form.args = form'.args) : t.Equal form.result form'.result := by
  have settled : ∀ {f : Row}, s.HasForm op f →
      ∃ new, t.HasRow op new ∧ new.args = f.args ∧ t.Equal f.result new.result := by
    rintro _ ⟨row, hrow, rfl⟩
    obtain ⟨new, hnew, hargs, hresult⟩ := round.covers valid hrow
    have hroot := round.equal (valid.equal_root (valid.row_lt hrow).2)
    exact ⟨new, hnew, hargs, hroot.symm.trans hresult⟩
  obtain ⟨new, hnew, ha, hr⟩ := settled h
  obtain ⟨new', hnew', ha', hr'⟩ := settled h'
  have he := (round.after_valid valid).row_unique hnew hnew' (by rw [ha, ha', hargs])
  exact hr.trans (he ▸ hr'.symm)

/-- Whatever the equations of a round are, they lie within the partition that a round makes of a
structure akin to this one. -/
theorem within {s' t' : Structure} {merges' : Nat} {equations' : List Equation}
    (round' : s'.Round merges' equations' t') (akin : s.Akin s') (x y : Nat)
    (h : t'.Equal x y) : t.Equal x y := by
  have hclosed := round'.least (fun x y => x = y ∨ t.Equal x y) t.eq_or_equal_equivalence
    (fun x y hxy => Or.inr (round.equal (akin.equal.mp hxy))) ?_ x y h
  · rcases hclosed with rfl | he
    · have hlt : x < t'.equality.size := Equality.Same.lt_left h
      rw [round'.coarsens.size, akin.equality, ← round.coarsens.size] at hlt
      exact Equality.Same.refl hlt
    · exact he
  · intro e he
    obtain ⟨table, ht, row, hrow, row', hrow', hargs, hl, hr⟩ := round'.collisions e he
    obtain ⟨op, hop⟩ := List.mem_iff_getElem?.mp ht
    have hform : ∀ {r : Row}, r ∈ table.rows → s.HasForm op (s'.equality.canonical r) := fun hr =>
      (akin.forms _ _).mp ⟨_, ⟨table, hop, hr⟩, rfl⟩
    rw [hl, hr]
    exact Or.inr (round.settles valid (hform hrow) (hform hrow') hargs)

end Round

theorem predicates_of_round {s t : Structure} {merges : Nat} (h : s.round = .ok (merges, t)) :
    s.predicates.mapM (·.refresh s.equality.find) = .ok t.predicates := by
  obtain ⟨_, _, h⟩ := except_bind_eq_ok.mp h
  obtain ⟨predicates, hpreds, h⟩ := except_bind_eq_ok.mp h
  obtain ⟨_, _, h⟩ := except_bind_eq_ok.mp h
  cases h
  exact hpreds

/-- One round on akin structures makes as many merges and leaves akin structures again. -/
theorem Akin.round {s s' : Structure} (akin : s.Akin s') (valid : s.Valid) (valid' : s'.Valid) :
    ∃ merges t t', s.round = .ok (merges, t) ∧ s'.round = .ok (merges, t') ∧ t.Valid ∧ t'.Valid ∧
      t.Akin t' := by
  obtain ⟨merges, es, t, hround, round⟩ := round_spec valid
  obtain ⟨merges', es', t', hround', round'⟩ := round_spec valid'
  have ht := round.after_valid valid
  have ht' := round'.after_valid valid'
  have hequality : t'.equality = t.equality := by
    apply Equality.ext_of_same ht.partition ht'.partition
    · rw [round.coarsens.size, round'.coarsens.size, akin.equality]
    · rw [round.coarsens.pending, round'.coarsens.pending, akin.equality]
    · exact round'.within valid' round akin.symm
    · exact round.within valid round' akin
  have hmerges : merges' = merges := by
    have hc := round.counted
    have hc' := round'.counted
    rw [hequality, akin.equality] at hc'
    omega
  subst hmerges
  have hpredicates : t'.predicates = t.predicates := by
    have hp := predicates_of_round hround
    have hp' := predicates_of_round hround'
    rw [akin.predicates, akin.equality, hp] at hp'
    exact (Except.ok.inj hp').symm
  refine ⟨merges', t, t', hround, hround', ht, ht', ⟨?_, ?_, ?_, hequality, hpredicates, ?_⟩, ?_⟩
  · rw [round.signature, round'.signature, akin.signature]
  · rw [round.sorts, round'.sorts, akin.sorts]
  · rw [round.carriers, round'.carriers, akin.carriers]
  · rw [round.dirty, round'.dirty]
  · intro op form
    rw [round.hasForm valid, round'.hasForm valid', hequality]
    simp only [akin.forms]

end Structure

end PartialHorn
