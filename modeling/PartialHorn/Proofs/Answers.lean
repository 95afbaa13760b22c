import PartialHorn.Proofs.Safety
import PartialHorn.Proofs.Tightening

namespace PartialHorn

namespace Structure

theorem Valid.applicable {s : Structure} (valid : s.Valid) {op x : Nat} {args : List Nat}
    (h : s.Applies op args x) : ∃ operation, s.Applicable op args operation ∧
      s.sorts[x]? = some operation.codomain := by
  obtain ⟨row, hrow, hargs, hx⟩ := h
  obtain ⟨operation, hop, typed, hsort⟩ := valid.rowTyped op row hrow
  exact ⟨operation, ⟨hop, valid.typed_equal (equal_all_symm hargs) typed⟩,
    valid.equal_sort hx.symm hsort⟩

theorem Valid.relatable {s : Structure} (valid : s.Valid) {pred : Nat} {args : List Nat}
    (h : s.Relates pred args) : ∃ predicate, s.Relatable pred args predicate := by
  obtain ⟨tuple, htuple, hargs⟩ := h
  obtain ⟨predicate, hpred, typed⟩ := valid.tupleTyped pred tuple htuple
  exact ⟨predicate, hpred, valid.typed_equal (equal_all_symm hargs) typed⟩

section Renewed

variable {s : Structure} (valid : s.Valid)

include valid

/-- A rebuild keeps the symbols and the sorts, so it decides nothing about what can be applied. -/
theorem applicable_renewed {op : Nat} {args : List Nat} {operation : Operation} :
    s.renewed.Applicable op args operation ↔ s.Applicable op args operation := by
  have renews := renews_renewed valid
  simp [Applicable, Typed, renews.signature, renews.sorts]

theorem relatable_renewed {pred : Nat} {args : List Nat} {predicate : Predicate} :
    s.renewed.Relatable pred args predicate ↔ s.Relatable pred args predicate := by
  have renews := renews_renewed valid
  simp [Relatable, Typed, renews.signature, renews.sorts]

/-- What the table of an operation has under the representatives of some arguments is the
representative of its value there. -/
theorem result?_renewed {op r : Nat} {args : List Nat} (hargs : ∀ x ∈ args, x < s.size) :
    s.renewed.result? op (s.key args) = some r ↔
      s.renewed.Applies op args r ∧ s.renewed.equality.reps[r]? = some r := by
  have hvalid := renewed_valid valid
  have clean := renewed_dirty valid
  constructor
  · intro h
    have hrow := hvalid.result?_iff.mp h
    have hlt := (hvalid.row_lt hrow).2
    have hroot : s.renewed.equality.root r = r :=
      congrArg Row.result (hvalid.rowCanonical clean op _ hrow)
    have hrep := Equality.getElem?_root (hvalid.tracked ▸ hlt)
    rw [hroot] at hrep
    exact ⟨⟨_, hrow, key_equal valid hargs, hvalid.equal_refl hlt⟩, hrep⟩
  · intro ⟨happlies, hrep⟩
    obtain ⟨_, _, hrow⟩ := (hvalid.applies_iff clean).mp happlies
    rw [Equality.root_eq_of_getElem? hrep] at hrow
    exact hvalid.result?_iff.mpr hrow

theorem hasTuple_renewed {pred : Nat} {args : List Nat} (hargs : ∀ x ∈ args, x < s.size) :
    s.renewed.hasTuple pred (s.key args) = true ↔ s.renewed.Relates pred args := by
  rw [hasTuple_iff, (renewed_valid valid).relates_iff (renewed_dirty valid), renewed_size valid]
  exact ⟨fun h => ⟨hargs, h⟩, fun h => h.2⟩

end Renewed

end Structure

namespace Action

open Structure

theorem find_answers {s : Structure} {x r : Nat} :
    (find x s).answer = .ok r ↔ s.equality.reps[x]? = some r :=
  Equality.find_eq_ok_iff

theorem sortOf_answers {s : Structure} {x sort : Nat} :
    (sortOf x s).answer = .ok sort ↔ s.sorts[x]? = some sort :=
  sortOf_eq_ok_iff

theorem areEqual_answers {s : Structure} {x y : Nat} :
    (areEqual x y s).answer = .ok true ↔ s.Equal x y := by
  have hanswer : (areEqual x y s).answer = s.equality.areEqual x y := rfl
  rw [hanswer, Equality.areEqual, except_bind_eq_ok]
  constructor
  · intro ⟨r, hx, h⟩
    obtain ⟨r', hy, he⟩ := except_bind_eq_ok.mp h
    have hsame : r = r' := of_decide_eq_true (Except.ok.inj he)
    exact ⟨r, Equality.find_eq_ok_iff.mp hx, hsame ▸ Equality.find_eq_ok_iff.mp hy⟩
  · intro ⟨r, hx, hy⟩
    refine ⟨r, Equality.find_eq_ok_iff.mpr hx, ?_⟩
    rw [Equality.find_eq_ok_iff.mpr hy]
    exact congrArg Except.ok (decide_eq_true rfl)

section Valid

variable {s : Structure} (valid : s.Valid)

include valid

/-- A value is looked up as the representative of what the operation has there after a rebuild. -/
theorem lookup_answers {op r : Nat} {args : List Nat} :
    (lookup op args s).answer = .ok (some r) ↔
      s.renewed.Applies op args r ∧ s.renewed.equality.reps[r]? = some r := by
  rcases lookup_cases valid op args with ⟨hnot, ⟨e, he⟩, _⟩ | ⟨operation, happ, hanswer, _⟩
  · have hfails : (lookup op args s).answer ≠ .ok (some r) := by simp [he]
    refine iff_of_false hfails fun h => ?_
    obtain ⟨operation, happ, _⟩ := (renewed_valid valid).applicable h.1
    exact hnot operation ((applicable_renewed valid).mp happ)
  · rw [hanswer, Except.ok.injEq]
    exact result?_renewed valid happ.2.lt_size

theorem lookup_after {op : Nat} {args : List Nat} {answer : Option Nat}
    (h : (lookup op args s).answer = .ok answer) : (lookup op args s).after = s.renewed := by
  rcases lookup_cases valid op args with ⟨_, ⟨e, he⟩, _⟩ | ⟨_, _, _, hafter⟩
  · simp [he] at h
  · exact hafter

theorem holds_answers {pred : Nat} {args : List Nat} :
    (holds pred args s).answer = .ok true ↔ s.renewed.Relates pred args := by
  rcases holds_cases valid pred args with ⟨hnot, ⟨e, he⟩, _⟩ | ⟨predicate, hrel, hanswer, _⟩
  · have hfails : (holds pred args s).answer ≠ .ok true := by simp [he]
    refine iff_of_false hfails fun h => ?_
    obtain ⟨predicate, hrel⟩ := (renewed_valid valid).relatable h
    exact hnot predicate ((relatable_renewed valid).mp hrel)
  · rw [hanswer, Except.ok.injEq]
    exact hasTuple_renewed valid hrel.2.lt_size

end Valid

end Action

end PartialHorn
