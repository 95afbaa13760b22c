import PartialHorn.Proofs.Answers

namespace PartialHorn

open PartialHorn.Action

/-- A later structure still gives the answers of an earlier one: elements have their sorts, equal
elements are equal, predicates hold of what they held of, and an operation has its values, now under
their representatives. -/
structure Structure.Upholds (t s : Structure) : Prop where
  sorts : ∀ x sort, (Action.sortOf x s).answer = .ok sort → (Action.sortOf x t).answer = .ok sort
  equal : ∀ x y, (areEqual x y s).answer = .ok true → (areEqual x y t).answer = .ok true
  values : ∀ op args x, (lookup op args s).answer = .ok (some x) →
    ∃ r, (lookup op args t).answer = .ok (some r) ∧ (find x (lookup op args t).after).answer = .ok r
  facts : ∀ pred args, (holds pred args s).answer = .ok true → (holds pred args t).answer = .ok true

namespace Structure

section Grows

variable {s t : Structure} (grows : s.Grows t) (valid : s.Valid) (valid' : t.Valid)

include grows valid valid'

/-- The value that an earlier lookup answered is still one, so a later lookup answers its
representative. -/
theorem Grows.lookup_later {op x : Nat} {args : List Nat}
    (h : (lookup op args s).answer = .ok (some x)) :
    ∃ r, (lookup op args t).answer = .ok (some r) ∧
      (find x (lookup op args t).after).answer = .ok r := by
  have grows' := grows.trans (grows_renewed valid')
  have hvalid := renewed_valid valid'
  obtain ⟨happlies, hx⟩ := (lookup_answers valid).mp h
  have hlater := grows'.applies_renewed valid hvalid (renewed_dirty valid') happlies
  obtain ⟨hargs, hlt, _⟩ := (hvalid.applies_iff (renewed_dirty valid')).mp hlater
  have hroot := hvalid.equal_root hlt
  have hrep := Equality.getElem?_root (hvalid.tracked ▸ hlt)
  have hanswer : (lookup op args t).answer = .ok (some (t.renewed.equality.root x)) := by
    apply (lookup_answers valid').mpr
    exact ⟨hlater.congr (hvalid.equal_all_refl hargs) hroot, hvalid.partition.fixed x _ hrep⟩
  refine ⟨_, hanswer, ?_⟩
  rw [lookup_after valid' hanswer]
  exact find_answers.mpr hrep

theorem Grows.upholds : t.Upholds s where
  sorts _ _ h := sortOf_answers.mpr (grows.sort (sortOf_answers.mp h))
  equal x y h := areEqual_answers.mpr (grows.equal x y (areEqual_answers.mp h))
  values _ _ _ := grows.lookup_later valid valid'
  facts pred args h := by
    have grows' := grows.trans (grows_renewed valid')
    apply (holds_answers valid').mpr
    exact grows'.relates_renewed valid (renewed_valid valid') (renewed_dirty valid')
      ((holds_answers valid).mp h)

end Grows

end Structure

/-- Nothing that was known is ever forgotten, whatever calls follow. Any of them may fail, and a
chase may be given any rules and may end in the middle of one. -/
theorem calls_forget_nothing {sig : Signature} {s : Structure} (reachable : s.Reachable sig)
    (calls : List Call) : (s.afterCalls calls).Upholds s := by
  have valid := reachable.valid
  obtain ⟨valid', grows⟩ := Structure.afterCalls_keeps calls s valid
  exact grows.upholds valid valid'

/-- A sort with an operation and a predicate. -/
def mirrorSignature : Signature where
  sorts := ["S"]
  operations := [⟨"f", [0], 0⟩]
  predicates := [⟨"P", [0]⟩]

/-- Two elements and their images, of which `P` has the second. -/
def mirrorStart : Structure :=
  (Structure.empty mirrorSignature).afterCalls
    [.add 0, .add 0, .define 0 [0], .define 0 [1], .assert 0 [3]]

/-- A rule whose second conclusion reads a variable that nothing binds. -/
def brokenRule : Rule where
  name := "broken"
  index := 0
  varCount := 2
  plan := [.pred 0 [0]]
  head := [.op 0 [0] 0, .pred 0 [1]]
  operationsRead := []
  predicatesRead := [0]
  sortsScanned := []

/-- A merge, a run of the chase that fails in the middle of a rule, and another merge. -/
def mirrorCalls : List Call :=
  [.merge 0 1, .chaseOnce [brokenRule], .merge 0 2]

/-- The merge of the arguments makes the images equal, so the value 3 is found as the class of 0. -/
theorem calls_forget_nothing_mirror :
    (lookup 0 [1] mirrorStart).answer = .ok (some 3) ∧
      (lookup 0 [1] (mirrorStart.afterCalls mirrorCalls)).answer = .ok (some 0) ∧
      (holds 0 [3] (mirrorStart.afterCalls mirrorCalls)).answer = .ok true := by
  have upholds := calls_forget_nothing ⟨_, rfl⟩ mirrorCalls (s := mirrorStart)
  have start : (lookup 0 [1] mirrorStart).answer = .ok (some 3) := rfl
  obtain ⟨r, hlater, hfind⟩ := upholds.values 0 [1] 3 start
  have hr : 0 = r := Except.ok.inj hfind
  exact ⟨start, hr ▸ hlater, upholds.facts 0 [3] rfl⟩

end PartialHorn
