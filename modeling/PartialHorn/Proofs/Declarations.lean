import PartialHorn.Signature

namespace PartialHorn

namespace Signature

/-- The symbols of a signature have declared sorts only. -/
structure Closed (sig : Signature) : Prop where
  operations : ∀ operation ∈ sig.operations, ∀ sort ∈ operation.domain ++ [operation.codomain],
    sort < sig.sorts.length
  predicates : ∀ predicate ∈ sig.predicates, ∀ sort ∈ predicate.domain, sort < sig.sorts.length

theorem undeclaredSort?_eq_none {sig : Signature} {sorts : List Nat} :
    sig.undeclaredSort? sorts = none ↔ ∀ sort ∈ sorts, sort < sig.sorts.length := by
  simp [undeclaredSort?]

section Closed

variable {sig larger : Signature} {position : Nat} (closed : sig.Closed)

include closed

theorem addSort_closed {name : String} (h : sig.addSort name = .ok (position, larger)) :
    larger.Closed := by
  unfold addSort at h
  split at h
  next => simp at h
  next =>
    obtain ⟨_, rfl⟩ := Prod.mk.inj (Except.ok.inj h)
    constructor
    · intro operation hmem sort hsort
      have hlt := closed.operations operation hmem sort hsort
      simp only [List.length_append, List.length_singleton]
      omega
    · intro predicate hmem sort hsort
      have hlt := closed.predicates predicate hmem sort hsort
      simp only [List.length_append, List.length_singleton]
      omega

theorem addOperation_closed {operation : Operation}
    (h : sig.addOperation operation = .ok (position, larger)) : larger.Closed := by
  unfold addOperation at h
  split at h
  next => simp at h
  next =>
    split at h
    next => simp at h
    next hnone =>
      obtain ⟨_, rfl⟩ := Prod.mk.inj (Except.ok.inj h)
      refine ⟨fun other hmem => ?_, closed.predicates⟩
      rcases List.mem_append.mp hmem with hmem | hmem
      · exact closed.operations other hmem
      · rw [List.mem_singleton.mp hmem]
        exact undeclaredSort?_eq_none.mp hnone

theorem addPredicate_closed {predicate : Predicate}
    (h : sig.addPredicate predicate = .ok (position, larger)) : larger.Closed := by
  unfold addPredicate at h
  split at h
  next => simp at h
  next =>
    split at h
    next => simp at h
    next hnone =>
      obtain ⟨_, rfl⟩ := Prod.mk.inj (Except.ok.inj h)
      refine ⟨closed.operations, fun other hmem => ?_⟩
      rcases List.mem_append.mp hmem with hmem | hmem
      · exact closed.predicates other hmem
      · rw [List.mem_singleton.mp hmem]
        exact undeclaredSort?_eq_none.mp hnone

theorem declare_closed {d : Declaration} (h : sig.declare d = .ok (position, larger)) :
    larger.Closed := by
  cases d with
  | sort name => exact addSort_closed closed h
  | operation operation => exact addOperation_closed closed h
  | predicate predicate => exact addPredicate_closed closed h

theorem declareAll_closed (ds : List Declaration) : (sig.declareAll ds).2.Closed := by
  induction ds generalizing sig with
  | nil => exact closed
  | cons d ds ih =>
    unfold declareAll
    split
    next h => exact ih (declare_closed closed h)
    next => exact ih closed

end Closed

/-- A declaration with an undeclared sort is rejected, so no symbol has one. -/
theorem ofDeclarations_closed (ds : List Declaration) : (ofDeclarations ds).2.Closed :=
  declareAll_closed ⟨by simp, by simp⟩ ds

end Signature

end PartialHorn
