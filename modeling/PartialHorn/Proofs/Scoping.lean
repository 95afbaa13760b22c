import PartialHorn.Rule
import PartialHorn.Proofs.Pointwise
import Mathlib.Data.List.Nodup

namespace PartialHorn

namespace Atom

/-- The variable that a conclusion may introduce. -/
def result? : Atom → Option Nat
  | .op _ _ result => some result
  | _ => none

/-- The variables that conclusions read before one of them introduces them. -/
def readFirst : List Atom → List Nat
  | [] => []
  | atom :: atoms => atom.inputs ++ (readFirst atoms).filter fun var => atom.result? ≠ some var

end Atom

namespace Sequent

/-- The variables that need a value before the conclusions are drawn: those of the premises, and
those that the conclusions read before they introduce them. -/
def ranged (seq : Sequent) : List Nat :=
  seq.premises.flatMap Atom.vars ++ Atom.readFirst seq.conclusions

/-- The sort of a variable, if the context has it. -/
def sort? (seq : Sequent) (var : Nat) : Option Nat :=
  (seq.vars[var]?).map Variable.sort

/-- Variables have the given sorts, one by one. -/
def Sorted (seq : Sequent) (vars sorts : List Nat) : Prop :=
  List.Forall₂ (fun var sort => seq.sort? var = some sort) vars sorts

/-- An atom agrees with a signature. -/
def Fits (seq : Sequent) (sig : Signature) : Atom → Prop
  | .op op args result => ∃ operation, sig.operations[op]? = some operation ∧
      seq.Sorted args operation.domain ∧ seq.sort? result = some operation.codomain
  | .pred pred args => ∃ predicate, sig.predicates[pred]? = some predicate ∧
      seq.Sorted args predicate.domain
  | .eq lhs rhs => ∃ sort, seq.sort? lhs = some sort ∧ seq.sort? rhs = some sort

end Sequent

namespace Scope

variable {bound : List Nat} {scope : Scope} {v : Nat}

theorem require_introduced (var : Nat) : (scope.require bound var).introduced = scope.introduced := by
  unfold require
  split
  next => rfl
  next => rfl

theorem mem_require {var : Nat} : v ∈ (scope.require bound var).scanned ↔
    v ∈ scope.scanned ∨ (v = var ∧ v ∉ bound ∧ v ∉ scope.introduced) := by
  unfold require
  split
  next h =>
    refine ⟨Or.inl, ?_⟩
    rintro (hv | ⟨rfl, hb, hi⟩)
    · exact hv
    · exact (h.resolve_left hb).resolve_left hi
  next h =>
    rw [not_or, not_or] at h
    rw [List.mem_append, List.mem_singleton]
    constructor
    · rintro (hv | rfl)
      · exact Or.inl hv
      · exact Or.inr ⟨rfl, h.1, h.2.1⟩
    · rintro (hv | ⟨rfl, _, _⟩)
      · exact Or.inl hv
      · exact Or.inr rfl

theorem requires_introduced (vars : List Nat) :
    (vars.foldl (require bound) scope).introduced = scope.introduced := by
  induction vars generalizing scope with
  | nil => rfl
  | cons var vars ih => rw [List.foldl_cons, ih, require_introduced]

theorem mem_requires {vars : List Nat} : v ∈ (vars.foldl (require bound) scope).scanned ↔
    v ∈ scope.scanned ∨ (v ∈ vars ∧ v ∉ bound ∧ v ∉ scope.introduced) := by
  induction vars generalizing scope with
  | nil => simp
  | cons var vars ih =>
    rw [List.foldl_cons, ih, mem_require, require_introduced, List.mem_cons]
    tauto

theorem introduce_scanned (var : Nat) : (scope.introduce bound var).scanned = scope.scanned := by
  unfold introduce
  split
  next => rfl
  next => rfl

theorem mem_introduce {var : Nat} : v ∈ (scope.introduce bound var).introduced ↔
    v ∈ scope.introduced ∨ (v = var ∧ v ∉ bound ∧ v ∉ scope.scanned) := by
  unfold introduce
  split
  next h =>
    refine ⟨Or.inl, ?_⟩
    rintro (hv | ⟨rfl, hb, hs⟩)
    · exact hv
    · exact (h.resolve_left hb).resolve_right hs
  next h =>
    rw [not_or, not_or] at h
    rw [List.mem_append, List.mem_singleton]
    constructor
    · rintro (hv | rfl)
      · exact Or.inl hv
      · exact Or.inr ⟨rfl, h.1, h.2.2⟩
    · rintro (hv | ⟨rfl, _, _⟩)
      · exact Or.inl hv
      · exact Or.inr rfl

theorem mem_conclude_scanned {atom : Atom} : v ∈ (scope.conclude bound atom).scanned ↔
    v ∈ scope.scanned ∨ (v ∈ atom.inputs ∧ v ∉ bound ∧ v ∉ scope.introduced) := by
  cases atom with
  | op op args result =>
    simp only [conclude, introduce_scanned]
    exact mem_requires
  | pred pred args => exact mem_requires
  | eq lhs rhs => exact mem_requires

theorem mem_conclude_introduced {atom : Atom} : v ∈ (scope.conclude bound atom).introduced ↔
    v ∈ scope.introduced ∨
      (atom.result? = some v ∧ v ∉ bound ∧ v ∉ (scope.conclude bound atom).scanned) := by
  cases atom with
  | op op args result =>
    simp only [conclude, mem_introduce, introduce_scanned, requires_introduced, Atom.result?,
      Option.some.injEq, eq_comm]
  | pred pred args => simp [conclude, requires_introduced, Atom.result?]
  | eq lhs rhs => simp [conclude, requires_introduced, Atom.result?]

/-- A conclusion asks for a scan of what it reads, unless an earlier one introduces it. -/
theorem mem_concludes {atoms : List Atom} :
    v ∈ (atoms.foldl (conclude bound) scope).scanned ↔
      v ∈ scope.scanned ∨ (v ∈ Atom.readFirst atoms ∧ v ∉ bound ∧ v ∉ scope.introduced) := by
  induction atoms generalizing scope with
  | nil => simp [Atom.readFirst]
  | cons atom atoms ih =>
    rw [List.foldl_cons, ih, mem_conclude_introduced, mem_conclude_scanned]
    simp only [Atom.readFirst, List.mem_append, List.mem_filter, decide_eq_true_iff]
    tauto

theorem require_nodup (h : scope.scanned.Nodup) (var : Nat) :
    (scope.require bound var).scanned.Nodup := by
  unfold require
  split
  next => exact h
  next hnot =>
    rw [not_or, not_or] at hnot
    refine List.Nodup.append h (List.nodup_singleton var) fun a ha hb => ?_
    rw [List.mem_singleton] at hb
    exact hnot.2.2 (hb ▸ ha)

theorem requires_nodup (bound : List Nat) (h : scope.scanned.Nodup) (vars : List Nat) :
    (vars.foldl (require bound) scope).scanned.Nodup := by
  induction vars generalizing scope with
  | nil => exact h
  | cons var vars ih => exact ih (require_nodup h var)

theorem concludes_nodup (h : scope.scanned.Nodup) (atoms : List Atom) :
    (atoms.foldl (conclude bound) scope).scanned.Nodup := by
  induction atoms generalizing scope with
  | nil => exact h
  | cons atom atoms ih =>
    refine ih ?_
    have hread := requires_nodup bound h atom.inputs
    cases atom with
    | op op args result =>
      rw [conclude, introduce_scanned]
      exact hread
    | pred pred args => exact hread
    | eq lhs rhs => exact hread

end Scope

namespace Sequent

variable {seq : Sequent}

theorem mem_joined_or_comparands {v : Nat} : v ∈ seq.premises.flatMap Atom.vars ↔
    v ∈ seq.joined ∨ v ∈ seq.premises.flatMap Atom.comparands := by
  simp only [joined, List.mem_flatMap]
  constructor
  · rintro ⟨atom, hatom, hv⟩
    cases atom with
    | op op args result => exact Or.inl ⟨_, hatom, hv⟩
    | pred pred args => exact Or.inl ⟨_, hatom, hv⟩
    | eq lhs rhs => exact Or.inr ⟨_, hatom, hv⟩
  · rintro (⟨atom, hatom, hv⟩ | ⟨atom, hatom, hv⟩)
    · refine ⟨atom, hatom, ?_⟩
      cases atom with
      | op op args result => exact hv
      | pred pred args => exact hv
      | eq lhs rhs => simp [Atom.joinVars] at hv
    · refine ⟨atom, hatom, ?_⟩
      cases atom with
      | op op args result => simp [Atom.comparands] at hv
      | pred pred args => simp [Atom.comparands] at hv
      | eq lhs rhs => exact hv

theorem mem_scanned {v : Nat} : v ∈ seq.scope.scanned ↔ v ∉ seq.joined ∧
    (v ∈ seq.premises.flatMap Atom.comparands ∨ v ∈ Atom.readFirst seq.conclusions) := by
  rw [scope, Scope.mem_concludes, Scope.mem_requires, Scope.requires_introduced]
  simp only [List.not_mem_nil, not_false_eq_true, and_true, false_or]
  tauto

/-- The variables that the joins bind or that are scanned are exactly those that need a value. -/
theorem mem_ranged {v : Nat} : v ∈ seq.ranged ↔ v ∈ seq.joined ∨ v ∈ seq.scope.scanned := by
  rw [ranged, List.mem_append, mem_joined_or_comparands, mem_scanned]
  tauto

theorem scanned_nodup : seq.scope.scanned.Nodup :=
  Scope.concludes_nodup (Scope.requires_nodup _ List.nodup_nil _) _

end Sequent

end PartialHorn
