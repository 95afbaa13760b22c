import PartialHorn.Proofs.Growth
import PartialHorn.Proofs.Scoping
import Mathlib.Logic.Function.Basic

namespace PartialHorn

/-- Values for the variables of a sequent; a variable may have none. -/
abbrev Valuation (C : Type*) := Nat → Option C

/-- Variables have the given values, one by one. -/
def Valuation.Reads {C : Type*} (v : Valuation C) (vars : List Nat) (xs : List C) : Prop :=
  List.Forall₂ (fun var x => v var = some x) vars xs

namespace Structure

/-- An atom is true under a valuation, up to equality. -/
def Makes (s : Structure) (v : Valuation Nat) : Atom → Prop
  | .op op args result => ∃ xs x, v.Reads args xs ∧ v result = some x ∧ s.Applies op xs x
  | .pred pred args => ∃ xs, v.Reads args xs ∧ s.Relates pred xs
  | .eq lhs rhs => ∃ x y, v lhs = some x ∧ v rhs = some y ∧ s.Equal x y

/-- Conclusions are true when they are read from left to right: the result of an operation has the
value of the operation or, as long as it has no value, takes it on. -/
def Concludes (s : Structure) : List Atom → Valuation Nat → Prop
  | [], _ => True
  | .op op args result :: atoms, v => ∃ xs y, v.Reads args xs ∧ s.Applies op xs y ∧
      match v result with
      | some z => s.Equal z y ∧ s.Concludes atoms v
      | none => s.Concludes atoms (Function.update v result (some y))
  | .pred pred args :: atoms, v => (∃ xs, v.Reads args xs ∧ s.Relates pred xs) ∧ s.Concludes atoms v
  | .eq lhs rhs :: atoms, v =>
    (∃ x y, v lhs = some x ∧ v rhs = some y ∧ s.Equal x y) ∧ s.Concludes atoms v

/-- A valuation gives an element of the right sort to exactly the variables that need one. -/
structure Assigns (s : Structure) (seq : Sequent) (v : Valuation Nat) : Prop where
  ranged : ∀ var ∈ seq.ranged, ∃ x sort, v var = some x ∧ seq.sort? var = some sort ∧
    s.sorts[x]? = some sort
  only : ∀ var, var ∉ seq.ranged → v var = none

theorem Assigns.lt_size {s : Structure} {seq : Sequent} {v : Valuation Nat} (h : s.Assigns seq v)
    {var x : Nat} (hx : v var = some x) : x < s.size := by
  by_cases hvar : var ∈ seq.ranged
  · obtain ⟨y, sort, hy, _, hsort⟩ := h.ranged var hvar
    cases Option.some.inj (hx.symm.trans hy)
    exact (List.getElem?_eq_some_iff.mp hsort).1
  · exact nomatch hx.symm.trans (h.only var hvar)

/-- A sequent holds: whatever the elements for its variables, if the premises are true, then so are
the conclusions. -/
def Satisfies (s : Structure) (seq : Sequent) : Prop :=
  ∀ v, s.Assigns seq v → (∀ atom ∈ seq.premises, s.Makes v atom) → s.Concludes seq.conclusions v

/-- Two valuations give the same or equal elements to the same variables. -/
def Agrees (s : Structure) (v w : Valuation Nat) : Prop :=
  ∀ var, Option.Rel (fun x y => x = y ∨ s.Equal x y) (v var) (w var)

namespace Agrees

theorem refl (s : Structure) (v : Valuation Nat) : s.Agrees v v := by
  intro var
  cases v var with
  | none => exact .none
  | some x => exact .some (Or.inl rfl)

variable {s : Structure} {v w : Valuation Nat} (h : s.Agrees v w)

include h

theorem some {var x : Nat} (hx : v var = some x) : ∃ y, w var = some y ∧ (x = y ∨ s.Equal x y) := by
  have hrel := h var
  rw [hx] at hrel
  cases hw : w var with
  | none =>
    rw [hw] at hrel
    exact nomatch hrel
  | some y =>
    rw [hw] at hrel
    cases hrel with
    | some he => exact ⟨y, rfl, he⟩

theorem none {var : Nat} (hx : v var = none) : w var = none := by
  have hrel := h var
  rw [hx] at hrel
  cases hw : w var with
  | none => rfl
  | some y =>
    rw [hw] at hrel
    exact nomatch hrel

theorem symm : s.Agrees w v := by
  intro var
  cases hv : v var with
  | none =>
    rw [h.none hv]
    exact .none
  | some x =>
    obtain ⟨y, hy, he⟩ := h.some hv
    rw [hy]
    exact .some (he.imp Eq.symm Equal.symm)

theorem reads {vars xs : List Nat} (hx : v.Reads vars xs) :
    ∃ ys, w.Reads vars ys ∧ List.Forall₂ (fun x y => x = y ∨ s.Equal x y) xs ys := by
  induction hx with
  | nil => exact ⟨[], .nil, .nil⟩
  | cons hvar _ ih =>
    obtain ⟨y, hy, he⟩ := h.some hvar
    obtain ⟨ys, hys, hes⟩ := ih
    exact ⟨y :: ys, .cons hy hys, .cons he hes⟩

theorem update {x y : Nat} (he : s.Equal x y) (var : Nat) :
    s.Agrees (Function.update v var (Option.some x)) (Function.update w var (Option.some y)) := by
  intro other
  by_cases heq : other = var
  · subst heq
    rw [Function.update_self, Function.update_self]
    exact .some (Or.inr he)
  · rw [Function.update_of_ne heq, Function.update_of_ne heq]
    exact h other

end Agrees

/-- What is true of some elements is true of the same or equal ones. -/
theorem Equal.agrees {s : Structure} {x x' y y' : Nat} (h : s.Equal x y) (hx : x = x' ∨ s.Equal x x')
    (hy : y = y' ∨ s.Equal y y') : s.Equal x' y' := by
  have hleft : s.Equal x' y := hx.elim (fun he => he ▸ h) fun he => he.symm.trans h
  exact hy.elim (fun he => he ▸ hleft) fun he => hleft.trans he

theorem equal_all_agrees {s : Structure} {xs ys zs : List Nat}
    (h : List.Forall₂ (fun x y => x = y ∨ s.Equal x y) xs ys) (hz : List.Forall₂ s.Equal xs zs) :
    List.Forall₂ s.Equal ys zs :=
  forall₂_trans (fun _ _ _ hyx hxz => hxz.agrees hyx (Or.inl rfl)) (forall₂_swap (fun _ _ he => he) h)
    hz

theorem Applies.agrees {s : Structure} {op x y : Nat} {xs ys : List Nat} (h : s.Applies op xs x)
    (hargs : List.Forall₂ (fun x y => x = y ∨ s.Equal x y) xs ys) (hx : x = y ∨ s.Equal x y) :
    s.Applies op ys y := by
  obtain ⟨row, hrow, hr, hv⟩ := h
  exact ⟨row, hrow, equal_all_agrees hargs hr, hv.agrees hx (Or.inl rfl)⟩

theorem Relates.agrees {s : Structure} {pred : Nat} {xs ys : List Nat} (h : s.Relates pred xs)
    (hargs : List.Forall₂ (fun x y => x = y ∨ s.Equal x y) xs ys) : s.Relates pred ys := by
  obtain ⟨tuple, htuple, hr⟩ := h
  exact ⟨tuple, htuple, equal_all_agrees hargs hr⟩

theorem Applies.equal_self {s : Structure} {op y : Nat} {xs : List Nat} (h : s.Applies op xs y) :
    s.Equal y y := by
  obtain ⟨row, _, _, he⟩ := h
  exact he.trans he.symm

theorem Makes.mono {s t : Structure} (grows : s.Grows t) {v w : Valuation Nat} (agrees : t.Agrees v w)
    {atom : Atom} (h : s.Makes v atom) : t.Makes w atom := by
  cases atom with
  | op op args result =>
    obtain ⟨xs, x, hargs, hresult, happ⟩ := h
    obtain ⟨ys, hys, hes⟩ := agrees.reads hargs
    obtain ⟨y, hy, he⟩ := agrees.some hresult
    exact ⟨ys, y, hys, hy, (grows.applies happ).agrees hes he⟩
  | pred pred args =>
    obtain ⟨xs, hargs, hrel⟩ := h
    obtain ⟨ys, hys, hes⟩ := agrees.reads hargs
    exact ⟨ys, hys, (grows.relates hrel).agrees hes⟩
  | eq lhs rhs =>
    obtain ⟨x, y, hl, hr, he⟩ := h
    obtain ⟨x', hl', hx⟩ := agrees.some hl
    obtain ⟨y', hr', hy⟩ := agrees.some hr
    exact ⟨x', y', hl', hr', (grows.equal x y he).agrees hx hy⟩

/-- Conclusions stay true while a structure grows, and under values that have become equal. -/
theorem Concludes.mono {s t : Structure} (grows : s.Grows t) {atoms : List Atom} {v w : Valuation Nat}
    (agrees : t.Agrees v w) (h : s.Concludes atoms v) : t.Concludes atoms w := by
  induction atoms generalizing v w with
  | nil => trivial
  | cons atom atoms ih =>
    cases atom with
    | op op args result =>
      obtain ⟨xs, y, hargs, happ, hrest⟩ := h
      obtain ⟨ys, hys, hes⟩ := agrees.reads hargs
      have happ' := grows.applies happ
      refine ⟨ys, y, hys, happ'.agrees hes (Or.inl rfl), ?_⟩
      cases hv : v result with
      | none =>
        rw [hv] at hrest
        rw [agrees.none hv]
        exact ih (agrees.update happ'.equal_self result) hrest
      | some z =>
        rw [hv] at hrest
        obtain ⟨z', hw, hz⟩ := agrees.some hv
        rw [hw]
        exact ⟨(grows.equal _ _ hrest.1).agrees hz (Or.inl rfl), ih agrees hrest.2⟩
    | pred pred args =>
      obtain ⟨⟨xs, hargs, hrel⟩, hrest⟩ := h
      obtain ⟨ys, hys, hes⟩ := agrees.reads hargs
      exact ⟨⟨ys, hys, (grows.relates hrel).agrees hes⟩, ih agrees hrest⟩
    | eq lhs rhs =>
      obtain ⟨⟨x, y, hl, hr, he⟩, hrest⟩ := h
      obtain ⟨x', hl', hx⟩ := agrees.some hl
      obtain ⟨y', hr', hy⟩ := agrees.some hr
      exact ⟨⟨x', y', hl', hr', (grows.equal x y he).agrees hx hy⟩, ih agrees hrest⟩

end Structure

end PartialHorn
