import PartialHorn.Binding
import PartialHorn.Positions
import Mathlib.Data.List.Lex
import Mathlib.Data.List.Sort

namespace PartialHorn

namespace Ascending

section

variable {α : Type} [LT α] [DecidableEq α] [DecidableLT α] [IsStrictTotalOrder α (· < ·)]

theorem place_pairwise {x : α} {rest : List α → List α} {P : α → Prop} (above : ∀ a, P a → x < a)
    (mem : ∀ a ys, a ∈ rest ys ↔ P a ∨ a ∈ ys)
    (sorted : ∀ ys : List α, ys.Pairwise (· < ·) → (rest ys).Pairwise (· < ·)) {ys : List α}
    (h : ys.Pairwise (· < ·)) : (place x rest ys).Pairwise (· < ·) := by
  have least : ∀ zs : List α, (∀ a ∈ zs, x < a) → ∀ a ∈ rest zs, x < a := fun zs hz a ha =>
    ((mem a zs).mp ha).elim (above a) (hz a)
  induction ys with
  | nil =>
    rw [place, List.pairwise_cons]
    exact ⟨least [] (by simp), sorted [] h⟩
  | cons y ys ih =>
    obtain ⟨hy, hys⟩ := List.pairwise_cons.mp h
    unfold place
    split
    next hlt =>
      rw [List.pairwise_cons]
      refine ⟨least (y :: ys) fun a ha => ?_, sorted _ h⟩
      rcases List.mem_cons.mp ha with rfl | ha
      · exact hlt
      · exact trans_of (· < ·) hlt (hy a ha)
    next hnot =>
      split
      next he =>
        subst he
        rw [List.pairwise_cons]
        exact ⟨least ys hy, sorted _ hys⟩
      next hne =>
        have hlt : y < x := by
          rcases trichotomous_of (· < ·) x y with hxy | he | hyx
          · exact absurd hxy hnot
          · exact absurd he hne
          · exact hyx
        rw [List.pairwise_cons]
        refine ⟨fun a ha => ?_, ih hys⟩
        rcases (mem_place (mem a) ys).mp ha with rfl | hp | ha
        · exact hlt
        · exact trans_of (· < ·) hlt (above a hp)
        · exact hy a ha

theorem merge_pairwise {xs ys : List α} (hx : xs.Pairwise (· < ·)) (hy : ys.Pairwise (· < ·)) :
    (merge xs ys).Pairwise (· < ·) := by
  induction xs generalizing ys with
  | nil => exact hy
  | cons x xs ih =>
    obtain ⟨above, hxs⟩ := List.pairwise_cons.mp hx
    apply place_pairwise (P := fun a => a ∈ xs) above
    · exact fun a ys => mem_merge
    · exact fun ys hys => ih hxs hys
    · exact hy

theorem mergeNeighbours_pairwise {runs : List (List α)}
    (h : ∀ run ∈ runs, run.Pairwise (· < ·)) :
    ∀ run ∈ mergeNeighbours runs, run.Pairwise (· < ·) := by
  fun_induction mergeNeighbours runs with
  | case1 xs ys rest ih =>
    intro run hrun
    rcases List.mem_cons.mp hrun with rfl | hrun
    · exact merge_pairwise (h xs (by simp)) (h ys (by simp))
    · exact ih (fun run hr => h run (by simp [hr])) run hrun
  | case2 rest => exact h

theorem mergeAll_pairwise (rounds : Nat) {runs : List (List α)}
    (h : ∀ run ∈ runs, run.Pairwise (· < ·)) : (mergeAll rounds runs).Pairwise (· < ·) := by
  fun_induction mergeAll rounds runs with
  | case1 runs =>
    induction runs with
    | nil => exact List.Pairwise.nil
    | cons xs runs ih =>
      exact merge_pairwise (h xs (by simp)) (ih fun run hr => h run (by simp [hr]))
  | case2 => exact List.Pairwise.nil
  | case3 => exact h _ (by simp)
  | case4 rounds runs _ _ ih => exact ih (mergeNeighbours_pairwise h)

end

end Ascending

section

variable {α : Type} [LT α] [DecidableEq α] [DecidableLT α] [IsStrictTotalOrder α (· < ·)]

theorem ascending_pairwise (xs : List α) : (ascending xs).Pairwise (· < ·) := by
  apply Ascending.mergeAll_pairwise
  intro run hrun
  obtain ⟨x, _, rfl⟩ := List.mem_map.mp hrun
  exact List.pairwise_singleton _ _

/-- A sorted list tells the members of a list and neither their order nor their repetitions. -/
theorem ascending_congr {xs ys : List α} (h : ∀ a, a ∈ xs ↔ a ∈ ys) :
    ascending xs = ascending ys := by
  apply (ascending_pairwise xs).eq_of_mem_iff (ascending_pairwise ys)
  intro a
  rw [mem_ascending, mem_ascending, h]

end

theorem positionsFrom_pairwise {α : Type} (p : α → Bool) (start : Nat) (xs : List α) :
    (positionsFrom p start xs).Pairwise (· < ·) := by
  induction xs generalizing start with
  | nil => exact List.Pairwise.nil
  | cons x xs ih =>
    unfold positionsFrom
    split
    next =>
      refine List.pairwise_cons.mpr ⟨fun i hi => ?_, ih (start + 1)⟩
      have hle := (mem_positionsFrom.mp hi).1
      omega
    next => exact ih (start + 1)

/-- Positions are listed in their order. -/
theorem positions_pairwise {α : Type} (p : α → Bool) (xs : List α) :
    (positions p xs).Pairwise (· < ·) :=
  positionsFrom_pairwise p 0 xs

namespace Binding

/-- Unbound comes first, then the values in their order. -/
instance isStrictTotalOrder_value : IsStrictTotalOrder (Option Nat) (· < ·) where
  irrefl a h := by
    cases a with
    | none => exact h
    | some x => exact Nat.lt_irrefl x h
  trans a b c h h' := by
    cases a with
    | none =>
      cases c with
      | none =>
        cases b with
        | none => exact h
        | some y => exact h'
      | some z => trivial
    | some x =>
      cases b with
      | none => exact absurd h id
      | some y =>
        cases c with
        | none => exact absurd h' id
        | some z => exact Nat.lt_trans h h'
  trichotomous a b h h' := by
    cases a with
    | none =>
      cases b with
      | none => rfl
      | some y => exact absurd trivial h
    | some x =>
      cases b with
      | none => exact absurd trivial h'
      | some y =>
        have hle : ¬x < y := h
        have hge : ¬y < x := h'
        congr 1
        omega

/-- Bindings are ordered as words are. -/
instance isStrictTotalOrder : IsStrictTotalOrder Binding (· < ·) :=
  have weak : IsStrictWeakOrder (List (Option Nat)) (List.Lex (· < ·)) :=
    isStrictWeakOrder_of_isOrderConnected
  { weak, List.Lex.trichotomous (· < ·) with }

end Binding

end PartialHorn
