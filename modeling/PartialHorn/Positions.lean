namespace PartialHorn

/-- The positions, counted from `start`, at which a list satisfies a predicate. -/
def positionsFrom {α : Type} (p : α → Bool) (start : Nat) : List α → List Nat
  | [] => []
  | x :: xs =>
    if p x then start :: positionsFrom p (start + 1) xs
    else positionsFrom p (start + 1) xs

def positions {α : Type} (p : α → Bool) (xs : List α) : List Nat :=
  positionsFrom p 0 xs

theorem mem_positionsFrom {α : Type} {p : α → Bool} {start i : Nat} {xs : List α} :
    i ∈ positionsFrom p start xs ↔ start ≤ i ∧ ∃ x, xs[i - start]? = some x ∧ p x = true := by
  induction xs generalizing start with
  | nil => simp [positionsFrom]
  | cons x xs ih =>
    have step : i ∈ positionsFrom p (start + 1) xs ↔
        start < i ∧ ∃ y, (x :: xs)[i - start]? = some y ∧ p y = true := by
      rw [ih]
      constructor
      · rintro ⟨hlt, y, hy, ht⟩
        have he : i - start = (i - (start + 1)) + 1 := by omega
        exact ⟨by omega, y, by rw [he, List.getElem?_cons_succ]; exact hy, ht⟩
      · rintro ⟨hlt, y, hy, ht⟩
        have he : i - start = (i - (start + 1)) + 1 := by omega
        rw [he, List.getElem?_cons_succ] at hy
        exact ⟨by omega, y, hy, ht⟩
    unfold positionsFrom
    split
    next hx =>
      rw [List.mem_cons, step]
      constructor
      · rintro (rfl | ⟨hlt, h⟩)
        · exact ⟨Nat.le_refl _, x, by simp, hx⟩
        · exact ⟨by omega, h⟩
      · rintro ⟨hle, h⟩
        by_cases he : i = start
        · exact Or.inl he
        · exact Or.inr ⟨by omega, h⟩
    next hx =>
      rw [step]
      constructor
      · rintro ⟨hlt, h⟩
        exact ⟨by omega, h⟩
      · rintro ⟨hle, y, hy, ht⟩
        by_cases he : i = start
        · subst he
          simp only [Nat.sub_self, List.getElem?_cons_zero, Option.some.injEq] at hy
          subst hy
          exact absurd ht hx
        · exact ⟨by omega, y, hy, ht⟩

/-- A position is listed exactly when the list has an entry there that satisfies the predicate. -/
theorem mem_positions {α : Type} {p : α → Bool} {i : Nat} {xs : List α} :
    i ∈ positions p xs ↔ ∃ x, xs[i]? = some x ∧ p x = true := by
  simp [positions, mem_positionsFrom]

theorem positionsFrom_append {α : Type} (p : α → Bool) (start : Nat) (xs ys : List α) :
    positionsFrom p start (xs ++ ys) =
      positionsFrom p start xs ++ positionsFrom p (start + xs.length) ys := by
  induction xs generalizing start with
  | nil => rfl
  | cons x xs ih =>
    have hs : start + 1 + xs.length = start + (xs.length + 1) := by omega
    simp only [List.cons_append, positionsFrom, List.length_cons, ih, hs]
    split
    next => rfl
    next => rfl

theorem positions_concat {α : Type} (p : α → Bool) (xs : List α) (x : α) :
    positions p (xs ++ [x]) = positions p xs ++ if p x then [xs.length] else [] := by
  simp [positions, positionsFrom_append, positionsFrom]

end PartialHorn
