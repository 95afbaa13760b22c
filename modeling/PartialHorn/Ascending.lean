namespace PartialHorn

namespace Ascending

/-- Puts a value in its place in an ascending list and hands the members above it on to `rest`. A
value that the list holds already is not repeated. -/
def place {α : Type} [LT α] [DecidableEq α] [DecidableLT α] (x : α) (rest : List α → List α) :
    List α → List α
  | [] => x :: rest []
  | y :: ys =>
    if x < y then x :: rest (y :: ys)
    else if x = y then x :: rest ys
    else y :: place x rest ys

def merge {α : Type} [LT α] [DecidableEq α] [DecidableLT α] : List α → List α → List α
  | [] => id
  | x :: xs => place x (merge xs)

def mergeNeighbours {α : Type} [LT α] [DecidableEq α] [DecidableLT α] :
    List (List α) → List (List α)
  | xs :: ys :: rest => merge xs ys :: mergeNeighbours rest
  | rest => rest

/-- Merges strictly ascending lists into one, neighbours first for a number of rounds. The rounds
keep the lists of about one length; the result is the same for any number of them. -/
def mergeAll {α : Type} [LT α] [DecidableEq α] [DecidableLT α] : Nat → List (List α) → List α
  | 0, runs => runs.foldr merge []
  | _, [] => []
  | _, [xs] => xs
  | rounds + 1, runs => mergeAll rounds (mergeNeighbours runs)

theorem mem_place {α : Type} [LT α] [DecidableEq α] [DecidableLT α] {a x : α}
    {rest : List α → List α} {P : α → Prop} (h : ∀ ys, a ∈ rest ys ↔ P a ∨ a ∈ ys) (ys : List α) :
    a ∈ place x rest ys ↔ a = x ∨ P a ∨ a ∈ ys := by
  induction ys with
  | nil => simp [place, h]
  | cons y ys ih =>
    unfold place
    split
    next => rw [List.mem_cons, h]
    next =>
      split
      next he =>
        subst he
        rw [List.mem_cons, h, List.mem_cons]
        constructor
        · rintro (hx | hp | hy)
          · exact Or.inl hx
          · exact Or.inr (Or.inl hp)
          · exact Or.inr (Or.inr (Or.inr hy))
        · rintro (hx | hp | hx | hy)
          · exact Or.inl hx
          · exact Or.inr (Or.inl hp)
          · exact Or.inl hx
          · exact Or.inr (Or.inr hy)
      next =>
        rw [List.mem_cons, ih, List.mem_cons]
        constructor
        · rintro (hy | hx | hp | hm)
          · exact Or.inr (Or.inr (Or.inl hy))
          · exact Or.inl hx
          · exact Or.inr (Or.inl hp)
          · exact Or.inr (Or.inr (Or.inr hm))
        · rintro (hx | hp | hy | hm)
          · exact Or.inr (Or.inl hx)
          · exact Or.inr (Or.inr (Or.inl hp))
          · exact Or.inl hy
          · exact Or.inr (Or.inr (Or.inr hm))

theorem mem_merge {α : Type} [LT α] [DecidableEq α] [DecidableLT α] {a : α} {xs ys : List α} :
    a ∈ merge xs ys ↔ a ∈ xs ∨ a ∈ ys := by
  induction xs generalizing ys with
  | nil => simp [merge]
  | cons x xs ih =>
    have h : a ∈ place x (merge xs) ys ↔ a = x ∨ a ∈ xs ∨ a ∈ ys :=
      mem_place (P := fun b => b ∈ xs) (fun zs => ih) ys
    simpa [merge, or_assoc] using h

/-- A value above all members comes last. -/
theorem merge_singleton_of_above {α : Type} [LT α] [DecidableEq α] [DecidableLT α] {x : α}
    {ys : List α} (h : ∀ y ∈ ys, ¬x < y ∧ x ≠ y) : merge [x] ys = ys ++ [x] := by
  induction ys with
  | nil => rfl
  | cons y ys ih =>
    obtain ⟨hlt, hne⟩ := h y (by simp)
    have hrest := ih fun z hz => h z (List.mem_cons_of_mem y hz)
    simp only [merge, place, if_neg hlt, if_neg hne, List.cons_append] at hrest ⊢
    rw [hrest]

theorem mem_mergeNeighbours {α : Type} [LT α] [DecidableEq α] [DecidableLT α] {a : α}
    (runs : List (List α)) :
    (∃ xs ∈ mergeNeighbours runs, a ∈ xs) ↔ ∃ xs ∈ runs, a ∈ xs := by
  fun_induction mergeNeighbours runs with
  | case1 xs ys rest ih => simp [mem_merge, ih, or_assoc]
  | case2 rest => rfl

theorem mem_mergeAll {α : Type} [LT α] [DecidableEq α] [DecidableLT α] {a : α} (rounds : Nat)
    (runs : List (List α)) : a ∈ mergeAll rounds runs ↔ ∃ xs ∈ runs, a ∈ xs := by
  fun_induction mergeAll rounds runs with
  | case1 runs =>
    induction runs with
    | nil => simp
    | cons xs runs ih => simp [mem_merge, ih]
  | case2 => simp
  | case3 => simp
  | case4 rounds runs _ _ ih => rw [ih, mem_mergeNeighbours]

end Ascending

/-- The members of a list in strictly ascending order, each of them once. -/
def ascending {α : Type} [LT α] [DecidableEq α] [DecidableLT α] (xs : List α) : List α :=
  Ascending.mergeAll xs.length (xs.map fun x => [x])

/-- Sorting neither drops a member nor adds one. -/
theorem mem_ascending {α : Type} [LT α] [DecidableEq α] [DecidableLT α] {a : α} {xs : List α} :
    a ∈ ascending xs ↔ a ∈ xs := by
  rw [ascending, Ascending.mem_mergeAll]
  constructor
  · rintro ⟨ys, hys, ha⟩
    obtain ⟨x, hx, rfl⟩ := List.mem_map.mp hys
    rw [List.mem_singleton] at ha
    exact ha ▸ hx
  · intro ha
    exact ⟨[a], List.mem_map.mpr ⟨a, ha, rfl⟩, List.mem_singleton.mpr rfl⟩

end PartialHorn
