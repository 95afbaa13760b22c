import Mathlib.Data.List.Basic

namespace PartialHorn

section Edits

variable {σ τ ε α : Type}

/-- The answers to edits that are made in turn. -/
def editAnswers (edit : σ → ε → α × σ) (s : σ) : List ε → List α
  | [] => []
  | e :: es => (edit s e).1 :: editAnswers edit (edit s e).2 es

/-- What edits leave, one after the other. -/
def edited (edit : σ → ε → α × σ) (s : σ) (edits : List ε) : σ :=
  edits.foldl (fun s e => (edit s e).2) s

open Classical in
/-- One if an edit changes something. -/
noncomputable def change (edit : σ → ε → α × σ) (s : σ) (e : ε) : Nat :=
  if (edit s e).2 = s then 0 else 1

/-- How many of some edits changed something. -/
noncomputable def changes (edit : σ → ε → α × σ) (s : σ) : List ε → Nat
  | [] => 0
  | e :: es => change edit s e + changes edit (edit s e).2 es

variable {edit : σ → ε → α × σ} {s : σ}

theorem change_of_eq {e : ε} (h : (edit s e).2 = s) : change edit s e = 0 :=
  if_pos h

theorem change_of_ne {e : ε} (h : (edit s e).2 ≠ s) : change edit s e = 1 :=
  if_neg h

theorem edited_append (edits later : List ε) :
    edited edit s (edits ++ later) = edited edit (edited edit s edits) later := by
  unfold edited
  rw [List.foldl_append]

theorem edited_snoc (edits : List ε) (e : ε) :
    edited edit s (edits ++ [e]) = (edit (edited edit s edits) e).2 := by
  rw [edited_append]
  rfl

theorem editAnswers_snoc (edits : List ε) (e : ε) : editAnswers edit s (edits ++ [e]) =
    editAnswers edit s edits ++ [(edit (edited edit s edits) e).1] := by
  induction edits generalizing s with
  | nil => rfl
  | cons e' es ih =>
    simp only [List.cons_append, editAnswers, ih]
    rfl

theorem editAnswers_length (edits : List ε) : (editAnswers edit s edits).length = edits.length := by
  induction edits generalizing s with
  | nil => rfl
  | cons e es ih => simp only [editAnswers, List.length_cons, ih]

theorem changes_append (edits later : List ε) : changes edit s (edits ++ later) =
    changes edit s edits + changes edit (edited edit s edits) later := by
  induction edits generalizing s with
  | nil => simp [changes, edited]
  | cons e es ih =>
    have hrest := ih (s := (edit s e).2)
    simp only [List.cons_append, changes, hrest]
    show _ = change edit s e + _ + changes edit (edited edit (edit s e).2 es) later
    omega

theorem changes_snoc (edits : List ε) (e : ε) : changes edit s (edits ++ [e]) =
    changes edit s edits + change edit (edited edit s edits) e := by
  rw [changes_append]
  simp [changes]

theorem changes_le (edits : List ε) : changes edit s edits ≤ edits.length := by
  induction edits generalizing s with
  | nil => exact Nat.le_refl 0
  | cons e es ih =>
    have hone : change edit s e ≤ 1 := by
      unfold change
      split
      next => omega
      next => omega
    have hrest := ih (s := (edit s e).2)
    simp only [changes, List.length_cons]
    omega

/-- Edits of which none changes anything leave everything as it was all along. -/
theorem edited_of_no_change {edits : List ε} (h : changes edit s edits = 0) {first : List ε}
    (hfirst : first <+: edits) : edited edit s first = s := by
  induction edits generalizing s first with
  | nil =>
    rw [List.prefix_nil.mp hfirst]
    rfl
  | cons e es ih =>
    simp only [changes, Nat.add_eq_zero_iff] at h
    -- A first edit that changes something would count as one.
    have hsame : (edit s e).2 = s := by
      by_contra hne
      rw [change_of_ne hne] at h
      omega
    rw [hsame] at h
    cases first with
    | nil => rfl
    | cons e' first =>
      obtain ⟨rfl, hrest⟩ := List.cons_prefix_cons.mp hfirst
      show edited edit (edit s e').2 first = s
      rw [hsame]
      exact ih h.2 hrest

/-- Between two moments with the same number of changes nothing changed. -/
theorem edited_of_changes_eq {first between edits : List ε} (hfirst : first <+: between)
    (hbetween : between <+: edits) (h : changes edit s edits = changes edit s first) :
    edited edit s between = edited edit s first := by
  obtain ⟨middle, rfl⟩ := hfirst
  obtain ⟨last, rfl⟩ := hbetween
  rw [List.append_assoc, changes_append] at h
  have hnone : changes edit (edited edit s first) (middle ++ last) = 0 := by omega
  rw [edited_append]
  exact edited_of_no_change hnone (List.prefix_append middle last)

/-- A relation that every edit keeps while the answers agree, and that counts the changes of the
second state. -/
def Refines (edit : σ → ε → α × σ) (spec : τ → ε → α × τ) (R : σ → τ → Nat → Prop) : Prop :=
  ∀ s t n e, R s t n →
    (edit s e).1 = (spec t e).1 ∧ R (edit s e).2 (spec t e).2 (n + change spec t e)

theorem Refines.run {spec : τ → ε → α × τ} {R : σ → τ → Nat → Prop} (refines : Refines edit spec R)
    {t : τ} {n : Nat} (h : R s t n) (edits : List ε) :
    editAnswers edit s edits = editAnswers spec t edits ∧
      R (edited edit s edits) (edited spec t edits) (n + changes spec t edits) := by
  induction edits generalizing s t n with
  | nil => exact ⟨rfl, h⟩
  | cons e es ih =>
    obtain ⟨hanswer, hnext⟩ := refines s t n e h
    obtain ⟨hanswers, hlast⟩ := ih hnext
    rw [Nat.add_assoc] at hlast
    refine ⟨?_, hlast⟩
    simp only [editAnswers, hanswer, hanswers]

end Edits

end PartialHorn
