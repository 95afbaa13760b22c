import PartialHorn.Proofs.Saturation
import PartialHorn.Proofs.Sorting

namespace PartialHorn

/-- All ways to take one entry of each list, ordered by the first entry, then by the second one, and
so on. -/
def selections {α : Type} : List (List α) → List (List α)
  | [] => [[]]
  | xs :: rest => xs.flatMap fun x => (selections rest).map (List.cons x)

theorem mem_selections {α : Type} {choices : List (List α)} {ys : List α} :
    ys ∈ selections choices ↔ List.Forall₂ (fun y xs => y ∈ xs) ys choices := by
  induction choices generalizing ys with
  | nil => simp [selections]
  | cons xs rest ih =>
    simp only [selections, List.mem_flatMap, List.mem_map, ih, List.forall₂_cons_right_iff]
    constructor
    · rintro ⟨x, hx, zs, hzs, rfl⟩
      exact ⟨x, zs, hx, hzs, rfl⟩
    · rintro ⟨x, zs, hx, hzs, rfl⟩
      exact ⟨x, hx, zs, hzs, rfl⟩

/-- Selections from ascending lists come in ascending order. -/
theorem selections_pairwise {α : Type} [LT α] {choices : List (List α)}
    (h : ∀ xs ∈ choices, xs.Pairwise (· < ·)) : (selections choices).Pairwise (· < ·) := by
  induction choices with
  | nil => exact List.pairwise_singleton _ _
  | cons xs rest ih =>
    obtain ⟨hxs, hrest⟩ := List.forall_mem_cons.mp h
    apply List.pairwise_flatMap.mpr
    refine ⟨fun x _ => ?_, hxs.imp fun hxy ys hys zs hzs => ?_⟩
    · exact List.pairwise_map.mpr ((ih hrest).imp fun hlt => List.Lex.cons hlt)
    · obtain ⟨_, _, rfl⟩ := List.mem_map.mp hys
      obtain ⟨_, _, rfl⟩ := List.mem_map.mp hzs
      exact List.Lex.rel hxy

namespace Structure

/-- What a variable of a sequent ranges over: the representatives of its sort, or no value at all if
it needs none. -/
def choices (s : Structure) (seq : Sequent) (var : Nat) : List (Option Nat) :=
  if var ∈ seq.ranged then ((seq.sort? var).toList.flatMap s.canonicalCarrier).map some else [none]

/-- Whether the tables have what an atom says of some canonical values. -/
def confirms (s : Structure) (b : Binding) : Atom → Bool
  | .op op args result =>
    match b.values? args, b.value result with
    | some xs, some x => s.result? op xs == some x
    | _, _ => false
  | .pred pred args => (b.values? args).any (s.hasTuple pred)
  | .eq lhs rhs => (b.value lhs).isSome && b.value lhs == b.value rhs

/-- The bindings that make the premises of a sequent true, found by trying all of them in order. -/
def enumerated (s : Structure) (seq : Sequent) : List Binding :=
  (selections ((List.range seq.vars.length).map (s.choices seq))).filter fun b =>
    seq.premises.all (s.confirms b)

section Valid

variable {s : Structure} (valid : s.Valid)

include valid

theorem choices_pairwise (seq : Sequent) (var : Nat) : (s.choices seq var).Pairwise (· < ·) := by
  unfold choices
  split
  next =>
    cases seq.sort? var with
    | none => exact List.Pairwise.nil
    | some sort =>
      simp only [Option.toList_some, List.flatMap_singleton]
      exact List.pairwise_map.mpr ((valid.carrier_pairwise sort).filter _)
  next => exact List.pairwise_singleton _ _

theorem enumerated_pairwise (seq : Sequent) : (s.enumerated seq).Pairwise (· < ·) := by
  apply List.Pairwise.filter
  apply selections_pairwise
  intro xs hxs
  obtain ⟨var, _, rfl⟩ := List.mem_map.mp hxs
  exact choices_pairwise valid seq var

theorem mem_choices {seq : Sequent}
    (declared : ∀ var sort, seq.sort? var = some sort → sort < s.signature.sorts.length) {var : Nat}
    {value : Option Nat} : value ∈ s.choices seq var ↔
      (var ∈ seq.ranged ∧ ∃ x sort, value = some x ∧ seq.sort? var = some sort ∧
        s.sorts[x]? = some sort ∧ s.equality.reps[x]? = some x) ∨
      (var ∉ seq.ranged ∧ value = none) := by
  unfold choices
  split
  next hvar =>
    simp only [hvar, List.mem_map, List.mem_flatMap, Option.mem_toList]
    constructor
    · rintro ⟨x, ⟨sort, hsort, hmem⟩, rfl⟩
      obtain ⟨hx, hrep⟩ := (valid.mem_canonicalCarrier (declared var sort hsort)).mp hmem
      exact Or.inl ⟨trivial, x, sort, rfl, hsort, hx, hrep⟩
    · rintro (⟨_, x, sort, rfl, hsort, hx, hrep⟩ | ⟨hnot, _⟩)
      · have hmem := (valid.mem_canonicalCarrier (declared var sort hsort)).mpr ⟨hx, hrep⟩
        exact ⟨x, ⟨sort, hsort, hmem⟩, rfl⟩
      · exact absurd trivial hnot
  next hvar => simp [hvar]

end Valid

section Confirms

variable {s : Structure} (valid : s.Valid) (clean : s.dirty = false) {b : Binding}
  (canonical : s.Canonical b)

include canonical

theorem canonical_root {var x : Nat} (hx : b.value var = some x) :
    x < s.equality.size ∧ s.equality.root x = x := by
  have hrep := canonical var x hx
  exact ⟨Equality.lt_size_of_getElem? hrep, Equality.root_eq_of_getElem? hrep⟩

theorem canonical_roots {vars xs : List Nat} (h : Valuation.Reads b.value vars xs) :
    (∀ x ∈ xs, x < s.equality.size) ∧ xs.map s.equality.root = xs := by
  have hroot : ∀ x ∈ xs, x < s.equality.size ∧ s.equality.root x = x := by
    intro x hx
    obtain ⟨var, _, hvar⟩ := forall₂_left_of_mem h hx
    exact canonical_root canonical hvar
  exact ⟨fun x hx => (hroot x hx).1, map_eq_self_iff.mpr fun x hx => (hroot x hx).2⟩

include valid clean

/-- Between canonical values, what the tables have is what is true. -/
theorem confirms_iff {atom : Atom} : s.confirms b atom = true ↔ s.Makes b.value atom := by
  have hsize : s.equality.size = s.size := valid.tracked
  cases atom with
  | op op args result =>
    constructor
    · intro h
      simp only [confirms] at h
      split at h
      next xs x hxs hx =>
        have hrow := valid.result?_iff.mp (beq_iff_eq.mp h)
        exact ⟨xs, x, Binding.values?_eq_some_iff.mp hxs, hx, valid.applies_row hrow⟩
      next => exact nomatch h
    · rintro ⟨xs, x, hreads, hx, happlies⟩
      obtain ⟨_, _, hrow⟩ := (valid.applies_iff clean).mp happlies
      rw [(canonical_roots canonical hreads).2, (canonical_root canonical hx).2] at hrow
      simp only [confirms, Binding.values?_eq_some_iff.mpr hreads, hx, valid.result?_iff.mpr hrow,
        beq_self_eq_true]
  | pred pred args =>
    simp only [confirms, Option.any_eq_true, Binding.values?_eq_some_iff, hasTuple_iff]
    constructor
    · rintro ⟨xs, hreads, htuple⟩
      exact ⟨xs, hreads, valid.relates_tuple htuple⟩
    · rintro ⟨xs, hreads, hrelates⟩
      obtain ⟨_, htuple⟩ := (valid.relates_iff clean).mp hrelates
      rw [(canonical_roots canonical hreads).2] at htuple
      exact ⟨xs, hreads, htuple⟩
  | eq lhs rhs =>
    simp only [confirms, Bool.and_eq_true, beq_iff_eq, Option.isSome_iff_exists]
    constructor
    · rintro ⟨⟨x, hx⟩, he⟩
      have hlt := (canonical_root canonical hx).1
      exact ⟨x, x, hx, he.symm.trans hx, valid.equal_refl (hsize ▸ hlt)⟩
    · rintro ⟨x, y, hx, hy, hxy⟩
      obtain rfl := Equality.eq_of_same (canonical lhs x hx) (canonical rhs y hy) hxy
      exact ⟨⟨x, hx⟩, hx.trans hy.symm⟩

end Confirms

section Compiled

variable {s : Structure} (valid : s.Valid) (clean : s.dirty = false) {seq : Sequent} {rule : Rule}
  (compiles : Rule.Compiles s.signature seq rule)

include valid compiles

/-- The enumeration tries exactly the bindings that give a canonical value of the right sort to each
variable that needs one. -/
theorem mem_selections_choices {b : Binding} :
    b ∈ selections ((List.range seq.vars.length).map (s.choices seq)) ↔
      b.length = seq.vars.length ∧ s.Assigns seq b.value ∧ s.Canonical b := by
  have hranged : ∀ var ∈ seq.ranged, var < seq.vars.length := fun var hvar =>
    compiles.varCount ▸ compiles.ranged_lt hvar
  have hmem : ∀ {var value}, value ∈ s.choices seq var ↔ _ := mem_choices valid compiles.declared
  rw [mem_selections, List.forall₂_iff_get]
  simp only [List.length_map, List.length_range, List.get_eq_getElem, List.getElem_map,
    List.getElem_range]
  constructor
  · rintro ⟨hlen, h⟩
    have hchoice : ∀ var, b.value var ∈ s.choices seq var ∨ seq.vars.length ≤ var := by
      intro var
      by_cases hvar : var < seq.vars.length
      · have hget : var < b.length := by omega
        have hvalue : b.value var = b[var] := by simp [Binding.value, hget]
        exact Or.inl (hvalue ▸ h var hget hvar)
      · exact Or.inr (by omega)
    refine ⟨hlen, ⟨fun var hvar => ?_, fun var hvar => ?_⟩, fun var x hx => ?_⟩
    · have hlt := hranged var hvar
      rcases hmem.mp ((hchoice var).resolve_right (by omega)) with ⟨_, x, sort, hx, hs, hxs, _⟩ | h
      · exact ⟨x, sort, hx, hs, hxs⟩
      · exact absurd hvar h.1
    · rcases hchoice var with hchosen | hle
      · rcases hmem.mp hchosen with h | ⟨_, hnone⟩
        · exact absurd h.1 hvar
        · exact hnone
      · simp [Binding.value, show b.length ≤ var by omega]
    · have hlt := Binding.lt_length_of_value hx
      rcases hmem.mp ((hchoice var).resolve_right (by omega)) with ⟨_, y, _, hy, _, _, hrep⟩ | h
      · exact Option.some.inj (hx.symm.trans hy) ▸ hrep
      · simp [h.2] at hx
  · rintro ⟨hlen, assigns, canonical⟩
    refine ⟨hlen, fun var hget hvar => ?_⟩
    have hvalue : b.value var = b[var] := by simp [Binding.value, hget]
    rw [← hvalue]
    by_cases hneeds : var ∈ seq.ranged
    · obtain ⟨x, sort, hx, hs, hxs⟩ := assigns.ranged var hneeds
      exact hmem.mpr (Or.inl ⟨hneeds, x, sort, hx, hs, hxs, canonical var x hx⟩)
    · exact hmem.mpr (Or.inr ⟨hneeds, assigns.only var hneeds⟩)

include clean

theorem mem_enumerated {b : Binding} : b ∈ s.enumerated seq ↔
    b.length = seq.vars.length ∧ s.Assigns seq b.value ∧ s.Canonical b ∧
      ∀ atom ∈ seq.premises, s.Makes b.value atom := by
  rw [enumerated, List.mem_filter, mem_selections_choices valid compiles, List.all_eq_true]
  constructor
  · rintro ⟨⟨hlen, assigns, canonical⟩, h⟩
    exact ⟨hlen, assigns, canonical, fun atom hatom =>
      (confirms_iff valid clean canonical).mp (h atom hatom)⟩
  · rintro ⟨hlen, assigns, canonical, h⟩
    exact ⟨⟨hlen, assigns, canonical⟩, fun atom hatom =>
      (confirms_iff valid clean canonical).mpr (h atom hatom)⟩

/-- The join finds what trying everything finds, in the same order. -/
theorem solutions_eq_enumerated : s.solutions rule = s.enumerated seq := by
  apply (ascending_pairwise _).eq_of_mem_iff (enumerated_pairwise valid seq)
  intro b
  rw [mem_enumerated valid clean compiles, ← compiles.varCount]
  exact mem_solutions valid rfl compiles clean

end Compiled

end Structure

open PartialHorn.Structure in
/-- The join is sound and complete. For a rule that was made from an accepted axiom, it finds, in
strictly ascending order and so without repetitions, exactly the bindings that give canonical
elements of the right sorts to the variables that need a value, and to no others, and make the
premises true in the rebuilt structure. -/
theorem solve_exact {sig : Signature} {index : Nat} {seq : Sequent} {rule : Rule}
    (hrule : Rule.ofSequent sig index seq = .ok rule) {s : Structure} (reachable : s.Reachable sig) :
    ∃ found t, (Action.rebuild s).after = t ∧ (Action.solve rule).Returns s found t ∧
      found.Pairwise (· < ·) ∧
      (∀ b, b ∈ found ↔ b.length = seq.vars.length ∧ t.Assigns seq b.value ∧
        (∀ var x, b.value var = some x → t.equality.find x = .ok x) ∧
        ∀ atom ∈ seq.premises, t.Makes b.value atom) ∧
      found = t.enumerated seq := by
  have valid := reachable.valid
  have valid' := renewed_valid valid
  have clean := renewed_dirty valid
  have hsig : s.renewed.signature = sig :=
    (grows_renewed valid).signature.trans reachable.signature_eq
  have compiles : Rule.Compiles s.renewed.signature seq rule := hsig ▸ Rule.ofSequent_compiles hrule
  refine ⟨s.renewed.solutions rule, s.renewed, rfl, Action.solve_returns valid rule,
    ascending_pairwise _, fun b => ?_, solutions_eq_enumerated valid' clean compiles⟩
  rw [mem_solutions valid' rfl compiles clean, compiles.varCount]
  simp only [Canonical, Equality.find_eq_ok_iff]

/-- A sort with a map, a constant and a relation. -/
def loopSignature : Signature where
  sorts := ["S"]
  operations := [⟨"f", [0], 0⟩, ⟨"c", [], 0⟩]
  predicates := [⟨"P", [0, 0]⟩]

/-- An element that is related to itself, the constant, and a variable that only an equality binds. -/
def loopSequent : Sequent where
  name := "loop"
  vars := [⟨"x", 0⟩, ⟨"y", 0⟩, ⟨"z", 0⟩, ⟨"w", 0⟩]
  premises := [.eq 0 2, .pred 0 [0, 0], .op 1 [] 1]
  conclusions := [.op 0 [2] 3, .pred 0 [3, 1]]

def loopRule : Rule :=
  .ofPlan 0 loopSequent [.pred 0 [0, 0], .op 1 [] 1, .scan 2 0, .eq 0 2]

/-- The relation has one loop, and another one as soon as a pending merge is done. -/
def loopStart : Structure :=
  (Structure.empty loopSignature).afterCalls
    [.add 0, .add 0, .define 1 [], .assert 0 [2, 2], .assert 0 [0, 1], .merge 0 1]

/-- The last variable is left to the conclusion that introduces it. -/
theorem solve_exact_loop :
    Rule.ofSequent loopSignature 0 loopSequent = .ok loopRule ∧
      (Action.solve loopRule loopStart).answer =
        .ok [[some 0, some 2, some 0, none], [some 2, some 2, some 2, none]] ∧
      (Action.rebuild loopStart).after.enumerated loopSequent =
        [[some 0, some 2, some 0, none], [some 2, some 2, some 2, none]] := by
  have accepted : Rule.ofSequent loopSignature 0 loopSequent = .ok loopRule := rfl
  have reachable : loopStart.Reachable loopSignature := ⟨_, rfl⟩
  have answered : (Action.solve loopRule loopStart).answer =
      .ok [[some 0, some 2, some 0, none], [some 2, some 2, some 2, none]] := rfl
  obtain ⟨found, t, rfl, hsolve, _, _, henumerated⟩ := solve_exact accepted reachable
  refine ⟨accepted, answered, ?_⟩
  rw [← henumerated]
  exact Except.ok.inj (hsolve.1.symm.trans answered)

end PartialHorn
