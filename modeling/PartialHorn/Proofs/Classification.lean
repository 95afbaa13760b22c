import PartialHorn.Proofs.Drawing
import PartialHorn.Proofs.Saturation
import PartialHorn.Proofs.Sorting

namespace PartialHorn

theorem Atom.mem_readFirst_iff {atoms : List Atom} {v : Nat} : v ∈ readFirst atoms ↔
    ∃ i : Nat, ∃ atom : Atom, atoms[i]? = some atom ∧ v ∈ atom.inputs ∧
      ∀ j < i, (atoms[j]?).bind Atom.result? ≠ some v := by
  induction atoms with
  | nil => simp [readFirst]
  | cons atom atoms ih =>
    rw [readFirst, List.mem_append, List.mem_filter, decide_eq_true_iff, ih]
    constructor
    · rintro (hv | ⟨⟨i, other, hi, hv, hfirst⟩, hne⟩)
      · exact ⟨0, atom, rfl, hv, fun j hj => absurd hj (Nat.not_lt_zero j)⟩
      · refine ⟨i + 1, other, hi, hv, fun j hj => ?_⟩
        cases j with
        | zero => exact hne
        | succ j => exact hfirst j (by omega)
    · rintro ⟨i, other, hi, hv, hfirst⟩
      cases i with
      | zero =>
        cases Option.some.inj hi
        exact Or.inl hv
      | succ i =>
        refine Or.inr ⟨⟨i, other, hi, hv, fun j hj => hfirst (j + 1) (by omega)⟩, ?_⟩
        exact hfirst 0 (by omega)

namespace Sequent

/-- The result of the conclusion at a position, if that is about an operation. -/
def resultAt? (seq : Sequent) (i : Nat) : Option Nat :=
  (seq.conclusions[i]?).bind Atom.result?

/-- The conclusion at a position reads a variable. -/
def ReadsAt (seq : Sequent) (i v : Nat) : Prop :=
  ∃ atom, seq.conclusions[i]? = some atom ∧ v ∈ atom.inputs

/-- A conclusion introduces its result, if it is the first one to have that result, no premise
mentions the variable, and neither a conclusion before nor the conclusion itself reads it. -/
structure Introduces (seq : Sequent) (i v : Nat) : Prop where
  result : seq.resultAt? i = some v
  free : v ∉ seq.premises.flatMap Atom.vars
  unread : ∀ j ≤ i, ¬seq.ReadsAt j v
  first : ∀ j < i, seq.resultAt? j ≠ some v

/-- A conclusion reads a variable that no conclusion before it introduces. -/
def ReadsFree (seq : Sequent) (v : Nat) : Prop :=
  ∃ i, seq.ReadsAt i v ∧ ∀ j < i, ¬seq.Introduces j v

variable {seq : Sequent} {i v : Nat}

/-- Among the conclusions with a result the first one decides: it introduces the result, unless a
conclusion up to there reads it. -/
theorem exists_introduces (free : v ∉ seq.premises.flatMap Atom.vars)
    (hresult : seq.resultAt? i = some v) : ∃ j ≤ i, (∀ k < j, seq.resultAt? k ≠ some v) ∧
      (seq.Introduces j v ∨ ∃ k ≤ j, seq.ReadsAt k v) := by
  have some_result : ∃ j, seq.resultAt? j = some v := ⟨i, hresult⟩
  have hfirst : ∀ k < Nat.find some_result, seq.resultAt? k ≠ some v :=
    fun k hk => Nat.find_min some_result hk
  refine ⟨Nat.find some_result, Nat.find_min' some_result hresult, hfirst, ?_⟩
  by_cases hread : ∃ k ≤ Nat.find some_result, seq.ReadsAt k v
  · exact Or.inr hread
  · refine Or.inl ⟨Nat.find_spec some_result, free, fun k hk hr => ?_, hfirst⟩
    exact hread ⟨k, hk, hr⟩

theorem mem_readFirst_iff_readsFree (free : v ∉ seq.premises.flatMap Atom.vars) :
    v ∈ Atom.readFirst seq.conclusions ↔ seq.ReadsFree v := by
  rw [Atom.mem_readFirst_iff]
  constructor
  · rintro ⟨i, atom, hi, hv, hfirst⟩
    exact ⟨i, ⟨atom, hi, hv⟩, fun j hj introduces => hfirst j hj introduces.result⟩
  · rintro ⟨i, ⟨atom, hi, hv⟩, hnone⟩
    by_cases hresult : ∃ j < i, seq.resultAt? j = some v
    · obtain ⟨j, hj, hresult⟩ := hresult
      obtain ⟨j', hj', hfirst, introduces | ⟨k, hk, other, hother, hread⟩⟩ :=
        exists_introduces free hresult
      · exact absurd introduces (hnone j' (by omega))
      · exact ⟨k, other, hother, hread, fun l hl => hfirst l (by omega)⟩
    · exact ⟨i, atom, hi, hv, fun j hj hr => hresult ⟨j, hj, hr⟩⟩

/-- The variables that need a value are those of the premises and those that some conclusion reads
although no conclusion before it introduces them. -/
theorem mem_ranged_iff : v ∈ seq.ranged ↔ v ∈ seq.premises.flatMap Atom.vars ∨ seq.ReadsFree v := by
  rw [ranged, List.mem_append]
  by_cases free : v ∈ seq.premises.flatMap Atom.vars
  · simp only [free, true_or]
  · rw [mem_readFirst_iff_readsFree free]

end Sequent

/-- The variable that a step scans, and the sort over which it ranges. -/
def Step.scan? : Step → Option (Nat × Nat)
  | .scan var sort => some (var, sort)
  | _ => none

namespace Rule

/-- The variables that have a value at the turn of a conclusion: the plan binds them, or they are
results of earlier conclusions. -/
def boundBefore (rule : Rule) (i : Nat) : List Nat :=
  rule.plan.flatMap Step.vars ++ (rule.head.take i).filterMap Atom.result?

theorem mem_boundBefore {rule : Rule} {i v : Nat} : v ∈ rule.boundBefore i ↔
    v ∈ rule.plan.flatMap Step.vars ∨ ∃ j < i, (rule.head[j]?).bind Atom.result? = some v := by
  rw [boundBefore, List.mem_append, List.mem_filterMap]
  refine or_congr_right ⟨?_, ?_⟩
  · rintro ⟨atom, hatom, hresult⟩
    obtain ⟨j, hj⟩ := List.mem_iff_getElem?.mp hatom
    rw [List.getElem?_take] at hj
    split at hj
    next hlt => exact ⟨j, hlt, by rw [hj]; exact hresult⟩
    next => exact nomatch hj
  · rintro ⟨j, hlt, hresult⟩
    obtain ⟨atom, hj, hresult⟩ := Option.bind_eq_some_iff.mp hresult
    refine ⟨atom, List.mem_of_getElem? (i := j) ?_, hresult⟩
    rw [List.getElem?_take, if_pos hlt, hj]

/-- The variables of a rule come by their values as the sequent asks for: the plan binds those of the
premises and those that are read before they are introduced, and scans those of them that no join
binds; every other variable that a conclusion reads has been introduced before. -/
structure WellScoped (seq : Sequent) (rule : Rule) : Prop where
  head : rule.head = seq.conclusions
  bound : ∀ v, v ∈ rule.plan.flatMap Step.vars ↔
    v ∈ seq.premises.flatMap Atom.vars ∨ seq.ReadsFree v
  scannedOnce : ((rule.plan.filterMap Step.scan?).map Prod.fst).Nodup
  scanned : ∀ v sort, .scan v sort ∈ rule.plan ↔
    v ∈ rule.plan.flatMap Step.vars ∧ v ∉ seq.joined ∧ seq.sort? v = some sort
  compared : ∀ opening lhs rhs rest, rule.plan = opening ++ .eq lhs rhs :: rest →
    lhs ∈ opening.flatMap Step.vars ∧ rhs ∈ opening.flatMap Step.vars
  inputs : ∀ i v, seq.ReadsAt i v → v ∈ rule.boundBefore i
  results : ∀ i v, seq.resultAt? i = some v → (v ∉ rule.boundBefore i ↔ seq.Introduces i v)

/-- The lists of what a rule reads name the symbols and the sorts of the steps of its plan, each once
and in order. -/
structure ReadsExactly (rule : Rule) : Prop where
  operations : rule.operationsRead.Pairwise (· < ·) ∧
    ∀ op, op ∈ rule.operationsRead ↔ ∃ step ∈ rule.plan, step.operation? = some op
  predicates : rule.predicatesRead.Pairwise (· < ·) ∧
    ∀ pred, pred ∈ rule.predicatesRead ↔ ∃ step ∈ rule.plan, step.predicate? = some pred
  sorts : rule.sortsScanned.Pairwise (· < ·) ∧
    ∀ sort, sort ∈ rule.sortsScanned ↔ ∃ step ∈ rule.plan, step.scannedSort? = some sort

namespace Compiles

variable {sig : Signature} {seq : Sequent} {rule : Rule} (compiles : Compiles sig seq rule)

include compiles

/-- The lists of symbols are collected from the premises, that of the sorts from the plan. -/
theorem readsExactly : rule.ReadsExactly := by
  have exact := compiles.reads_exact
  refine ⟨?_, ?_, ?_⟩
  · exact compiles.operationsRead ▸ exact.operations
  · exact compiles.predicatesRead ▸ exact.predicates
  · rw [compiles.sortsScanned]
    exact ⟨ascending_pairwise _, fun sort => mem_ascending.trans List.mem_filterMap⟩

omit compiles in
theorem scan?_of_scans {vars : List Nat} {scans : List Step}
    (h : List.Forall₂ (fun var step => ∃ sort, seq.sort? var = some sort ∧
      step = Step.scan var sort) vars scans) : (scans.filterMap Step.scan?).map Prod.fst = vars := by
  induction h with
  | nil => rfl
  | cons hstep _ ih =>
    obtain ⟨sort, _, rfl⟩ := hstep
    simp only [List.filterMap_cons, Step.scan?, List.map_cons, ih]

theorem scans_eq : (rule.plan.filterMap Step.scan?).map Prod.fst = seq.scope.scanned := by
  obtain ⟨scans, hscans, hplan⟩ := compiles.plan
  have hjoins : (seq.premises.filterMap Atom.join?).filterMap Step.scan? = [] := by
    rw [List.filterMap_eq_nil_iff]
    intro step hstep
    obtain ⟨atom, _, hj⟩ := List.mem_filterMap.mp hstep
    cases step with
    | scan var sort => exact absurd hj Atom.not_scan_of_join?
    | op op args result => rfl
    | pred pred args => rfl
    | eq lhs rhs => rfl
  have hfilters : (seq.premises.filterMap Atom.filter?).filterMap Step.scan? = [] := by
    rw [List.filterMap_eq_nil_iff]
    intro step hstep
    obtain ⟨atom, _, hf⟩ := List.mem_filterMap.mp hstep
    obtain ⟨lhs, rhs, _, rfl⟩ := Atom.filter?_eq_some hf
    rfl
  rw [hplan, List.filterMap_append, List.filterMap_append, hjoins, hfilters, List.nil_append,
    List.append_nil]
  exact scan?_of_scans hscans

theorem scan_mem_iff {v sort : Nat} : .scan v sort ∈ rule.plan ↔
    v ∈ rule.plan.flatMap Step.vars ∧ v ∉ seq.joined ∧ seq.sort? v = some sort := by
  constructor
  · intro h
    have hvar : v ∈ rule.plan.flatMap Step.vars :=
      List.mem_flatMap.mpr ⟨_, h, List.mem_singleton.mpr rfl⟩
    rcases Structure.mem_plan_cases compiles h with ⟨atom, _, hj⟩ | ⟨var, sort', hscan, hsort, he⟩ |
      ⟨lhs, rhs, _, he⟩
    · exact absurd hj Atom.not_scan_of_join?
    · cases he
      exact ⟨hvar, (Sequent.mem_scanned.mp hscan).1, hsort⟩
    · exact nomatch he
  · rintro ⟨hvar, hjoined, hsort⟩
    have hranged := (Structure.mem_plan_vars compiles).mp hvar
    exact Structure.scan_mem_plan compiles ((Sequent.mem_ranged.mp hranged).resolve_left hjoined) hsort

/-- After the first equality of a plan no step binds anything. -/
theorem plan_closed : rule.plan.Pairwise fun earlier later =>
    ∀ lhs rhs, earlier = .eq lhs rhs → later.vars = [] := by
  obtain ⟨opening, filters, hplan, hopening, hfilters⟩ := Structure.plan_split compiles
  rw [hplan]
  refine List.pairwise_append.mpr ⟨?_, ?_, ?_⟩
  · refine List.pairwise_of_forall_mem_list fun earlier he _ _ lhs rhs heq => ?_
    exact absurd (heq ▸ he) (hopening lhs rhs)
  · refine List.pairwise_of_forall_mem_list fun _ _ later hl _ _ _ => ?_
    obtain ⟨lhs, rhs, _, rfl⟩ := hfilters later hl
    rfl
  · intro earlier he later _ lhs rhs heq
    exact absurd (heq ▸ he) (hopening lhs rhs)

/-- Only an equality premise asks for an equality step. -/
theorem eq_mem_premises {lhs rhs : Nat} (h : Step.eq lhs rhs ∈ rule.plan) :
    Atom.eq lhs rhs ∈ seq.premises := by
  rcases Structure.mem_plan_cases compiles h with ⟨atom, _, hj⟩ | ⟨_, _, _, _, he⟩ |
    ⟨l, r, hatom, he⟩
  · cases atom with
    | op op args result => cases hj
    | pred pred args => cases hj
    | eq l r => cases hj
  · cases he
  · cases he
    exact hatom

theorem bound_before_eq {opening rest : List Step} {lhs rhs : Nat}
    (h : rule.plan = opening ++ .eq lhs rhs :: rest) :
    lhs ∈ opening.flatMap Step.vars ∧ rhs ∈ opening.flatMap Step.vars := by
  have hclosed := plan_closed compiles
  rw [h, List.pairwise_append, List.pairwise_cons] at hclosed
  have hrest : rest.flatMap Step.vars = [] :=
    List.flatMap_eq_nil_iff.mpr fun later hl => hclosed.2.1.1 later hl lhs rhs rfl
  have hvars : rule.plan.flatMap Step.vars = opening.flatMap Step.vars := by
    rw [h, List.flatMap_append, List.flatMap_cons, hrest, Step.vars, List.nil_append, List.append_nil]
  have hmem : .eq lhs rhs ∈ rule.plan := by
    rw [h]
    exact List.mem_append_right opening (List.mem_cons_self ..)
  have hbound : ∀ v ∈ [lhs, rhs], v ∈ opening.flatMap Step.vars := by
    intro v hv
    rw [← hvars, Structure.mem_plan_vars compiles]
    exact List.mem_append_left _ (List.mem_flatMap.mpr ⟨_, eq_mem_premises compiles hmem, hv⟩)
  exact ⟨hbound lhs (by simp), hbound rhs (by simp)⟩

theorem mem_plan_vars_iff {v : Nat} : v ∈ rule.plan.flatMap Step.vars ↔
    v ∈ seq.premises.flatMap Atom.vars ∨ seq.ReadsFree v :=
  (Structure.mem_plan_vars compiles).trans Sequent.mem_ranged_iff

theorem input_bound {i v : Nat} (h : seq.ReadsAt i v) : v ∈ rule.boundBefore i := by
  rw [mem_boundBefore, mem_plan_vars_iff compiles, compiles.head]
  by_cases hintroduced : ∃ j < i, seq.Introduces j v
  · obtain ⟨j, hj, introduces⟩ := hintroduced
    exact Or.inr ⟨j, hj, introduces.result⟩
  · exact Or.inl (Or.inr ⟨i, h, fun j hj introduces => hintroduced ⟨j, hj, introduces⟩⟩)

theorem result_unbound_iff {i v : Nat} (h : seq.resultAt? i = some v) :
    v ∉ rule.boundBefore i ↔ seq.Introduces i v := by
  rw [mem_boundBefore, mem_plan_vars_iff compiles, compiles.head]
  constructor
  · intro hunbound
    rw [not_or, not_or] at hunbound
    obtain ⟨⟨free, hfree⟩, hfirst⟩ := hunbound
    refine ⟨h, free, fun j hj hread => ?_, fun j hj hr => hfirst ⟨j, hj, hr⟩⟩
    refine hfree ⟨j, hread, fun k hk introduces => ?_⟩
    exact hfirst ⟨k, by omega, introduces.result⟩
  · rintro introduces ((hpremise | ⟨j, hread, hnone⟩) | ⟨j, hj, hresult⟩)
    · exact introduces.free hpremise
    · by_cases hj : j ≤ i
      · exact introduces.unread j hj hread
      · exact hnone i (by omega) introduces
    · exact introduces.first j hj hresult

theorem wellScoped : rule.WellScoped seq where
  head := compiles.head
  bound _ := mem_plan_vars_iff compiles
  scannedOnce := (scans_eq compiles).symm ▸ Sequent.scanned_nodup
  scanned _ _ := scan_mem_iff compiles
  compared _ _ _ _ := bound_before_eq compiles
  inputs _ _ := input_bound compiles
  results _ _ := result_unbound_iff compiles

end Compiles

end Rule

section Firing

open PartialHorn.Action

variable {sig : Signature} {seq : Sequent} {rule : Rule} (compiles : Rule.Compiles sig seq rule)
  {s : Structure} (valid : s.Valid) (hsig : s.signature = sig) (clean : s.dirty = false) {b : Binding}
  (hb : b ∈ s.solutions rule)

include compiles valid hsig clean hb

/-- A match has values for exactly the variables that the plan binds. -/
theorem solution_binds (v : Nat) : b.Binds v ↔ v ∈ rule.plan.flatMap Step.vars := by
  obtain ⟨_, assigns, _⟩ := (Structure.mem_solutions valid hsig compiles clean).mp hb
  rw [Structure.mem_plan_vars compiles]
  constructor
  · rintro ⟨x, hx⟩
    by_contra hranged
    exact nomatch hx.symm.trans (assigns.only v hranged)
  · intro hranged
    obtain ⟨x, _, hx, _⟩ := assigns.ranged v hranged
    exact ⟨x, hx⟩

/-- At the turn of a conclusion exactly those variables have values that have come by one. -/
theorem drawn_binds {i : Nat} {larger : Binding} {u t : Structure}
    (drawn : Drawn rule (rule.head.take i) b u larger t) (v : Nat) :
    larger.Binds v ↔ v ∈ rule.boundBefore i := by
  have fitting := Structure.solution_fitting valid clean (hsig.symm ▸ ⟨seq, compiles⟩) hb
  obtain ⟨_, hbinds⟩ := drawn.binds fun atom hatom => fitting atom (List.mem_of_mem_take hatom)
  rw [hbinds, solution_binds compiles valid hsig clean hb, Rule.boundBefore, List.mem_append]

end Firing

open PartialHorn.Action in
/-- A sequent that is accepted becomes a rule whose variables come by their values as the sequent
asks for, and whose lists of what it reads are exact. A match has values for the variables that the
plan binds, and when the head is drawn in order, then at the turn of a conclusion everything that it
reads has a value, and the result of an operation has none just if the conclusion introduces it. -/
theorem compiled_rule_wellScoped {sig : Signature} {index : Nat} {seq : Sequent} {rule : Rule}
    (accepted : Rule.ofSequent sig index seq = .ok rule) :
    rule.WellScoped seq ∧ rule.ReadsExactly ∧
    ∀ s found t, s.Valid → s.signature = sig → (solve rule).Returns s found t → ∀ b ∈ found,
      (∀ v, b.Binds v ↔ v ∈ rule.plan.flatMap Step.vars) ∧
      ∀ i atom larger u w, rule.head[i]? = some atom →
        Drawn rule (rule.head.take i) b u larger w →
        (∃ xs, rule.values larger atom.inputs = .ok xs) ∧
        ∀ v, atom.result? = some v → (larger.value v = none ↔ seq.Introduces i v) := by
  have compiles := Rule.ofSequent_compiles accepted
  have wellScoped := compiles.wellScoped
  refine ⟨wellScoped, compiles.readsExactly, fun s found t valid hsig solved b hb => ?_⟩
  obtain ⟨rfl, rfl⟩ := (solve_returns valid rule).unique solved
  have valid' := Structure.renewed_valid valid
  have clean := Structure.renewed_dirty valid
  have hsig' := (Structure.renews_renewed valid).signature.trans hsig
  refine ⟨solution_binds compiles valid' hsig' clean hb, fun i atom larger u w hi drawn => ?_⟩
  have hbinds := drawn_binds compiles valid' hsig' clean hb drawn
  have hi' : seq.conclusions[i]? = some atom := wellScoped.head ▸ hi
  constructor
  · have hinputs : ∀ v ∈ atom.inputs, ∃ x, larger.value v = some x := fun v hv =>
      (hbinds v).mpr (wellScoped.inputs i v ⟨atom, hi', hv⟩)
    obtain ⟨xs, hreads⟩ := forall₂_exists hinputs
    exact ⟨xs, Rule.values_eq_ok_iff.mpr hreads⟩
  · intro v hv
    have hresult : seq.resultAt? i = some v := by rw [Sequent.resultAt?, hi', Option.bind_some, hv]
    rw [← wellScoped.results i v hresult, ← hbinds v, Binding.Binds, Option.eq_none_iff_forall_ne_some,
      not_exists]

/-- A sort of objects and one of arrows, with an identity and a domain. -/
def unitSignature : Signature where
  sorts := ["Obj", "Hom"]
  operations := [⟨"id", [0], 1⟩, ⟨"dom", [1], 0⟩]

/-- The identity of an object is introduced, and its domain is the object, which is read before. -/
def unitSequent : Sequent where
  name := "unit"
  vars := [⟨"g", 0⟩, ⟨"i", 1⟩]
  conclusions := [.op 0 [0] 1, .op 1 [1] 0]

def unitRule : Rule :=
  .ofPlan 0 unitSequent [.scan 0 0]

def unitStart : Structure :=
  (Structure.empty unitSignature).afterCalls [.add 0]

open PartialHorn.Action in
/-- When the domain is asked for, the identity has got its value. -/
theorem compiled_rule_wellScoped_unit :
    unitSequent.Introduces 0 1 ∧ ¬unitSequent.Introduces 1 0 ∧ unitSequent.ReadsFree 0 ∧
      unitRule.sortsScanned = [0] ∧ ∃ xs, unitRule.values [some 0, some 1] [1] = .ok xs := by
  have accepted : Rule.ofSequent unitSignature 0 unitSequent = .ok unitRule := rfl
  have valid : unitStart.Valid := Structure.Reachable.valid ⟨_, rfl⟩
  have solved : (solve unitRule).Returns unitStart [[some 0, none]] unitStart := ⟨rfl, rfl⟩
  have drawn : Drawn unitRule (unitRule.head.take 1) [some 0, none] unitStart [some 0, some 1] _ :=
    .next ⟨rfl, rfl⟩ .done
  obtain ⟨wellScoped, _, firing⟩ := compiled_rule_wellScoped accepted
  obtain ⟨_, turns⟩ := firing _ _ _ valid rfl solved _ (List.mem_singleton.mpr rfl)
  obtain ⟨hreads, _⟩ := turns 1 _ _ _ _ rfl drawn
  refine ⟨(wellScoped.results 0 1 rfl).mp (by decide), fun introduces => ?_, ?_, rfl, hreads⟩
  · exact (wellScoped.results 1 0 rfl).mpr introduces (by decide)
  · exact ((wellScoped.bound 0).mp (by decide)).resolve_left (by decide)

end PartialHorn
