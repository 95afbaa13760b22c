import PartialHorn.Proofs.Scoping
import PartialHorn.Proofs.Sorting

namespace PartialHorn

namespace Sequent

variable {seq : Sequent} {sig : Signature}

theorem sortOf_eq_ok_iff {var sort : Nat} : seq.sortOf var = .ok sort ↔ seq.sort? var = some sort := by
  unfold sortOf sort?
  cases seq.vars[var]? with
  | none => simp
  | some v => simp

theorem argumentFault?_eq_none {symbol : String} {vars domain : List Nat}
    (h : vars.length = domain.length) :
    seq.argumentFault? symbol domain vars = none ↔ seq.Sorted vars domain := by
  induction domain generalizing vars with
  | nil =>
    cases List.length_eq_zero_iff.mp h
    simp [argumentFault?, Sorted]
  | cons expected domain ih =>
    cases vars with
    | nil => simp at h
    | cons var vars =>
      have hlen : vars.length = domain.length := by simpa using h
      rw [Sorted, List.forall₂_cons, argumentFault?]
      cases hs : seq.sortOf var with
      | error fault =>
        simp only [reduceCtorEq, false_iff, not_and]
        intro hvar
        exact nomatch hs.symm.trans (sortOf_eq_ok_iff.mpr hvar)
      | ok actual =>
        have hvar := sortOf_eq_ok_iff.mp hs
        simp only [hvar, Option.some.injEq]
        by_cases he : actual = expected
        · rw [if_pos he, ih hlen]
          simp [he, Sorted]
        · simp [he]

theorem argumentFault?_singleton {symbol : String} {var sort : Nat} :
    seq.argumentFault? symbol [sort] [var] = none ↔ seq.sort? var = some sort := by
  have hone : [var].length = [sort].length := rfl
  rw [argumentFault?_eq_none hone, Sorted, List.forall₂_cons]
  simp

theorem applicationFault?_eq_none {symbol : String} {vars domain : List Nat} :
    seq.applicationFault? symbol domain vars = none ↔ seq.Sorted vars domain := by
  unfold applicationFault?
  split
  next h => exact argumentFault?_eq_none h
  next h =>
    simp only [reduceCtorEq, false_iff]
    exact fun hs => h hs.length_eq

/-- An atom without faults agrees with the signature, and the other way round. -/
theorem atomFault?_eq_none {atom : Atom} : seq.atomFault? sig atom = none ↔ seq.Fits sig atom := by
  cases atom with
  | op op args result =>
    simp only [atomFault?, Fits]
    cases sig.operations[op]? with
    | none => simp
    | some operation =>
      simp only [Option.or_eq_none_iff, applicationFault?_eq_none, argumentFault?_singleton]
      simp
  | pred pred args =>
    simp only [atomFault?, Fits]
    cases sig.predicates[pred]? with
    | none => simp
    | some predicate => simp [applicationFault?_eq_none]
  | eq lhs rhs =>
    simp only [atomFault?, Fits]
    cases hs : seq.sortOf lhs with
    | error fault =>
      simp only [reduceCtorEq, false_iff]
      rintro ⟨sort, hl, _⟩
      cases hs.symm.trans (sortOf_eq_ok_iff.mpr hl)
    | ok sort =>
      have hl := sortOf_eq_ok_iff.mp hs
      simp only [argumentFault?_singleton, hl, Option.some.injEq]
      simp

theorem contextFault?_cons_eq_none {names : List String} {v : Variable} {vars : List Variable} :
    contextFault? sig names (v :: vars) = none ↔ v.name ∉ names ∧ v.sort < sig.sorts.length ∧
      contextFault? sig (v.name :: names) vars = none := by
  rw [contextFault?]
  split
  next hname => simp [hname]
  next hname =>
    split
    next hsort => simp [hname, hsort]
    next hsort => simp [hsort]

/-- A context without faults has new names, each of them once, and declared sorts. -/
theorem contextFault?_eq_none {names : List String} {vars : List Variable} :
    contextFault? sig names vars = none ↔ (vars.map Variable.name).Nodup ∧
      ∀ v ∈ vars, v.name ∉ names ∧ v.sort < sig.sorts.length := by
  induction vars generalizing names with
  | nil => simp [contextFault?]
  | cons v vars ih =>
    rw [contextFault?_cons_eq_none, ih, List.map_cons, List.nodup_cons, List.forall_mem_cons]
    simp only [List.mem_map, List.mem_cons, not_or, not_exists, not_and]
    constructor
    · rintro ⟨hname, hsort, hnodup, hrest⟩
      exact ⟨⟨fun w hw => (hrest w hw).1.1, hnodup⟩, ⟨hname, hsort⟩,
        fun w hw => ⟨(hrest w hw).1.2, (hrest w hw).2⟩⟩
    · rintro ⟨⟨hnew, hnodup⟩, ⟨hname, hsort⟩, hrest⟩
      exact ⟨hname, hsort, hnodup, fun w hw => ⟨⟨hnew w hw, (hrest w hw).1⟩, (hrest w hw).2⟩⟩

theorem lt_length_of_sort? {var sort : Nat} (h : seq.sort? var = some sort) :
    var < seq.vars.length := by
  obtain ⟨v, hv, _⟩ := Option.map_eq_some_iff.mp h
  exact (List.getElem?_eq_some_iff.mp hv).1

theorem Fits.sort?_of_mem {atom : Atom} (h : seq.Fits sig atom) {var : Nat}
    (hvar : var ∈ atom.vars) : ∃ sort, seq.sort? var = some sort := by
  cases atom with
  | op op args result =>
    obtain ⟨operation, _, hargs, hresult⟩ := h
    rcases List.mem_append.mp hvar with hvar | hvar
    · obtain ⟨sort, _, hs⟩ := forall₂_right_of_mem hargs hvar
      exact ⟨sort, hs⟩
    · exact ⟨_, List.mem_singleton.mp hvar ▸ hresult⟩
  | pred pred args =>
    obtain ⟨predicate, _, hargs⟩ := h
    obtain ⟨sort, _, hs⟩ := forall₂_right_of_mem hargs hvar
    exact ⟨sort, hs⟩
  | eq lhs rhs =>
    obtain ⟨sort, hl, hr⟩ := h
    simp only [Atom.vars, List.mem_cons, List.not_mem_nil, or_false] at hvar
    rcases hvar with rfl | rfl
    · exact ⟨sort, hl⟩
    · exact ⟨sort, hr⟩

end Sequent

theorem Atom.inputs_subset_vars (atom : Atom) : atom.inputs ⊆ atom.vars := by
  cases atom with
  | op op args result => exact List.subset_append_left args [result]
  | pred pred args => exact fun _ h => h
  | eq lhs rhs => exact fun _ h => h

theorem Atom.exists_of_mem_readFirst {atoms : List Atom} {v : Nat} (h : v ∈ readFirst atoms) :
    ∃ atom ∈ atoms, v ∈ atom.vars := by
  induction atoms with
  | nil => simp [readFirst] at h
  | cons atom atoms ih =>
    rcases List.mem_append.mp h with h | h
    · exact ⟨atom, by simp, atom.inputs_subset_vars h⟩
    · obtain ⟨other, hmem, hv⟩ := ih (List.mem_filter.mp h).1
      exact ⟨other, List.mem_cons_of_mem atom hmem, hv⟩

theorem Sequent.ranged_sort {seq : Sequent} {sig : Signature}
    (fits : ∀ atom ∈ seq.premises ++ seq.conclusions, seq.Fits sig atom) {var : Nat}
    (h : var ∈ seq.ranged) : ∃ sort, seq.sort? var = some sort := by
  rcases List.mem_append.mp h with h | h
  · obtain ⟨atom, hatom, hvar⟩ := List.mem_flatMap.mp h
    exact (fits atom (List.mem_append_left _ hatom)).sort?_of_mem hvar
  · obtain ⟨atom, hatom, hvar⟩ := Atom.exists_of_mem_readFirst h
    exact (fits atom (List.mem_append_right _ hatom)).sort?_of_mem hvar

namespace Reads

/-- Some lists of symbols name those of some steps, each once and in order. -/
structure Exact (reads : Reads) (steps : List Step) : Prop where
  operations : reads.operations.Pairwise (· < ·) ∧
    ∀ f, f ∈ reads.operations ↔ ∃ step ∈ steps, step.operation? = some f
  predicates : reads.predicates.Pairwise (· < ·) ∧
    ∀ p, p ∈ reads.predicates ↔ ∃ step ∈ steps, step.predicate? = some p

theorem exact_nil : ({} : Reads).Exact [] :=
  ⟨⟨.nil, by simp⟩, ⟨.nil, by simp⟩⟩

/-- Taking up a premise keeps step with the join that the premise asks for. -/
theorem Exact.join {reads : Reads} {steps : List Step} (exact : reads.Exact steps) (atom : Atom) :
    (reads.join atom).Exact (steps ++ atom.join?.toList) := by
  obtain ⟨⟨hop, hops⟩, ⟨hpred, hpreds⟩⟩ := exact
  cases atom with
  | op f args result =>
    refine ⟨⟨Ascending.merge_pairwise (List.pairwise_singleton _ f) hop, fun g => ?_⟩, hpred,
      fun p => ?_⟩
    · rw [Reads.join, Ascending.mem_merge, hops]
      simp [Atom.join?, Step.operation?, or_and_right, exists_or, or_comm, eq_comm]
    · rw [Reads.join, hpreds]
      simp [Atom.join?, Step.predicate?, or_and_right, exists_or]
  | pred p args =>
    refine ⟨⟨hop, fun g => ?_⟩, Ascending.merge_pairwise (List.pairwise_singleton _ p) hpred,
      fun q => ?_⟩
    · rw [Reads.join, hops]
      simp [Atom.join?, Step.operation?, or_and_right, exists_or]
    · rw [Reads.join, Ascending.mem_merge, hpreds]
      simp [Atom.join?, Step.predicate?, or_and_right, exists_or, or_comm, eq_comm]
  | eq lhs rhs =>
    rw [Reads.join, Atom.join?, Option.toList_none, List.append_nil]
    exact ⟨⟨hop, hops⟩, hpred, hpreds⟩

theorem Exact.foldl_join {reads : Reads} {steps : List Step} (exact : reads.Exact steps)
    (atoms : List Atom) :
    (atoms.foldl Reads.join reads).Exact (steps ++ atoms.filterMap Atom.join?) := by
  induction atoms generalizing reads steps with
  | nil => simpa using exact
  | cons atom atoms ih =>
    have hsteps : atom.join?.toList ++ atoms.filterMap Atom.join? =
        (atom :: atoms).filterMap Atom.join? := by
      cases h : atom.join? with
      | none => simp [h]
      | some step => simp [h]
    rw [List.foldl_cons, ← hsteps, ← List.append_assoc]
    exact ih (exact.join atom)

/-- Steps that look at no table may stand behind the others. -/
theorem Exact.append {reads : Reads} {steps others : List Step} (exact : reads.Exact steps)
    (hothers : ∀ step ∈ others, step.operation? = none ∧ step.predicate? = none) :
    reads.Exact (steps ++ others) := by
  have extend : ∀ (select : Step → Option Nat) (x : Nat), (∀ step ∈ others, select step = none) →
      ((∃ step ∈ steps ++ others, select step = some x) ↔ ∃ step ∈ steps, select step = some x) := by
    intro select x hnone
    constructor
    · rintro ⟨step, hstep, hx⟩
      rcases List.mem_append.mp hstep with hstep | hstep
      · exact ⟨step, hstep, hx⟩
      · exact absurd ((hnone step hstep).symm.trans hx) (by simp)
    · rintro ⟨step, hstep, hx⟩
      exact ⟨step, List.mem_append_left _ hstep, hx⟩
  refine ⟨⟨exact.operations.1, fun f => ?_⟩, exact.predicates.1, fun p => ?_⟩
  · rw [exact.operations.2, extend _ f fun step hstep => (hothers step hstep).1]
  · rw [exact.predicates.2, extend _ p fun step hstep => (hothers step hstep).2]

end Reads

theorem Sequent.reads_exact (seq : Sequent) : seq.reads.Exact (seq.premises.filterMap Atom.join?) :=
  Reads.exact_nil.foldl_join seq.premises

/-- What a rule owes to the sequent from which it was made. -/
structure Rule.Compiles (sig : Signature) (seq : Sequent) (rule : Rule) : Prop where
  fits : ∀ atom ∈ seq.premises ++ seq.conclusions, seq.Fits sig atom
  declared : ∀ var sort, seq.sort? var = some sort → sort < sig.sorts.length
  varCount : rule.varCount = seq.vars.length
  head : rule.head = seq.conclusions
  plan : ∃ scans, List.Forall₂ (fun var step => ∃ sort, seq.sort? var = some sort ∧
      step = Step.scan var sort) seq.scope.scanned scans ∧
    rule.plan = seq.premises.filterMap Atom.join? ++ scans ++ seq.premises.filterMap Atom.filter?
  operationsRead : rule.operationsRead = seq.reads.operations
  predicatesRead : rule.predicatesRead = seq.reads.predicates
  sortsScanned : rule.sortsScanned = ascending (rule.plan.filterMap Step.scannedSort?)

namespace Rule

variable {sig : Signature}

theorem ofSequent_compiles {index : Nat} {seq : Sequent} {rule : Rule}
    (h : ofSequent sig index seq = .ok rule) : Compiles sig seq rule := by
  unfold ofSequent at h
  split at h
  next => exact nomatch h
  next hfault =>
    split at h
    next => exact nomatch h
    next plan hplan =>
      cases Except.ok.inj h
      obtain ⟨hcontext, hatoms⟩ := Option.or_eq_none_iff.mp hfault
      obtain ⟨scans, hscans, hplan⟩ := except_bind_eq_ok.mp hplan
      refine ⟨?_, ?_, rfl, rfl, ⟨scans, ?_, (Except.ok.inj hplan).symm⟩, rfl, rfl, rfl⟩
      · intro atom hatom
        exact Sequent.atomFault?_eq_none.mp (List.findSome?_eq_none_iff.mp hatoms atom hatom)
      · intro var sort hsort
        obtain ⟨v, hv, rfl⟩ := Option.map_eq_some_iff.mp hsort
        exact ((Sequent.contextFault?_eq_none.mp hcontext).2 v (List.mem_of_getElem? hv)).2
      · refine (mapM_eq_ok_iff.mp hscans).imp fun var step hstep => ?_
        obtain ⟨sort, hsort, hstep⟩ := except_bind_eq_ok.mp hstep
        exact ⟨sort, Sequent.sortOf_eq_ok_iff.mp hsort, (Except.ok.inj hstep).symm⟩

theorem ofSequentsFrom_compiles {index : Nat} {seqs : List Sequent} {rules : List Rule}
    (h : ofSequentsFrom sig index seqs = .ok rules) : List.Forall₂ (Compiles sig) seqs rules := by
  induction seqs generalizing index rules with
  | nil =>
    cases Except.ok.inj h
    exact .nil
  | cons seq seqs ih =>
    obtain ⟨rule, hrule, h⟩ := except_bind_eq_ok.mp h
    obtain ⟨rest, hrest, h⟩ := except_bind_eq_ok.mp h
    cases Except.ok.inj h
    exact .cons (ofSequent_compiles hrule) (ih hrest)

/-- Each sequent that is accepted has become a rule that does what it owes. -/
theorem ofSequents_compiles {seqs : List Sequent} {rules : List Rule}
    (h : ofSequents sig seqs = .ok rules) : List.Forall₂ (Compiles sig) seqs rules :=
  ofSequentsFrom_compiles h

namespace Compiles

variable {seq : Sequent} {rule : Rule} (compiles : Compiles sig seq rule)

include compiles

/-- The symbols of the premises are those of the plan: its scans and its equalities add none. -/
theorem reads_exact : seq.reads.Exact rule.plan := by
  obtain ⟨scans, hscans, hplan⟩ := compiles.plan
  have hscan : ∀ step ∈ scans, step.operation? = none ∧ step.predicate? = none := by
    intro step hstep
    obtain ⟨var, _, sort, _, rfl⟩ := forall₂_left_of_mem hscans hstep
    exact ⟨rfl, rfl⟩
  have hfilter : ∀ step ∈ seq.premises.filterMap Atom.filter?,
      step.operation? = none ∧ step.predicate? = none := by
    intro step hstep
    obtain ⟨atom, _, hfilter⟩ := List.mem_filterMap.mp hstep
    cases atom with
    | op op args result => simp [Atom.filter?] at hfilter
    | pred pred args => simp [Atom.filter?] at hfilter
    | eq lhs rhs =>
      cases Option.some.inj hfilter
      exact ⟨rfl, rfl⟩
  rw [hplan]
  exact (seq.reads_exact.append hscan).append hfilter

theorem ranged_sort {var : Nat} (h : var ∈ seq.ranged) : ∃ sort, seq.sort? var = some sort :=
  Sequent.ranged_sort compiles.fits h

theorem ranged_lt {var : Nat} (h : var ∈ seq.ranged) : var < rule.varCount := by
  obtain ⟨sort, hsort⟩ := compiles.ranged_sort h
  rw [compiles.varCount]
  exact Sequent.lt_length_of_sort? hsort

end Compiles

end Rule

end PartialHorn
