import PartialHorn.Proofs.Saturation

namespace PartialHorn

namespace Structure

/-- The binding that gives to each variable the representative of its value. -/
def representatives (s : Structure) (v : Valuation Nat) (n : Nat) : Binding :=
  (List.range n).map fun var => (v var).map s.equality.root

theorem representatives_value {s : Structure} {v : Valuation Nat} {n : Nat}
    (h : ∀ var, n ≤ var → v var = none) (var : Nat) :
    (s.representatives v n).value var = (v var).map s.equality.root := by
  rw [Binding.value, representatives, List.getElem?_map]
  by_cases hlt : var < n
  · rw [List.getElem?_range hlt]
    rfl
  · rw [List.getElem?_eq_none (by simpa using hlt), h var (by omega)]
    rfl

section Represent

variable {s : Structure} (valid : s.Valid) {seq : Sequent} {rule : Rule}
  (compiles : Rule.Compiles s.signature seq rule) {v : Valuation Nat} (assigns : s.Assigns seq v)

include compiles assigns

theorem assigned_value (var : Nat) :
    (s.representatives v rule.varCount).value var = (v var).map s.equality.root := by
  refine representatives_value (fun other hother => assigns.only other fun hranged => ?_) var
  have hlt := compiles.ranged_lt hranged
  omega

include valid

theorem assigned_agrees : s.Agrees v (s.representatives v rule.varCount).value := by
  intro var
  rw [assigned_value compiles assigns]
  cases hv : v var with
  | none => exact .none
  | some x => exact .some (Or.inr (valid.equal_root (assigns.lt_size hv)))

/-- The representatives of values that make the premises true are a match. -/
theorem assigned_solution (clean : s.dirty = false)
    (hpremises : ∀ atom ∈ seq.premises, s.Makes v atom) :
    s.representatives v rule.varCount ∈ s.solutions rule := by
  have hvalue := assigned_value compiles assigns
  have hagrees := assigned_agrees valid compiles assigns
  refine (mem_solutions valid rfl compiles clean).mpr ⟨?_, ⟨?_, ?_⟩, ?_, ?_⟩
  · rw [representatives, List.length_map, List.length_range]
  · intro var hvar
    obtain ⟨x, sort, hx, hsort, hxs⟩ := assigns.ranged var hvar
    refine ⟨s.equality.root x, sort, by rw [hvalue, hx]; rfl, hsort, ?_⟩
    exact valid.equal_sort (valid.equal_root (assigns.lt_size hx)) hxs
  · intro var hvar
    rw [hvalue, assigns.only var hvar]
    rfl
  · intro var y hy
    rw [hvalue] at hy
    obtain ⟨x, hx, rfl⟩ := Option.map_eq_some_iff.mp hy
    have hlt : x < s.equality.size := valid.tracked ▸ assigns.lt_size hx
    exact valid.partition.fixed x _ (Equality.getElem?_root hlt)
  · exact fun atom hatom => (hpremises atom hatom).mono (.refl valid) hagrees

end Represent

/-- When every match has its conclusions, the sequents hold: any true premises are made true by a
match, the one by the representatives of the values. -/
theorem Saturated.satisfies {s : Structure} (valid : s.Valid) (clean : s.dirty = false)
    {rules : List Rule} (saturated : s.Saturated rules) {seq : Sequent} {rule : Rule}
    (hrule : rule ∈ rules) (compiles : Rule.Compiles s.signature seq rule) : s.Satisfies seq := by
  intro v assigns hpremises
  have hmatch := assigned_solution valid compiles assigns clean hpremises
  have hconcludes := saturated rule hrule _ hmatch
  rw [compiles.head] at hconcludes
  exact hconcludes.mono (.refl valid) (assigned_agrees valid compiles assigns).symm

end Structure

/-- What a run that has come from one structure to another reports. -/
def Progress.report (final : Progress) (s t : Structure) : ChaseReport where
  iterations := final.iterations
  firings := final.firings
  skipped := final.skipped
  elementsCreated := t.size - s.size
  merges := t.equality.merges - s.equality.merges

namespace Action

open Structure

section Run

variable {s t : Structure} {rules : List Rule} {budget : Budget} {clock : Clock} {passes : Nat}

/-- A run ends as its loop does, with a report in the place of the counters. -/
theorem saturate_result : (saturate rules budget clock passes).result s =
    let run := (saturateFrom rules budget clock passes (Progress.initial rules)).result s
    (run.1.map (Option.map fun final => final.report s run.2), run.2) := by
  unfold saturate
  simp only [bind_eq_andThen, pure_eq_give]
  rw [(current_returns s).result_andThen]
  cases hrun : (saturateFrom rules budget clock passes (Progress.initial rules) s).answer with
  | error e => simp [result, andThen_of_error hrun, hrun, Except.map]
  | ok progress =>
    have hreturns : (saturateFrom rules budget clock passes (Progress.initial rules)).Returns s
        progress _ := ⟨hrun, rfl⟩
    rw [hreturns.result_andThen, (current_returns _).result_andThen, returns_iff_result.mp hreturns]
    rfl

theorem saturate_answer : (saturate rules budget clock passes s).answer =
    (saturateFrom rules budget clock passes (Progress.initial rules) s).answer.map
      (Option.map fun final => final.report s
        (saturateFrom rules budget clock passes (Progress.initial rules) s).after) :=
  congrArg Prod.fst saturate_result

theorem saturate_returns_iff {report : ChaseReport} :
    (saturate rules budget clock passes).Returns s (some report) t ↔
      ∃ final, (saturateFrom rules budget clock passes (Progress.initial rules)).Returns s
        (some final) t ∧ final.report s t = report := by
  simp only [returns_iff_result, saturate_result]
  generalize (saturateFrom rules budget clock passes (Progress.initial rules)).result s = run
  obtain ⟨answer, u⟩ := run
  cases answer with
  | error e => simp [Except.map]
  | ok progress =>
    simp only [Except.map, Prod.mk.injEq, Except.ok.injEq, Option.map_eq_some_iff]
    constructor
    · rintro ⟨⟨final, rfl, rfl⟩, rfl⟩
      exact ⟨final, ⟨rfl, rfl⟩, rfl⟩
    · rintro ⟨final, ⟨rfl, rfl⟩, rfl⟩
      exact ⟨⟨final, rfl, rfl⟩, rfl⟩

end Run

/-- A run ends in a saturated structure, whatever was passed over on the way, if its last pass has
noticed every change. It has, unless that pass was also the first one and its first rebuild dropped
rows. -/
theorem saturate_saturated {s t : Structure} (valid : s.Valid) {rules : List Rule}
    (compiled : ∀ rule ∈ rules, rule.Compiled s.signature) {budget : Budget} {clock : Clock}
    {passes : Nat} {report : ChaseReport}
    (h : (saturate rules budget clock passes).Returns s (some report) t) :
    t.Valid ∧ t.dirty = false ∧ s.Grows t ∧
      (s.dirty = false ∨ 1 < report.iterations ∨ s.renewed.rowCount = s.rowCount →
        t.Saturated rules) := by
  obtain ⟨final, hrun, hreport⟩ := saturate_returns_iff.mp h
  have hiterations : report.iterations = final.iterations := hreport ▸ rfl
  obtain ⟨mid, made, hmid, hsm, passed, hsame, hcases⟩ :=
    saturateFrom_last valid compiled (remembers_initial s rules) hrun
  have grows := (grows_renewed hmid).trans passed.grows
  refine ⟨passed.valid, passed.clean, hsm.trans grows, fun hwhen => ?_⟩
  have hfoot : t.footprint = mid.footprint := by
    have hchanged := passed.changed
    rw [hsame] at hchanged
    simpa using hchanged
  have hrenewed : mid.renewed.footprint = mid.footprint := by
    by_cases hclean : mid.dirty = false
    · rw [(renewed_clean hclean).2]
    · obtain ⟨rfl, hi⟩ := hcases.resolve_right fun hc => hclean hc.1
      have hrows : mid.renewed.rowCount = mid.rowCount := by
        refine (hwhen.resolve_left hclean).resolve_left fun hlt => ?_
        have hzero : (Progress.initial rules).iterations = 0 := rfl
        omega
      have hmerges : t.equality.merges = mid.equality.merges := congrArg (·.2.1) hfoot
      have hle := (grows_renewed hmid).merges
      have hle' := passed.grows.merges
      have hm : mid.renewed.equality.merges = mid.equality.merges := by omega
      simp only [footprint, Partition.merges_eq, renewed_size hmid, hm, hrows]
  exact (passed.saturated hmid (hsm.compiled compiled) (hfoot.trans hrenewed.symm)).2

/-- A run over the rules of some sequents, in any order and with any repetitions, ends in a structure
in which the sequents hold. -/
theorem saturate_satisfies {sig : Signature} {seqs : List Sequent} {rules taken : List Rule}
    (hrules : Rule.ofSequents sig seqs = .ok rules) (htaken : ∀ rule, rule ∈ taken ↔ rule ∈ rules)
    {s t : Structure} (valid : s.Valid) (clean : s.dirty = false) (hsig : s.signature = sig)
    {budget : Budget} {clock : Clock} {passes : Nat} {report : ChaseReport}
    (h : (saturate taken budget clock passes).Returns s (some report) t) :
    t.Valid ∧ t.dirty = false ∧ t.signature = sig ∧ ∀ seq ∈ seqs, t.Satisfies seq := by
  have hcompiles := Rule.ofSequents_compiles hrules
  have compiled : ∀ rule ∈ taken, rule.Compiled s.signature := by
    intro rule hrule
    obtain ⟨seq, _, compiles⟩ := forall₂_left_of_mem hcompiles ((htaken rule).mp hrule)
    exact ⟨seq, hsig ▸ compiles⟩
  obtain ⟨valid', clean', grows, hsaturated⟩ := saturate_saturated valid compiled h
  have saturated := hsaturated (Or.inl clean)
  have hsig' := grows.signature.trans hsig
  refine ⟨valid', clean', hsig', fun seq hseq => ?_⟩
  obtain ⟨rule, hrule, compiles⟩ := forall₂_right_of_mem hcompiles hseq
  exact saturated.satisfies valid' clean' ((htaken rule).mpr hrule) (hsig' ▸ compiles)

end Action

open PartialHorn.Action in
/-- A chase that comes to its end builds a model: from any reachable structure without pending
merges, every axiom holds in the structure that it leaves. -/
theorem saturate_builds_model {sig : Signature} {seqs : List Sequent} {rules : List Rule}
    (hrules : Rule.ofSequents sig seqs = .ok rules) {s : Structure} (reachable : s.Reachable sig)
    (clean : s.dirty = false) {budget : Budget} {clock : Clock} {passes : Nat}
    {report : ChaseReport}
    (h : (saturate rules budget clock passes s).answer = .ok (some report)) :
    ∀ seq ∈ seqs, (saturate rules budget clock passes s).after.Satisfies seq := by
  obtain ⟨_, _, _, satisfied⟩ := saturate_satisfies hrules (fun _ => Iff.rfl) reachable.valid clean
    reachable.signature_eq ⟨h, rfl⟩
  exact satisfied

def imageSignature : Signature where
  sorts := ["S"]
  operations := [⟨"f", [0], 0⟩]
  predicates := [⟨"P", [0]⟩, ⟨"Q", [0]⟩]

/-- If the first predicate holds, then the operation has a value for which the second one holds. -/
def imageSequent : Sequent where
  name := "image"
  vars := [⟨"x", 0⟩, ⟨"y", 0⟩]
  premises := [.pred 0 [0]]
  conclusions := [.op 0 [0] 1, .pred 1 [1]]

def imageRule : Rule :=
  .ofPlan 0 imageSequent [.pred 0 [0]]

/-- Two elements, with the first predicate holding of one of them. -/
def imageStart : Structure :=
  (Structure.empty imageSignature).afterCalls [.add 0, .add 0, .assert 0 [0]]

open PartialHorn.Action in
theorem saturate_builds_model_image :
    (saturate [imageRule] {} (fun _ => 0) 5 imageStart).answer = .ok (some ⟨2, 1, 1, 1, 0⟩) ∧
      ∀ seq ∈ [imageSequent],
        (saturate [imageRule] {} (fun _ => 0) 5 imageStart).after.Satisfies seq :=
  have compiled : Rule.ofSequents imageSignature [imageSequent] = .ok [imageRule] := rfl
  have reachable : imageStart.Reachable imageSignature := ⟨_, rfl⟩
  have answered : (saturate [imageRule] {} (fun _ => 0) 5 imageStart).answer =
      .ok (some ⟨2, 1, 1, 1, 0⟩) := rfl
  ⟨answered, saturate_builds_model compiled reachable rfl answered⟩

end PartialHorn
