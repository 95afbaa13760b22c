import PartialHorn.Proofs.Skipping
import PartialHorn.Proofs.Tightening
import Mathlib.Algebra.Group.Nat.Defs

namespace PartialHorn

/-- The plan binds the result of every operation among the conclusions, so that none of them
introduces a value. -/
def Rule.Full (rule : Rule) : Prop :=
  ∀ op args result, .op op args result ∈ rule.head → result ∈ rule.plan.flatMap Step.vars

/-- The lists of some length over the given elements. -/
def tuplesOver (xs : List Nat) : Nat → List (List Nat)
  | 0 => [[]]
  | n + 1 => xs.flatMap fun x => (tuplesOver xs n).map (List.cons x)

theorem mem_tuplesOver {xs tuple : List Nat} (h : ∀ x ∈ tuple, x ∈ xs) :
    tuple ∈ tuplesOver xs tuple.length := by
  induction tuple with
  | nil => exact List.mem_singleton.mpr rfl
  | cons x tuple ih =>
    have hrest := ih fun y hy => h y (List.mem_cons_of_mem x hy)
    exact List.mem_flatMap.mpr ⟨x, h x (by simp), List.mem_map_of_mem hrest⟩

theorem tuplesOver_length (xs : List Nat) (n : Nat) :
    (tuplesOver xs n).length = xs.length ^ n := by
  induction n with
  | zero => rfl
  | succ n ih =>
    simp only [tuplesOver, List.length_flatMap, List.length_map, ih]
    simp [Nat.pow_succ, Nat.mul_comm]

/-- The number of facts that are possible among so many classes. -/
def Signature.capacity (sig : Signature) (classes : Nat) : Nat :=
  total (fun operation : Operation => classes ^ operation.domain.length) sig.operations +
    total (fun predicate : Predicate => classes ^ predicate.domain.length) sig.predicates

namespace Structure

section Capacity

variable {s t : Structure} (valid : s.Valid) (clean : s.dirty = false)

include valid in
theorem canonical_tuples_length {tuples : List (List Nat)} {domain : List Nat} (nodup : tuples.Nodup)
    (h : ∀ tuple ∈ tuples, s.Typed tuple domain ∧ tuple.map s.equality.root = tuple) :
    tuples.length ≤ s.classCount ^ domain.length := by
  have hsub : tuples ⊆ tuplesOver s.equality.roots domain.length := by
    intro tuple ht
    obtain ⟨typed, canonical⟩ := h tuple ht
    have hfixed := valid.fixed_of_roots typed.lt_size canonical
    have hmem := mem_tuplesOver fun x hx => Equality.mem_roots.mpr (hfixed x hx)
    rwa [typed.length_eq] at hmem
  have hle := nodup.length_le_of_subset hsub
  rwa [tuplesOver_length, ← valid.classCount_eq] at hle

include valid clean

theorem rowCount_le_capacity : s.rowCount ≤ s.signature.capacity s.classCount := by
  have hops : total OperationTable.size s.operations ≤
      total (fun operation : Operation => s.classCount ^ operation.domain.length)
        s.signature.operations := by
    refine total_le (forall₂_of_getElem? valid.operationArities.length_eq.symm ?_)
    intro op table operation htable hop
    have hkeyed := valid.keyed table (List.mem_of_getElem? htable)
    have hle : (table.rows.map Row.args).length ≤ s.classCount ^ operation.domain.length := by
      refine canonical_tuples_length valid hkeyed fun args hargs => ?_
      obtain ⟨row, hrow, rfl⟩ := List.mem_map.mp hargs
      have hhas : s.HasRow op row := ⟨table, htable, hrow⟩
      obtain ⟨other, hother, typed, _⟩ := valid.rowTyped op row hhas
      cases Option.some.inj (hop.symm.trans hother)
      exact ⟨typed, congrArg Row.args (valid.rowCanonical clean op row hhas)⟩
    rwa [List.length_map] at hle
  have hpreds : total PredicateTable.size s.predicates ≤
      total (fun predicate : Predicate => s.classCount ^ predicate.domain.length)
        s.signature.predicates := by
    refine total_le (forall₂_of_getElem? valid.predicateArities.length_eq.symm ?_)
    intro pred table predicate htable hpred
    have hnodup := PredicateTable.rows_nodup (valid.unrepeated table (List.mem_of_getElem? htable))
    refine canonical_tuples_length valid hnodup fun tuple ht => ?_
    have hhas : s.HasTuple pred tuple := ⟨table, htable, ht⟩
    obtain ⟨other, hother, typed⟩ := valid.tupleTyped pred tuple hhas
    cases Option.some.inj (hpred.symm.trans hother)
    exact ⟨typed, valid.tupleCanonical clean pred tuple hhas⟩
  exact Nat.add_le_add hops hpreds

end Capacity

/-- The number of facts that are still missing among the present classes. -/
def missing (s : Structure) : Nat :=
  s.signature.capacity s.classCount - s.rowCount

theorem Advances.lex {s t : Structure} (h : s.Advances t) (hsig : t.signature = s.signature)
    (valid : t.Valid) (clean : t.dirty = false) :
    Prod.Lex (· < ·) (· < ·) (t.classCount, t.missing) (s.classCount, s.missing) := by
  rcases h with hless | ⟨hsame, hrows⟩
  · exact .left _ _ hless
  · have hbound := rowCount_le_capacity valid clean
    rw [hsame, hsig] at hbound
    rw [hsame]
    refine .right _ ?_
    simp only [missing, hsame, hsig]
    omega

end Structure

namespace Action

open Structure

section Fire

variable {s t : Structure} (valid : s.Valid) {rule : Rule}

include valid

theorem mergeFor_size {x y : Nat} (h : (mergeFor rule x y).Returns s () t) : t.size = s.size := by
  obtain ⟨merged, mid, hmerge, h⟩ := returns_andThen.mp h
  have hsize := merge_size valid hmerge
  split at h
  next => exact (returns_report.mp h) ▸ hsize
  next => exact (returns_give.mp h).2 ▸ hsize

theorem mergeFor_tightens {x y : Nat} (h : (mergeFor rule x y).Returns s () t) : s.Tightens t := by
  have hkept := h.kept (mergeFor_keeps rule x y) valid
  exact .of_size hkept.1 hkept.2 (mergeFor_size valid h)

theorem assert_tightens {pred : Nat} {args : List Nat} {flag : Bool}
    (h : (assert pred args).Returns s flag t) : s.Tightens t := by
  have hkept := h.kept (assert_keeps pred args) valid
  exact .of_size hkept.1 hkept.2 (assert_size valid h)

/-- A fresh value that is merged with an old element leaves no class behind. If the structure has as
many classes afterwards as before, then it has one fact more: the operation was not defined there. -/
theorem define_tightens {op x z : Nat} {args : List Nat} {mid : Structure} (hz : z < s.size)
    (hdefine : (define op args).Returns s x mid) (hmerge : (mergeFor rule z x).Returns mid () t) :
    s.Tightens t := by
  have happlies := define_returns valid hdefine
  rcases define_cases valid op args with ⟨_, hno⟩ | ⟨operation, happ, ⟨y, _, hold⟩ | ⟨hnone, hfresh⟩⟩
  · exact absurd hdefine hno.not_returns
  · obtain ⟨rfl, rfl⟩ := hdefine.unique hold
    exact (Tightens.renewed valid).trans (mergeFor_tightens (renewed_valid valid) hmerge) valid
  · obtain ⟨rfl, rfl⟩ := hdefine.unique hfresh
    have hmid := defined_valid valid happ
    have merged := mergeFor_tightens hmid hmerge
    have hequal := mergeFor_returns hmid hmerge
    have valid' := renewed_valid valid
    have grows := (grows_renewed valid).trans ((defined_grows valid op operation args).trans merged.grows)
    have hsize : t.size = s.size + 1 := by
      rw [mergeFor_size hmid hmerge, ← renewed_size valid]
      exact extended_size operation.codomain
    have covers : s.Covers t := fun y hy => by
      by_cases hlt : y < s.size
      · exact ⟨y, hlt, merged.valid.equal_refl hy⟩
      · have he : y = s.size := by omega
        exact ⟨z, hz, he ▸ hequal⟩
    refine ⟨merged.valid, grows, covers, Or.inr ?_⟩
    have retains := grows.retains_renewed valid merged.valid covers
    have hrenewed := renewed_valid merged.valid
    have hle := retains.classCount_le valid' hrenewed
    by_contra hnot
    unfold Advances at hnot
    have hargs := happ.2.lt_size
    have hlater := (grows_renewed merged.valid).applies (merged.grows.applies happlies)
    obtain ⟨y, hy⟩ := retains.applies_reflects valid' (renewed_dirty valid) hrenewed
      (renewed_dirty merged.valid) (by omega) (by omega) (renewed_size valid ▸ hargs) hlater
    exact result?_eq_none hnone ((valid'.applies_iff (renewed_dirty valid)).mp hy).2.2

/-- A conclusion whose result is bound introduces nothing. -/
theorem conclude_tightens {b larger : Binding} {atom : Atom}
    (known : ∀ var x, b.value var = some x → x < s.size)
    (bound : ∀ result, atom.result? = some result → b.Binds result)
    (h : (conclude rule b atom).Returns s larger t) : larger = b ∧ s.Tightens t := by
  have hdraws := conclude_returns_iff.mp h
  cases atom with
  | op op args result =>
    obtain ⟨z, hz⟩ := bound result rfl
    obtain ⟨xs, x, mid, _, hdefine, hlast⟩ := hdraws
    rw [hz] at hlast
    obtain ⟨hmerge, rfl⟩ := hlast
    exact ⟨rfl, define_tightens valid (known result z hz) hdefine hmerge⟩
  | pred pred args =>
    obtain ⟨xs, flag, _, hassert, rfl⟩ := hdraws
    exact ⟨rfl, assert_tightens valid hassert⟩
  | eq lhs rhs =>
    obtain ⟨x, y, _, _, hmerge, rfl⟩ := hdraws
    exact ⟨rfl, mergeFor_tightens valid hmerge⟩

theorem concludeAll_tightens {b : Binding} {atoms : List Atom}
    (known : ∀ var x, b.value var = some x → x < s.size)
    (bound : ∀ atom ∈ atoms, ∀ result, atom.result? = some result → b.Binds result)
    (h : (concludeAll rule atoms b).Returns s () t) : s.Tightens t := by
  induction atoms generalizing s with
  | nil =>
    obtain ⟨_, rfl⟩ := returns_give.mp h
    exact .refl valid
  | cons atom atoms ih =>
    obtain ⟨larger, mid, hfirst, hrest⟩ := returns_andThen.mp h
    obtain ⟨rfl, first⟩ := conclude_tightens valid known (bound atom (by simp)) hfirst
    have known' : ∀ var x, larger.value var = some x → x < mid.size := fun var x hx =>
      Nat.lt_of_lt_of_le (known var x hx) first.grows.size
    have rest := ih first.valid known' (fun other ho => bound other (List.mem_cons_of_mem atom ho)) hrest
    exact first.trans rest valid

theorem each_fire_tightens {found : List Binding}
    (known : ∀ b ∈ found, ∀ var x, b.value var = some x → x < s.size)
    (bound : ∀ b ∈ found, ∀ atom ∈ rule.head, ∀ result, atom.result? = some result → b.Binds result)
    (h : (each (fire rule) found).Returns s () t) : s.Tightens t := by
  induction found generalizing s with
  | nil =>
    obtain ⟨_, rfl⟩ := returns_give.mp h
    exact .refl valid
  | cons b found ih =>
    obtain ⟨_, mid, hfirst, hrest⟩ := returns_andThen.mp h
    have first := concludeAll_tightens valid (known b (by simp)) (bound b (by simp)) hfirst
    have known' : ∀ other ∈ found, ∀ var x, other.value var = some x → x < mid.size :=
      fun other ho var x hx =>
        Nat.lt_of_lt_of_le (known other (List.mem_cons_of_mem b ho) var x hx) first.grows.size
    have rest := ih first.valid known' (fun other ho => bound other (List.mem_cons_of_mem b ho)) hrest
    exact first.trans rest valid

end Fire

theorem solution_binds {s : Structure} (valid : s.Valid) (clean : s.dirty = false) {rule : Rule}
    (compiled : rule.Compiled s.signature) (full : rule.Full) {b : Binding}
    (h : b ∈ s.solutions rule) :
    ∀ atom ∈ rule.head, ∀ result, atom.result? = some result → b.Binds result := by
  obtain ⟨seq, compiles⟩ := compiled
  obtain ⟨_, assigns, _, _⟩ := (mem_solutions valid rfl compiles clean).mp h
  intro atom hatom result hresult
  cases atom with
  | op op args r =>
    cases Option.some.inj hresult
    have hranged := (mem_plan_vars compiles).mp (full op args result hatom)
    obtain ⟨x, _, hx, _⟩ := assigns.ranged result hranged
    exact ⟨x, hx⟩
  | pred pred args => exact nomatch hresult
  | eq lhs rhs => exact nomatch hresult

section Turns

variable {s t : Structure} (valid : s.Valid)

include valid

theorem turn_tightens {rule : Rule} (compiled : rule.Compiled s.signature) (full : rule.Full)
    {last : Option Readings} {taken : Turn} (h : (turn rule last).Returns s taken t) :
    s.Tightens t := by
  have valid' := renewed_valid valid
  have clean := renewed_dirty valid
  have compiled' : rule.Compiled s.renewed.signature := (grows_renewed valid).signature ▸ compiled
  have renewed := Tightens.renewed valid
  obtain ⟨_, _, rfl⟩ | ⟨_, _, heach⟩ := (turn_returns_iff valid).mp h
  · exact renewed
  · refine renewed.trans (each_fire_tightens valid' (fun b hb var x hx => ?_) (fun b hb => ?_) heach) valid
    · obtain ⟨seq, compiles⟩ := compiled'
      obtain ⟨_, assigns, _, _⟩ := (mem_solutions valid' rfl compiles clean).mp hb
      exact assigns.lt_size hx
    · exact solution_binds valid' clean compiled' full hb

variable {rules : List Rule} (full : ∀ rule ∈ rules, rule.Full)

include full

theorem turns_tightens (compiled : ∀ rule ∈ rules, rule.Compiled s.signature)
    {seen : List (Option Readings)} {taken : List Turn} (h : (turns rules seen).Returns s taken t) :
    s.Tightens t := by
  induction rules generalizing s seen taken with
  | nil =>
    obtain ⟨_, rfl⟩ := returns_give.mp h
    exact .refl valid
  | cons rule rules ih =>
    cases seen with
    | nil =>
      obtain ⟨_, rfl⟩ := returns_give.mp h
      exact .refl valid
    | cons last lasts =>
      obtain ⟨hfull, hfulls⟩ := List.forall_mem_cons.mp full
      obtain ⟨hcompiled, hothers⟩ := List.forall_mem_cons.mp compiled
      obtain ⟨first, others, mid, hfirst, hlasts, rfl⟩ := turns_cons_returns_iff.mp h
      have one := turn_tightens valid hcompiled hfull hfirst
      have many := ih one.valid hfulls (one.grows.compiled hothers) hlasts
      exact one.trans many valid

variable (compiled : ∀ rule ∈ rules, rule.Compiled s.signature)

include compiled

theorem pass_tightens {seen : List (Option Readings)} {made : Pass}
    (h : (pass rules seen).Returns s made t) : s.Tightens t := by
  have renewed := Tightens.renewed valid
  obtain ⟨taken, mid, hturns, valid', _, rfl, _⟩ := (pass_returns_iff valid).mp h
  have many := turns_tightens renewed.valid full (renewed.grows.compiled compiled) hturns
  exact (renewed.trans many valid).trans (Tightens.renewed valid') valid

/-- A pass that starts without pending merges and reports a change has advanced: a new element has
come with new facts, or with fewer classes, and without one the counters tell. -/
theorem pass_advances (clean : s.dirty = false) {seen : List (Option Readings)} {made : Pass}
    (h : (pass rules seen).Returns s made t) (changed : made.changed = true) : s.Advances t := by
  have tightens := pass_tightens valid full compiled h
  obtain ⟨taken, mid, _, valid', _, rfl, rfl⟩ := (pass_returns_iff valid).mp h
  have clean' := renewed_dirty valid'
  have hadvances := tightens.advances
  rw [(renewed_clean clean).2, (renewed_clean clean').2] at hadvances
  refine hadvances.elim (fun hsize => ?_) id
  have hcounted := tightens.valid.partition.counted
  have htracked := tightens.valid.tracked
  have htracked' := valid.tracked
  have hmerges := tightens.grows.merges
  have hfoot := of_decide_eq_true changed
  unfold Advances
  simp only [classCount, Partition.classCount_eq, Equality.classCount]
  by_cases hsame : mid.renewed.equality.merges = s.equality.merges
  · have hle := tightens.grows.rowCount_le clean hsame
    have hne : mid.renewed.rowCount ≠ s.rowCount := fun he =>
      hfoot (by simp only [footprint, Partition.merges_eq, hsize, hsame, he])
    omega
  · omega

end Turns

/-- A run without a budget comes to its end: some pass is the first one that reports no change, and
it is the last one. -/
def Ends (rules : List Rule) (s : Structure) (progress : Progress) : Prop :=
  ∃ passes final t,
    (keptPasses rules (passes + 1) progress).Returns s (List.replicate passes true ++ [false]) t ∧
    final.iterations = progress.iterations + passes + 1 ∧
    ∀ clock most, passes < most →
      (saturateFrom rules .unbounded clock most progress).Returns s (some final) t

theorem ends_of_pass {rules : List Rule} {s t : Structure} {progress : Progress} {made : Pass}
    (h : (pass rules progress.seen).Returns s made t)
    (later : made.changed = true → Ends rules t (progress.advance made)) : Ends rules s progress := by
  have hmade : (mapError ClosureError.structure (pass rules progress.seen)).Returns s made t :=
    returns_mapError.mpr h
  by_cases changed : made.changed = true
  · obtain ⟨passes, final, u, hkept, hcount, hrun⟩ := later changed
    refine ⟨passes + 1, final, u, ?_, ?_, fun clock most hmost => ?_⟩
    · have hfirst : (keptPasses rules (passes + 2) progress).Returns s
          (made.changed :: (List.replicate passes true ++ [false])) u :=
        hmade.andThen (hkept.andThen (give_returns _ _))
      rwa [changed] at hfirst
    · have hadvance : (progress.advance made).iterations = progress.iterations + 1 := rfl
      omega
    · obtain ⟨rest, rfl⟩ : ∃ rest, most = rest + 1 := ⟨most - 1, by omega⟩
      have hrest := hrun clock rest (by omega)
      rw [returns_iff_result] at hrest ⊢
      rw [saturateFrom_result h, if_pos changed]
      exact hrest
  · have unchanged : made.changed = false := by simpa using changed
    refine ⟨0, progress.advance made, t, ?_, rfl, fun clock most hmost => ?_⟩
    · have hfirst : (keptPasses rules 1 progress).Returns s [made.changed] t :=
        hmade.andThen ((give_returns _ _).andThen (give_returns _ _))
      rwa [unchanged] at hfirst
    · obtain ⟨rest, rfl⟩ : ∃ rest, most = rest + 1 := ⟨most - 1, by omega⟩
      rw [returns_iff_result, saturateFrom_result h, if_neg changed]

/-- Every pass that changes something leaves fewer classes or, among as many, fewer missing facts. -/
theorem ends_of_clean {rules : List Rule} (full : ∀ rule ∈ rules, rule.Full) {s : Structure}
    (valid : s.Valid) (clean : s.dirty = false)
    (compiled : ∀ rule ∈ rules, rule.Compiled s.signature) (progress : Progress) :
    Ends rules s progress := by
  obtain ⟨made, t, hpass⟩ := pass_progress valid compiled progress.seen
  refine ends_of_pass hpass fun changed => ?_
  have tightens := pass_tightens valid full compiled hpass
  have hsig := tightens.grows.signature
  have clean' : t.dirty = false := by
    obtain ⟨_, mid, _, hmid, _, rfl, _⟩ := (pass_returns_iff valid).mp hpass
    exact renewed_dirty hmid
  have advances := pass_advances valid full compiled clean hpass changed
  have hless := advances.lex hsig tightens.valid clean'
  exact ends_of_clean full tightens.valid clean' (hsig ▸ compiled) (progress.advance made)
termination_by (s.classCount, s.missing)
decreasing_by exact hless

end Action

open PartialHorn.Action in
/-- The chase comes to an end if its axioms introduce no values. Without a budget it makes passes until
the first one that reports no change, whatever the time that they take, and answers with their number.
No pass leaves more classes than there were before it. -/
theorem saturate_terminates {sig : Signature} {seqs : List Sequent} {rules : List Rule}
    (hrules : Rule.ofSequents sig seqs = .ok rules) (full : ∀ rule ∈ rules, rule.Full)
    {s : Structure} (reachable : s.Reachable sig) :
    (∃ passes report,
      (keptPasses rules (passes + 1) (Progress.initial rules) s).answer =
          .ok (List.replicate passes true ++ [false]) ∧
        report.iterations = passes + 1 ∧
        ∀ clock most, passes < most →
          (saturate rules .unbounded clock most s).answer = .ok (some report)) ∧
    ∀ passes seen,
      (pass rules seen (keptPasses rules passes (Progress.initial rules) s).after).after.classCount ≤
        (keptPasses rules passes (Progress.initial rules) s).after.classCount := by
  have valid := reachable.valid
  have compiled : ∀ rule ∈ rules, rule.Compiled s.signature :=
    reachable.signature_eq ▸ Rule.ofSequents_compiled hrules
  refine ⟨?_, fun passes seen => ?_⟩
  · have ends : Ends rules s (Progress.initial rules) := by
      obtain ⟨made, t, hpass⟩ := pass_progress valid compiled (Progress.initial rules).seen
      have passed := pass_passed valid compiled (remembers_initial s rules) hpass
      have hsig := ((Structure.grows_renewed valid).trans passed.grows).signature
      exact ends_of_pass hpass fun _ => ends_of_clean full passed.valid passed.clean (hsig ▸ compiled) _
    obtain ⟨passes, final, t, hkept, hcount, hrun⟩ := ends
    refine ⟨passes, final.report s t, hkept.1, ?_, fun clock most hmost =>
      (saturate_returns_iff.mpr ⟨final, hrun clock most hmost, rfl⟩).1⟩
    have hzero : (Progress.initial rules).iterations = 0 := rfl
    show final.iterations = passes + 1
    omega
  · have hkept := keptPasses_keeps rules passes (Progress.initial rules) s valid
    obtain ⟨made, t, hpass⟩ := pass_progress hkept.1 (hkept.2.signature ▸ compiled) seen
    rw [hpass.2]
    exact (pass_tightens hkept.1 full (hkept.2.signature ▸ compiled) hpass).classCount_le hkept.1

/-- A sort with an operation and a relation. -/
def graphSignature : Signature where
  sorts := ["S"]
  operations := [⟨"f", [0], 0⟩]
  predicates := [⟨"P", [0, 0]⟩]

/-- The relation is contained in the graph of the operation. -/
def graphSequent : Sequent where
  name := "graph"
  vars := [⟨"x", 0⟩, ⟨"z", 0⟩]
  premises := [.pred 0 [0, 1]]
  conclusions := [.op 0 [0] 1]

def graphRule : Rule :=
  .ofPlan 0 graphSequent [.pred 0 [0, 1]]

/-- A cycle of two elements, one of them related to a third one too. -/
def graphStart : Structure :=
  (Structure.empty graphSignature).afterCalls
    [.add 0, .add 0, .add 0, .assert 0 [0, 1], .assert 0 [1, 0], .assert 0 [0, 2]]

open PartialHorn.Action in
/-- Each of the first firings allocates a value and merges it away. -/
theorem saturate_terminates_graph :
    (saturate [graphRule] .unbounded (fun _ => 0) 9 graphStart).answer =
        .ok (some ⟨2, 5, 0, 2, 3⟩) ∧
      (∃ passes report, ∀ clock most, passes < most →
        (saturate [graphRule] .unbounded clock most graphStart).answer = .ok (some report)) ∧
      (pass [graphRule] [none] graphStart).after.classCount ≤ graphStart.classCount := by
  have compiled : Rule.ofSequents graphSignature [graphSequent] = .ok [graphRule] := rfl
  have full : ∀ rule ∈ [graphRule], rule.Full := by
    intro rule hrule op args result hhead
    obtain rfl := List.mem_singleton.mp hrule
    obtain ⟨_, _, rfl⟩ := Atom.op.inj (List.mem_singleton.mp hhead)
    decide
  have reachable : graphStart.Reachable graphSignature := ⟨_, rfl⟩
  obtain ⟨⟨passes, report, _, _, hrun⟩, hclasses⟩ := saturate_terminates compiled full reachable
  exact ⟨rfl, ⟨passes, report, hrun⟩, hclasses 0 [none]⟩

end PartialHorn
