import PartialHorn.Proofs.Stability
import PartialHorn.Proofs.TypedFiring

namespace PartialHorn

namespace Action

open Structure

/-- Makes a number of passes, each with the readings of the one before it, and answers which of them
changed the structure. -/
def keptPasses (rules : List Rule) : Nat → Progress → Action Structure ClosureError (List Bool)
  | 0, _ => return []
  | passes + 1, progress => do
    let made ← mapError .structure (pass rules progress.seen)
    let others ← keptPasses rules passes (progress.advance made)
    return made.changed :: others

/-- Makes a number of passes that know nothing of each other. -/
def freshPasses (rules : List Rule) : Nat → Action Structure ClosureError (List Bool)
  | 0 => return []
  | passes + 1 => do
    let changed ← chaseOnce rules
    let others ← freshPasses rules passes
    return changed :: others

/-- Repeats passes that know nothing of each other until one changes nothing or the budget is
exceeded, and answers how many there were. -/
def repeatFrom (rules : List Rule) (budget : Budget) (clock : Clock) :
    Nat → Nat → Action Structure ClosureError (Option Nat)
  | 0, _ => return none
  | passes + 1, iterations => do
    let changed ← chaseOnce rules
    let iterations := iterations + 1
    let s ← current
    if changed then
      match budget.exceeded? iterations s.size (clock iterations) with
      | some (_, error) => fail error
      | none => repeatFrom rules budget clock passes iterations
    else return some iterations

def repeatOnce (rules : List Rule) (budget : Budget) (clock : Clock) (passes : Nat) :
    Action Structure ClosureError (Option Nat) :=
  repeatFrom rules budget clock passes 0

theorem keptPasses_keeps (rules : List Rule) (passes : Nat) (progress : Progress) :
    (keptPasses rules passes progress).Obeys Keeps := by
  induction passes generalizing progress with
  | zero => exact obeys_give Keeps.refl _
  | succ passes ih =>
    have hpass := (pass_keeps rules progress.seen).mapError ClosureError.structure
    refine hpass.andThen Keeps.trans fun made => ?_
    exact (ih (progress.advance made)).andThen Keeps.trans fun _ => obeys_give Keeps.refl _

section Fresh

variable {s t : Structure} (valid : s.Valid)

include valid

/-- A rule that is passed over would have fired to no effect. -/
theorem turn_fresh {rule : Rule} (compiled : rule.Compiled s.signature) {last : Option Readings}
    (settled : ∀ readings, last = some readings → s.Settles rule readings) {taken : Turn}
    (h : (turn rule last).Returns s taken t) : ∃ taken', (turn rule none).Returns s taken' t := by
  have valid' := renewed_valid valid
  have clean := renewed_dirty valid
  have grows := grows_renewed valid
  have compiled' : rule.Compiled s.renewed.signature := grows.signature ▸ compiled
  obtain ⟨hlast, rfl, rfl⟩ | ⟨_, rfl, heach⟩ := (turn_returns_iff valid).mp h
  · have saturated := ((settled _ hlast).mono grows).saturated compiled'
    have heach := each_fire_settled valid' clean compiled' (fun _ hb => hb) saturated
    exact ⟨_, (turn_returns_iff valid).mpr (Or.inr ⟨nofun, rfl, heach⟩)⟩
  · exact ⟨_, (turn_returns_iff valid).mpr (Or.inr ⟨nofun, rfl, heach⟩)⟩

theorem turns_fresh {rules : List Rule} (compiled : ∀ rule ∈ rules, rule.Compiled s.signature)
    {seen : List (Option Readings)} (remembers : Remembers s rules seen) {taken : List Turn}
    (h : (turns rules seen).Returns s taken t) :
    ∃ taken', (turns rules (Progress.initial rules).seen).Returns s taken' t := by
  induction rules generalizing s seen taken with
  | nil =>
    cases remembers
    exact ⟨taken, h⟩
  | cons rule rules ih =>
    obtain ⟨last, lasts, hlast, hrest, rfl⟩ := List.forall₂_cons_left_iff.mp remembers
    obtain ⟨hcompiled, hothers⟩ := List.forall_mem_cons.mp compiled
    obtain ⟨first, others, mid, hfirst, hlasts, rfl⟩ := turns_cons_returns_iff.mp h
    have hkept := hfirst.kept (turn_keeps rule last) valid
    obtain ⟨first', hfirst'⟩ := turn_fresh valid hcompiled hlast hfirst
    obtain ⟨others', hlasts'⟩ := ih hkept.1 (hkept.2.compiled hothers)
      (Remembers.mono hrest hkept.2) hlasts
    exact ⟨_, turns_cons_returns_iff.mpr ⟨first', others', mid, hfirst', hlasts', rfl⟩⟩

theorem pass_fresh {rules : List Rule} (compiled : ∀ rule ∈ rules, rule.Compiled s.signature)
    {seen : List (Option Readings)} (remembers : Remembers s rules seen) {made : Pass}
    (h : (pass rules seen).Returns s made t) : (chaseOnce rules).Returns s made.changed t := by
  have grows := grows_renewed valid
  obtain ⟨taken, mid, hturns, hmid, hgrown, hlast, rfl⟩ := (pass_returns_iff valid).mp h
  obtain ⟨taken', hfresh⟩ := turns_fresh (renewed_valid valid) (grows.compiled compiled)
    (remembers.mono grows) hturns
  have hpass := (pass_returns_iff valid).mpr ⟨taken', mid, hfresh, hmid, hgrown, hlast, rfl⟩
  exact (returns_mapError.mpr hpass).andThen (give_returns _ _)

/-- One step of a run: both kinds of pass come to their end, in one structure and with one answer to
whether something changed, and the run may go on with the readings of the first. -/
theorem pass_agrees {rules : List Rule} (compiled : ∀ rule ∈ rules, rule.Compiled s.signature)
    {progress : Progress} (remembers : Remembers s rules progress.seen) :
    ∃ made t, (pass rules progress.seen).Returns s made t ∧
      (chaseOnce rules).Returns s made.changed t ∧ t.Valid ∧
      (∀ rule ∈ rules, rule.Compiled t.signature) ∧
      Remembers t rules (progress.advance made).seen := by
  obtain ⟨made, t, hpass⟩ := pass_progress valid compiled progress.seen
  have passed := pass_passed valid compiled remembers hpass
  have grows := (grows_renewed valid).trans passed.grows
  exact ⟨made, t, hpass, pass_fresh valid compiled remembers hpass, passed.valid,
    grows.compiled compiled, passed.remembers progress⟩

theorem keptPasses_agrees {rules : List Rule}
    (compiled : ∀ rule ∈ rules, rule.Compiled s.signature) {progress : Progress}
    (remembers : Remembers s rules progress.seen) (passes : Nat) :
    ∃ flags t, (keptPasses rules passes progress).Returns s flags t ∧
      (freshPasses rules passes).Returns s flags t := by
  induction passes generalizing s progress with
  | zero => exact ⟨[], s, give_returns _ _, give_returns _ _⟩
  | succ passes ih =>
    obtain ⟨made, mid, hkept, hfresh, valid', compiled', remembers'⟩ :=
      pass_agrees valid compiled remembers
    obtain ⟨flags, t, hkepts, hfreshes⟩ := ih valid' compiled' remembers'
    refine ⟨made.changed :: flags, t, ?_, ?_⟩
    · exact (returns_mapError.mpr hkept).andThen (hkepts.andThen (give_returns _ _))
    · exact hfresh.andThen (hfreshes.andThen (give_returns _ _))

end Fresh

section Steps

variable {s t : Structure} {rules : List Rule} {budget : Budget} {clock : Clock} {passes : Nat}

theorem repeatFrom_result {changed : Bool} {iterations : Nat}
    (h : (chaseOnce rules).Returns s changed t) :
    (repeatFrom rules budget clock (passes + 1) iterations).result s =
      if changed then
        match budget.exceeded? (iterations + 1) t.size (clock (iterations + 1)) with
        | some (_, error) => (.error error, t)
        | none => (repeatFrom rules budget clock passes (iterations + 1)).result t
      else (.ok (some (iterations + 1)), t) := by
  refine h.result_andThen.trans ((current_returns t).result_andThen.trans ?_)
  split
  next => cases budget.exceeded? (iterations + 1) t.size (clock (iterations + 1)) <;> rfl
  next => rfl

theorem exceeded?_untimed (untimed : budget.timeLimit = none)
    (iterations elements elapsed elapsed' : Nat) :
    budget.exceeded? iterations elements elapsed = budget.exceeded? iterations elements elapsed' := by
  simp [Budget.exceeded?, untimed]

end Steps

/-- A run that passes rules over ends with as many passes and in the same structure as one that does
not, whatever the time that their passes take. -/
theorem saturateFrom_repeats {s : Structure} (valid : s.Valid) {rules : List Rule}
    (compiled : ∀ rule ∈ rules, rule.Compiled s.signature) {budget : Budget}
    (untimed : budget.timeLimit = none) (clock clock' : Clock) (passes : Nat) {progress : Progress}
    (remembers : Remembers s rules progress.seen) :
    (repeatFrom rules budget clock' passes progress.iterations).result s =
      ((saturateFrom rules budget clock passes progress).result s).map
        (Except.map (Option.map Progress.iterations)) id := by
  induction passes generalizing s progress with
  | zero => rfl
  | succ passes ih =>
    obtain ⟨made, t, hkept, hfresh, valid', compiled', remembers'⟩ :=
      pass_agrees valid compiled remembers
    have hadvance : (progress.advance made).iterations = progress.iterations + 1 := rfl
    rw [saturateFrom_result hkept, repeatFrom_result hfresh, hadvance,
      exceeded?_untimed untimed _ _ (clock' _) (clock (progress.iterations + 1))]
    split
    next =>
      cases budget.exceeded? (progress.iterations + 1) t.size (clock (progress.iterations + 1)) with
      | none => exact ih valid' compiled' remembers'
      | some _ => rfl
    next => rfl

/-- A run as a whole counts the passes that its loop makes. -/
theorem saturate_iterations (s : Structure) (rules : List Rule) (budget : Budget) (clock : Clock)
    (passes : Nat) :
    ((saturate rules budget clock passes).result s).map
        (Except.map (Option.map ChaseReport.iterations)) id =
      ((saturateFrom rules budget clock passes (Progress.initial rules)).result s).map
        (Except.map (Option.map Progress.iterations)) id := by
  rw [saturate_result]
  generalize (saturateFrom rules budget clock passes (Progress.initial rules)).result s = run
  obtain ⟨answer, t⟩ := run
  rcases answer with e | (_ | final) <;> rfl

end Action

open PartialHorn.Action in
/-- Nobody can tell whether a run passes rules over. Its passes change what the same number of passes
changes that know nothing of each other, one by one, and leave the same structure; so a run without a
time limit makes as many of them, ends in the same structure, and fails with the same error. -/
theorem skipping_unobservable {sig : Signature} {rules : List Rule}
    (hrules : ∀ rule ∈ rules, ∃ index seq, Rule.ofSequent sig index seq = .ok rule)
    {s : Structure} (reachable : s.Reachable sig) :
    (∀ passes, ∃ flags, (keptPasses rules passes (Progress.initial rules) s).answer = .ok flags ∧
      (freshPasses rules passes s).answer = .ok flags ∧
      (keptPasses rules passes (Progress.initial rules) s).after =
        (freshPasses rules passes s).after) ∧
    ∀ budget : Budget, budget.timeLimit = none → ∀ clock clock' passes,
      (saturate rules budget clock passes s).answer.map (Option.map ChaseReport.iterations) =
          (repeatOnce rules budget clock' passes s).answer ∧
        (saturate rules budget clock passes s).after =
          (repeatOnce rules budget clock' passes s).after := by
  have compiled : ∀ rule ∈ rules, rule.Compiled s.signature := fun rule hrule => by
    obtain ⟨index, seq, h⟩ := hrules rule hrule
    exact ⟨seq, reachable.signature_eq ▸ Rule.ofSequent_compiles h⟩
  have remembers := remembers_initial s rules
  refine ⟨fun passes => ?_, fun budget untimed clock clock' passes => ?_⟩
  · obtain ⟨flags, t, hkept, hfresh⟩ := keptPasses_agrees reachable.valid compiled remembers passes
    exact ⟨flags, hkept.1, hfresh.1, hkept.2.trans hfresh.2.symm⟩
  · have hrepeats := saturateFrom_repeats reachable.valid compiled untimed clock clock' passes remembers
    have hresult := (saturate_iterations s rules budget clock passes).trans hrepeats.symm
    exact ⟨congrArg Prod.fst hresult, congrArg Prod.snd hresult⟩

open PartialHorn.Action in
/-- The second pass of the run passes the rule over, and a merge is pending when it starts. -/
theorem skipping_unobservable_image :
    (saturate [imageRule] {} (fun _ => 0) 5 (imageStart.afterCalls [.merge 0 1])).answer =
        .ok (some ⟨2, 1, 1, 1, 0⟩) ∧
      (repeatOnce [imageRule] {} (fun _ => 0) 5 (imageStart.afterCalls [.merge 0 1])).answer =
        .ok (some 2) ∧
      (saturate [imageRule] {} (fun _ => 0) 5 (imageStart.afterCalls [.merge 0 1])).after =
        (repeatOnce [imageRule] {} (fun _ => 0) 5 (imageStart.afterCalls [.merge 0 1])).after := by
  have compiled : ∀ rule ∈ [imageRule],
      ∃ index seq, Rule.ofSequent imageSignature index seq = .ok rule := by
    intro rule hrule
    exact ⟨0, imageSequent, (List.mem_singleton.mp hrule) ▸ rfl⟩
  have reachable : (imageStart.afterCalls [.merge 0 1]).Reachable imageSignature :=
    ⟨[.add 0, .add 0, .assert 0 [0], .merge 0 1], rfl⟩
  have answered : (saturate [imageRule] {} (fun _ => 0) 5
      (imageStart.afterCalls [.merge 0 1])).answer = .ok (some ⟨2, 1, 1, 1, 0⟩) := rfl
  obtain ⟨_, hruns⟩ := skipping_unobservable compiled reachable
  obtain ⟨hanswer, hafter⟩ := hruns {} rfl (fun _ => 0) (fun _ => 0) 5
  refine ⟨answered, ?_, hafter⟩
  rw [← hanswer, answered]
  rfl

end PartialHorn
