import PartialHorn.Proofs.Reports
import PartialHorn.Proofs.Skipping

namespace PartialHorn

/-- Each bound of the second budget is missing or at least as large as that of the first one. -/
structure Budget.Within (budget larger : Budget) : Prop where
  passes : ∀ most, larger.maxPasses = some most → ∃ less, budget.maxPasses = some less ∧ less ≤ most
  elements : ∀ most, larger.maxElements = some most →
    ∃ less, budget.maxElements = some less ∧ less ≤ most

theorem Budget.within_unbounded (budget : Budget) : budget.Within .unbounded where
  passes _ h := nomatch h
  elements _ h := nomatch h

namespace Action

open Structure

section Exceeded

variable {budget larger : Budget} {iterations elements elapsed : Nat}

theorem exceeded?_quiet {event : Event} {e : ClosureError}
    (h : budget.exceeded? iterations elements elapsed = some (event, e)) :
    event.endsPass = false := by
  rcases Option.or_eq_some_iff.mp h with h | ⟨_, h⟩
  · obtain ⟨_, _, h⟩ := Option.bind_eq_some_iff.mp h
    split at h
    next => cases Option.some.inj h; rfl
    next => exact nomatch h
  · rcases Option.or_eq_some_iff.mp h with h | ⟨_, h⟩
    all_goals
      obtain ⟨_, _, h⟩ := Option.bind_eq_some_iff.mp h
      split at h
      next => cases Option.some.inj h; rfl
      next => exact nomatch h

/-- Without a time limit, a budget is not exceeded as long as neither bound is. -/
theorem exceeded?_eq_none_iff (untimed : budget.timeLimit = none) :
    budget.exceeded? iterations elements elapsed = none ↔
      (∀ most, budget.maxPasses = some most → iterations < most) ∧
        ∀ most, budget.maxElements = some most → elements ≤ most := by
  simp only [Budget.exceeded?, untimed, Option.or_eq_none_iff, Option.bind_eq_none_iff]
  simp

theorem exceeded?_within (untimed : budget.timeLimit = none) (untimed' : larger.timeLimit = none)
    (within : budget.Within larger) (elapsed' : Nat)
    (h : budget.exceeded? iterations elements elapsed = none) :
    larger.exceeded? iterations elements elapsed' = none := by
  obtain ⟨hpasses, helements⟩ := (exceeded?_eq_none_iff untimed).mp h
  refine (exceeded?_eq_none_iff untimed').mpr ⟨fun most hmost => ?_, fun most hmost => ?_⟩
  · obtain ⟨less, hless, hle⟩ := within.passes most hmost
    have := hpasses less hless
    omega
  · obtain ⟨less, hless, hle⟩ := within.elements most hmost
    have := helements less hless
    omega

end Exceeded

/-- A run goes through passes that all change something and stay within the budget: from one
structure and one state of its counters to another, by a number of passes. -/
inductive Onward (rules : List Rule) (budget : Budget) (clock : Clock) :
    Progress → Structure → Nat → Progress → Structure → Prop
  | start (progress : Progress) (s : Structure) : Onward rules budget clock progress s 0 progress s
  | further {progress last : Progress} {s t u : Structure} {made : Pass} {passes : Nat}
      (one : (pass rules progress.seen).Returns s made t) (changed : made.changed = true)
      (within : budget.exceeded? (progress.advance made).iterations t.size
        (clock (progress.advance made).iterations) = none)
      (rest : Onward rules budget clock (progress.advance made) t passes last u) :
      Onward rules budget clock progress s (passes + 1) last u

namespace Onward

variable {rules : List Rule} {budget larger : Budget} {clock : Clock} {progress last : Progress}
  {s t : Structure} {passes : Nat}

theorem iterations (h : Onward rules budget clock progress s passes last t) :
    last.iterations = progress.iterations + passes := by
  induction h with
  | start => rfl
  | @further progress last s t u made passes one changed within rest ih =>
    have hadvance : (progress.advance made).iterations = progress.iterations + 1 := rfl
    omega

/-- The same passes are made within a larger budget. -/
theorem mono (untimed : budget.timeLimit = none) (untimed' : larger.timeLimit = none)
    (hlarger : budget.Within larger) (clock' : Clock)
    (h : Onward rules budget clock progress s passes last t) :
    Onward rules larger clock' progress s passes last t := by
  induction h with
  | start progress s => exact .start progress s
  | further one changed within rest ih =>
    exact .further one changed (exceeded?_within untimed untimed' hlarger _ within) ih

/-- A run of as many passes more than these goes on where these have led. -/
theorem result_eq (h : Onward rules budget clock progress s passes last t) (more : Nat) :
    (saturateFrom rules budget clock (passes + more) progress).result s =
      (saturateFrom rules budget clock more last).result t := by
  induction h with
  | start => rw [Nat.zero_add]
  | @further progress last s t u made passes one changed within rest ih =>
    rw [show passes + 1 + more = passes + more + 1 by omega, saturateFrom_result one, if_pos changed,
      within]
    exact ih

/-- What a run keeps from pass to pass. -/
theorem kept (h : Onward rules budget clock progress s passes last t) (valid : s.Valid)
    (compiled : ∀ rule ∈ rules, rule.Compiled s.signature)
    (remembers : Remembers s rules progress.seen) :
    t.Valid ∧ s.Grows t ∧ Remembers t rules last.seen := by
  induction h with
  | start progress s => exact ⟨valid, .refl valid, remembers⟩
  | @further progress last s t u made passes one changed within rest ih =>
    have passed := pass_passed valid compiled remembers one
    have grows := (grows_renewed valid).trans passed.grows
    obtain ⟨hvalid, hgrows, hremembers⟩ :=
      ih passed.valid (grows.compiled compiled) (passed.remembers progress)
    exact ⟨hvalid, grows.trans hgrows, hremembers⟩

theorem trans {first mid last : Progress} {s t u : Structure} {passes more : Nat}
    (h : Onward rules budget clock first s passes mid t)
    (h' : Onward rules budget clock mid t more last u) :
    Onward rules budget clock first s (passes + more) last u := by
  induction h with
  | start => rwa [Nat.zero_add]
  | @further _ _ _ _ _ _ passes one changed within _ ih =>
    rw [show passes + 1 + more = passes + more + 1 by omega]
    exact .further one changed within (ih h')

/-- After a pass a run has not used up the passes of its budget yet. -/
theorem iterations_lt (untimed : budget.timeLimit = none)
    (h : Onward rules budget clock progress s passes last t) (hpos : 0 < passes) {most : Nat}
    (hmost : budget.maxPasses = some most) : last.iterations < most := by
  induction h with
  | start => omega
  | @further progress last s t u made passes one changed within rest ih =>
    have hone := ((exceeded?_eq_none_iff untimed).mp within).1 most hmost
    rcases Nat.eq_zero_or_pos passes with rfl | hrest
    · have hlast := rest.iterations
      omega
    · exact ih hrest

/-- Where passes have led, an unbounded run comes by, whatever it remembers from passes before. -/
theorem unbounded (h : Onward rules budget clock progress s passes last t) (valid : s.Valid)
    (compiled : ∀ rule ∈ rules, rule.Compiled s.signature)
    (remembers : Remembers s rules progress.seen) {other : Progress}
    (remembers' : Remembers s rules other.seen) (clock' : Clock) :
    ∃ last', Onward rules .unbounded clock' other s passes last' t := by
  induction h generalizing other with
  | start _ s => exact ⟨other, .start other s⟩
  | @further progress last s t u made passes one changed within rest ih =>
    obtain ⟨made', t', one', hfresh', valid', compiled', later'⟩ :=
      pass_agrees valid compiled remembers'
    have passed := pass_passed valid compiled remembers one
    -- A pass that remembers nothing shows what two passes with different memories have in common.
    obtain ⟨hchanged, rfl⟩ := (pass_fresh valid compiled remembers one).unique hfresh'
    obtain ⟨last', onward⟩ := ih valid' compiled' (passed.remembers progress) later'
    exact ⟨last', .further one' (hchanged ▸ changed) rfl onward⟩

end Onward

section Loop

variable {s t : Structure} {rules : List Rule} {budget : Budget} {clock : Clock} {passes : Nat}
  {progress : Progress} {made : Pass}

/-- A run reports one pass more than the run by which it goes on, if it does. -/
theorem saturateFrom_passCount (h : (pass rules progress.seen).Returns s made t) :
    (saturateFrom rules budget clock (passes + 1) progress s).passCount =
      if made.changed then
        match budget.exceeded? (progress.advance made).iterations t.size
            (clock (progress.advance made).iterations) with
        | some _ => 1
        | none => 1 + (saturateFrom rules budget clock passes (progress.advance made) t).passCount
      else 1 := by
  have hquiet : (mapError ClosureError.structure (pass rules progress.seen)).Quiet :=
    (pass_quiet rules progress.seen).mapError _
  have hreport : ∀ iteration elements classes rows, ((report
      (.passDone iteration elements classes rows) : Action Structure ClosureError Unit) t).passCount = 1 :=
    fun _ _ _ _ => rfl
  have hpass : (mapError ClosureError.structure (pass rules progress.seen)).Returns s made t :=
    returns_mapError.mpr h
  refine (hpass.passCount_andThen).trans ?_
  rw [hquiet s, Nat.zero_add]
  refine ((current_returns t).passCount_andThen).trans ?_
  rw [quiet_current t, Nat.zero_add]
  refine ((report_returns _ t).passCount_andThen).trans ?_
  rw [hreport]
  split
  next =>
    cases hexceeded : budget.exceeded? (progress.advance made).iterations t.size
        (clock (progress.advance made).iterations) with
    | none => rfl
    | some excess =>
      obtain ⟨event, error⟩ := excess
      have hevent := quiet_report (ε := ClosureError) (exceeded?_quiet hexceeded) t
      show 1 + (andThen (report event) (fun _ => fail error) t).passCount = 1 + 0
      rw [(report_returns event t).passCount_andThen, hevent, quiet_fail error t]
  next => rfl

/-- A run goes through passes that change something within the budget, and then has used up the
passes that it was allowed, or makes a last one: this one changes nothing or exceeds the budget. -/
theorem saturateFrom_cases (valid : s.Valid) (compiled : ∀ rule ∈ rules, rule.Compiled s.signature)
    (budget : Budget) (clock : Clock) (passes : Nat) (progress : Progress) :
    ∃ count last mid, Onward rules budget clock progress s count last mid ∧
      ((count = passes ∧ (saturateFrom rules budget clock passes progress).result s = (.ok none, mid) ∧
          (saturateFrom rules budget clock passes progress s).passCount = count) ∨
        (count < passes ∧ (saturateFrom rules budget clock passes progress s).passCount = count + 1 ∧
          ∃ made t, (pass rules last.seen).Returns mid made t ∧
            ((made.changed = false ∧ (saturateFrom rules budget clock passes progress).result s =
                (.ok (some (last.advance made)), t)) ∨
              (made.changed = true ∧ ∃ error,
                (saturateFrom rules budget clock passes progress).result s = (.error error, t))))) := by
  induction passes generalizing s progress with
  | zero => exact ⟨0, progress, s, .start progress s, Or.inl ⟨rfl, rfl, rfl⟩⟩
  | succ passes ih =>
    obtain ⟨made, t, one⟩ := pass_progress valid compiled progress.seen
    have hkept := one.kept (pass_keeps rules progress.seen) valid
    have hresult : (saturateFrom rules budget clock (passes + 1) progress).result s = _ :=
      saturateFrom_result one
    have hcount : (saturateFrom rules budget clock (passes + 1) progress s).passCount = _ :=
      saturateFrom_passCount one
    cases changed : made.changed with
    | false =>
      rw [changed] at hresult hcount
      exact ⟨0, progress, s, .start progress s, Or.inr ⟨Nat.succ_pos _, hcount, made, t, one,
        Or.inl ⟨changed, hresult⟩⟩⟩
    | true =>
      rw [changed, if_pos rfl] at hresult hcount
      cases hexceeded : budget.exceeded? (progress.advance made).iterations t.size
          (clock (progress.advance made).iterations) with
      | some excess =>
        simp only [hexceeded] at hresult hcount
        exact ⟨0, progress, s, .start progress s, Or.inr ⟨Nat.succ_pos _, hcount, made, t, one,
          Or.inr ⟨changed, excess.2, hresult⟩⟩⟩
      | none =>
        simp only [hexceeded] at hresult hcount
        obtain ⟨count, last, mid, onward, hend⟩ :=
          ih hkept.1 (hkept.2.compiled compiled) (progress.advance made)
        refine ⟨count + 1, last, mid, .further one changed hexceeded onward, ?_⟩
        rcases hend with ⟨hcounts, hrest, hpasses⟩ | ⟨hless, hpasses, made', t', one', hrest⟩
        · rw [hpasses] at hcount
          exact Or.inl ⟨by omega, hresult.trans hrest, hcount.trans (Nat.add_comm 1 count)⟩
        · rw [hpasses] at hcount
          rw [hresult]
          exact Or.inr ⟨by omega, hcount.trans (Nat.add_comm 1 _), made', t', one', hrest⟩

end Loop

section Run

variable {s t mid : Structure} {rules : List Rule} {budget : Budget} {clock : Clock} {passes : Nat}
  {last : Progress} {count : Nat}

theorem saturate_passCount (s : Structure) (rules : List Rule) (budget : Budget) (clock : Clock)
    (passes : Nat) : (saturate rules budget clock passes s).passCount =
      (saturateFrom rules budget clock passes (Progress.initial rules) s).passCount := by
  refine ((current_returns s).passCount_andThen).trans ?_
  rw [quiet_current s, Nat.zero_add]
  exact passCount_andThen (fun _ => quiet_current.andThen fun _ => quiet_give _) s

/-- A run that may make just these passes has no answer yet. -/
theorem Onward.pauses (h : Onward rules budget clock (Progress.initial rules) s count last mid) :
    (saturate rules budget clock count).result s = (.ok none, mid) := by
  rw [saturate_result, ← Nat.add_zero count, h.result_eq 0]
  rfl

/-- A run ends with the pass that changes nothing. -/
theorem Onward.ends (h : Onward rules budget clock (Progress.initial rules) s count last mid)
    {made : Pass} (one : (pass rules last.seen).Returns mid made t) (changed : made.changed = false)
    (enough : count < passes) :
    (saturate rules budget clock passes).Returns s (some ((last.advance made).report s t)) t := by
  obtain ⟨more, rfl⟩ : ∃ more, passes = count + (more + 1) := ⟨passes - count - 1, by omega⟩
  refine returns_iff_result.mpr ?_
  rw [saturate_result, h.result_eq, saturateFrom_result one, changed]
  rfl

/-- A run goes through passes that change something within the budget. Then it pauses, because it may
make no more of them, ends with a pass that changes nothing, or is cut short after one that exceeds
the budget. -/
theorem saturate_cases (valid : s.Valid) (compiled : ∀ rule ∈ rules, rule.Compiled s.signature)
    (budget : Budget) (clock : Clock) (passes : Nat) :
    ∃ count last mid, Onward rules budget clock (Progress.initial rules) s count last mid ∧
      ((count = passes ∧ (saturate rules budget clock passes).result s = (.ok none, mid) ∧
          (saturate rules budget clock passes s).passCount = count) ∨
        (count < passes ∧ (saturate rules budget clock passes s).passCount = count + 1 ∧
          ∃ made t, (pass rules last.seen).Returns mid made t ∧
            ((made.changed = false ∧ (saturate rules budget clock passes).Returns s
                (some ((last.advance made).report s t)) t) ∨
              (made.changed = true ∧ ∃ error,
                (saturate rules budget clock passes).result s = (.error error, t))))) := by
  obtain ⟨count, last, mid, onward, hend⟩ :=
    saturateFrom_cases valid compiled budget clock passes (Progress.initial rules)
  have hpassCount := saturate_passCount s rules budget clock passes
  refine ⟨count, last, mid, onward, ?_⟩
  rcases hend with ⟨rfl, _, hcount⟩ | ⟨hless, hcount, made, t, one, hresult⟩
  · exact Or.inl ⟨rfl, onward.pauses, hpassCount.trans hcount⟩
  · refine Or.inr ⟨hless, hpassCount.trans hcount, made, t, one, ?_⟩
    rcases hresult with ⟨changed, hresult⟩ | ⟨changed, error, hresult⟩
    · exact Or.inl ⟨changed, onward.ends one changed hless⟩
    · have hrun : (saturate rules budget clock passes).result s = (.error error, t) := by
        rw [saturate_result, hresult]
        rfl
      exact Or.inr ⟨changed, error, hrun⟩

end Run

/-- A run from `s` has been cut short in `t` after a number of passes. No merge is pending there, and
the unbounded run comes by. If a second run that starts there comes to its end, the unbounded run
ends as it does, with the passes, the fresh elements and the merges of both. -/
structure Resumable (rules : List Rule) (s t : Structure) (made : Nat) : Prop where
  clean : t.dirty = false
  reached : ∀ clock, (saturate rules .unbounded clock made).result s = (.ok none, t)
  resumed : ∀ budget : Budget, budget.timeLimit = none → ∀ clock passes second u,
    (saturate rules budget clock passes).Returns t (some second) u →
    ∃ whole : ChaseReport,
      whole.iterations = made + (saturate rules budget clock passes t).passCount ∧
      whole.elementsCreated = (t.size - s.size) + second.elementsCreated ∧
      whole.merges = (t.equality.merges - s.equality.merges) + second.merges ∧
      ∀ clock' passes', whole.iterations ≤ passes' →
        (saturate rules .unbounded clock' passes').Returns s (some whole) u

/-- Together, passes that an interrupted run has made and those of a second run are the passes of the
unbounded run. The second run has forgotten what the first one remembered, but nobody can tell. -/
theorem resumable_of_cut {s mid t : Structure} (valid : s.Valid) {rules : List Rule}
    (compiled : ∀ rule ∈ rules, rule.Compiled s.signature) {budget : Budget}
    (untimed : budget.timeLimit = none) {clock : Clock} {count : Nat} {last : Progress}
    (h : Onward rules budget clock (Progress.initial rules) s count last mid) {made : Pass}
    (one : (pass rules last.seen).Returns mid made t) (changed : made.changed = true) :
    Resumable rules s t (count + 1) := by
  obtain ⟨hmid, hgrown, hmemory⟩ := h.kept valid compiled (remembers_initial s rules)
  have passed := pass_passed hmid (hgrown.compiled compiled) hmemory one
  have hgrows : s.Grows t := hgrown.trans ((grows_renewed hmid).trans passed.grows)
  have hfree : ∀ clock', Onward rules .unbounded clock' (Progress.initial rules) s (count + 1)
      (last.advance made) t := fun clock' =>
    (h.mono untimed rfl budget.within_unbounded clock').trans (.further one changed rfl (.start _ _))
  refine ⟨passed.clean, fun clock' => (hfree clock').pauses, ?_⟩
  intro budget' untimed' clock' passes second u hsecond
  have hcompiled := hgrows.compiled compiled
  obtain ⟨count', last', mid', onward, hend⟩ := saturate_cases passed.valid hcompiled budget' clock' passes
  rcases hend with ⟨_, hpause, _⟩ | ⟨_, hpasses, made', v, one', ⟨hquiet, hreturns⟩ | ⟨_, e, hfail⟩⟩
  · exact absurd (congrArg Prod.fst (hpause.symm.trans (returns_iff_result.mp hsecond))) nofun
  · obtain ⟨hreport, rfl⟩ := hreturns.unique hsecond
    obtain rfl := Option.some.inj hreport
    -- The unbounded run makes the passes of the second run with its own memory.
    obtain ⟨final, honward⟩ := onward.unbounded passed.valid hcompiled (remembers_initial t rules)
      (passed.remembers last) (fun _ => 0)
    have hwhole := (hfree fun _ => 0).trans honward
    obtain ⟨hvalid, hlast, hremembers⟩ := hwhole.kept valid compiled (remembers_initial s rules)
    obtain ⟨_, hlater, hmemory'⟩ := onward.kept passed.valid hcompiled (remembers_initial t rules)
    obtain ⟨made'', w, one'', hfresh, _⟩ := pass_agrees hvalid (hlast.compiled compiled) hremembers
    obtain ⟨hsame, rfl⟩ :=
      (pass_fresh hvalid (hlater.compiled hcompiled) hmemory' one').unique hfresh
    have hfinal : t.Grows v :=
      hlater.trans (one'.kept (pass_keeps rules last'.seen) hvalid).2
    refine ⟨(final.advance made'').report s v, ?_, ?_, ?_, fun clock'' passes' hpasses' => ?_⟩
    · have hcount := hwhole.iterations
      show final.iterations + 1 = _
      have hzero : (Progress.initial rules).iterations = 0 := rfl
      omega
    · have hone := hgrows.size
      have htwo := hfinal.size
      show v.size - s.size = t.size - s.size + (v.size - t.size)
      omega
    · have hone := hgrows.merges
      have htwo := hfinal.merges
      show v.equality.merges - s.equality.merges =
        t.equality.merges - s.equality.merges + (v.equality.merges - t.equality.merges)
      omega
    · have hmade : final.iterations + 1 ≤ passes' := hpasses'
      have hcount := hwhole.iterations
      have hzero : (Progress.initial rules).iterations = 0 := rfl
      have honce := hwhole.mono rfl rfl (Budget.within_unbounded _) clock''
      exact honce.ends one'' (hsame.symm.trans hquiet) (by omega)
  · exact absurd (congrArg Prod.fst (hfail.symm.trans (returns_iff_result.mp hsecond))) nofun

end Action

open PartialHorn.Action in
/-- A budget only cuts a run short. What ends within a budget ends in the same way within every larger
one; the passes are bounded as the budget says, except that there is always a first one; and a run
that was cut short can be resumed as if nothing had happened. -/
theorem budgets_only_cut {sig : Signature} {rules : List Rule}
    (hrules : ∀ rule ∈ rules, ∃ index seq, Rule.ofSequent sig index seq = .ok rule)
    {s : Structure} (reachable : s.Reachable sig) {budget : Budget}
    (untimed : budget.timeLimit = none) (clock : Clock) (passes : Nat) :
    (∀ report t, (saturate rules budget clock passes).Returns s (some report) t →
      report.iterations = (saturate rules budget clock passes s).passCount ∧
      ∀ larger : Budget, budget.Within larger → larger.timeLimit = none → ∀ clock' passes',
        report.iterations ≤ passes' →
        (saturate rules larger clock' passes').Returns s (some report) t) ∧
    (∀ most, budget.maxPasses = some most →
      (saturate rules budget clock passes s).passCount ≤ max most 1 ∧
      (max most 1 ≤ passes → (saturate rules budget clock passes s).answer ≠ .ok none)) ∧
    ∀ error, (saturate rules budget clock passes s).answer = .error error →
      Resumable rules s (saturate rules budget clock passes s).after
        (saturate rules budget clock passes s).passCount := by
  have valid := reachable.valid
  have compiled : ∀ rule ∈ rules, rule.Compiled s.signature := fun rule hrule => by
    obtain ⟨index, seq, h⟩ := hrules rule hrule
    exact ⟨seq, reachable.signature_eq ▸ Rule.ofSequent_compiles h⟩
  obtain ⟨count, last, mid, onward, hend⟩ := saturate_cases valid compiled budget clock passes
  have hcount : last.iterations = 0 + count := onward.iterations
  refine ⟨fun report t hreturns => ?_, fun most hmost => ?_, fun error herror => ?_⟩
  · rcases hend with ⟨_, hpause, _⟩ | ⟨_, hpasses, made, u, one, ⟨hquiet, hends⟩ | ⟨_, e, hfail⟩⟩
    · exact absurd (congrArg Prod.fst (hpause.symm.trans (returns_iff_result.mp hreturns))) nofun
    · obtain ⟨hreport, rfl⟩ := hends.unique hreturns
      obtain rfl := Option.some.inj hreport
      have hmade : ((last.advance made).report s u).iterations = last.iterations + 1 := rfl
      refine ⟨by omega, fun larger hlarger untimed' clock' passes' hpasses' => ?_⟩
      exact (onward.mono untimed untimed' hlarger clock').ends one hquiet (by omega)
    · exact absurd (congrArg Prod.fst (hfail.symm.trans (returns_iff_result.mp hreturns))) nofun
  · -- Only the last pass can be the one that uses up the budget.
    have hbelow : 0 < count → count < most := fun hpos => by
      have := onward.iterations_lt untimed hpos hmost
      omega
    rcases hend with ⟨hall, hpause, hpasses⟩ | ⟨_, hpasses, made, u, one, hends⟩
    · exact ⟨by omega, by omega⟩
    · refine ⟨by omega, fun _ hnone => ?_⟩
      rcases hends with ⟨_, hends⟩ | ⟨_, e, hfail⟩
      · exact absurd (hends.1.symm.trans hnone) nofun
      · exact absurd ((congrArg Prod.fst hfail).symm.trans hnone) nofun
  · rcases hend with ⟨_, hpause, _⟩ | ⟨_, hpasses, made, u, one, ⟨_, hends⟩ | ⟨changed, e, hfail⟩⟩
    · exact absurd ((congrArg Prod.fst hpause).symm.trans herror) nofun
    · exact absurd (hends.1.symm.trans herror) nofun
    · have hafter : (saturate rules budget clock passes s).after = u := congrArg Prod.snd hfail
      rw [hafter, hpasses]
      exact resumable_of_cut valid compiled untimed onward one changed

open PartialHorn.Action in
/-- One pass is not enough. The run that ends after the second one is that of the unbounded budget,
and the run that is cut short after the first one can be resumed. -/
theorem budgets_only_cut_image :
    (saturate [imageRule] { maxPasses := some 1 } (fun _ => 0) 5 imageStart).answer =
        .error (.didNotConverge 1) ∧
      (saturate [imageRule] { maxPasses := some 1 } (fun _ => 0) 5 imageStart).passCount = 1 ∧
      Resumable [imageRule] imageStart
        (saturate [imageRule] { maxPasses := some 1 } (fun _ => 0) 5 imageStart).after 1 ∧
      (saturate [imageRule] {} (fun _ => 0) 5 imageStart).answer = .ok (some ⟨2, 1, 1, 1, 0⟩) ∧
      (saturate [imageRule] .unbounded (fun _ => 7) 2 imageStart).answer =
        .ok (some ⟨2, 1, 1, 1, 0⟩) := by
  have compiled : ∀ rule ∈ [imageRule],
      ∃ index seq, Rule.ofSequent imageSignature index seq = .ok rule := by
    intro rule hrule
    exact ⟨0, imageSequent, (List.mem_singleton.mp hrule) ▸ rfl⟩
  have reachable : imageStart.Reachable imageSignature := ⟨[.add 0, .add 0, .assert 0 [0]], rfl⟩
  have cut : (saturate [imageRule] { maxPasses := some 1 } (fun _ => 0) 5 imageStart).answer =
      .error (.didNotConverge 1) := rfl
  have ended : (saturate [imageRule] {} (fun _ => 0) 5 imageStart).answer =
      .ok (some ⟨2, 1, 1, 1, 0⟩) := rfl
  have untimed : ({} : Budget).timeLimit = none := rfl
  have untimed' : ({ maxPasses := some 1 } : Budget).timeLimit = none := rfl
  obtain ⟨hends, _, _⟩ := budgets_only_cut compiled reachable untimed (fun _ => 0) 5
  obtain ⟨_, _, hcut⟩ := budgets_only_cut compiled reachable untimed' (fun _ => 0) 5
  obtain ⟨_, hlarger⟩ := hends _ _ ⟨ended, rfl⟩
  have hunbounded := hlarger .unbounded (Budget.within_unbounded _) rfl (fun _ => 7) 2 (Nat.le_refl 2)
  exact ⟨cut, rfl, hcut _ cut, ended, hunbounded.1⟩

end PartialHorn
