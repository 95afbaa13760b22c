import PartialHorn.Proofs.Conclusion
import PartialHorn.Proofs.Readings

namespace PartialHorn

/-- Some sequent over a signature has become this rule. -/
def Rule.Compiled (sig : Signature) (rule : Rule) : Prop :=
  ∃ seq, Rule.Compiles sig seq rule

theorem Rule.ofSequents_compiled {sig : Signature} {seqs : List Sequent} {rules : List Rule}
    (h : Rule.ofSequents sig seqs = .ok rules) : ∀ rule ∈ rules, rule.Compiled sig := by
  intro rule hrule
  obtain ⟨seq, _, compiles⟩ := forall₂_left_of_mem (Rule.ofSequents_compiles h) hrule
  exact ⟨seq, compiles⟩

namespace Structure

/-- Rules stay compiled while the structure grows. -/
theorem Grows.compiled {s t : Structure} (grows : s.Grows t) {rules : List Rule}
    (compiled : ∀ rule ∈ rules, rule.Compiled s.signature) :
    ∀ rule ∈ rules, rule.Compiled t.signature :=
  grows.signature ▸ compiled

/-- A rule has fired for all matches that it had at some time with the given readings. -/
def Settles (s : Structure) (rule : Rule) (readings : Readings) : Prop :=
  ∃ t : Structure, t.Valid ∧ t.dirty = false ∧ t.Grows s ∧ rule.readings t = readings ∧
    ∀ b ∈ t.solutions rule, s.Concludes rule.head b.value

/-- Every match of every rule has its conclusions. -/
def Saturated (s : Structure) (rules : List Rule) : Prop :=
  ∀ rule ∈ rules, ∀ b ∈ s.solutions rule, s.Concludes rule.head b.value

section Match

variable {s : Structure} (valid : s.Valid) (clean : s.dirty = false) {rule : Rule}
  (compiled : rule.Compiled s.signature) {b : Binding} (h : b ∈ s.solutions rule)

include valid clean compiled h

theorem solution_fitting : Action.Fitting rule.head b := by
  obtain ⟨seq, compiles⟩ := compiled
  obtain ⟨hlen, _⟩ := (mem_solutions valid rfl compiles clean).mp h
  intro atom hatom result hresult
  rw [compiles.head] at hatom
  have hfits := compiles.fits atom (List.mem_append_right _ hatom)
  cases atom with
  | op op args r =>
    cases Option.some.inj hresult
    obtain ⟨_, _, _, hsort⟩ := hfits
    rw [hlen, compiles.varCount]
    exact Sequent.lt_length_of_sort? hsort
  | pred pred args => exact nomatch hresult
  | eq lhs rhs => exact nomatch hresult

end Match

theorem Settles.mono {s u : Structure} {rule : Rule} {readings : Readings}
    (grows : s.Grows u) (h : s.Settles rule readings) : u.Settles rule readings := by
  obtain ⟨t, valid, clean, hts, hread, hconcludes⟩ := h
  refine ⟨t, valid, clean, hts.trans grows, hread, fun b hb => ?_⟩
  exact (hconcludes b hb).mono grows (.refl _ _)

/-- A rule that has fired with the readings it has now is saturated. -/
theorem Settles.saturated {s : Structure} {rule : Rule} (compiled : rule.Compiled s.signature)
    (h : s.Settles rule (rule.readings s)) : ∀ b ∈ s.solutions rule, s.Concludes rule.head b.value := by
  obtain ⟨t, valid, clean, hts, hread, hconcludes⟩ := h
  obtain ⟨seq, compiles⟩ := compiled
  have heq := solutions_eq_of_readings hts valid compiles hread.symm
  rw [heq]
  exact hconcludes

end Structure

namespace Action

open Structure

theorem solve_returns {s : Structure} (valid : s.Valid) (rule : Rule) :
    (solve rule).Returns s (s.renewed.solutions rule) s.renewed := by
  obtain ⟨_, hrebuild⟩ := returns_rebuild valid
  refine hrebuild.andThen (ask_returns ?_)
  rw [(renewed_valid valid).scan_eq]
  rfl

/-- After its rebuild a turn passes the rule over, if its readings are the last ones, or fires it for
all its matches. -/
theorem turn_returns_iff {s t : Structure} (valid : s.Valid) {rule : Rule} {last : Option Readings}
    {taken : Turn} : (turn rule last).Returns s taken t ↔
      (last = some (rule.readings s.renewed) ∧ taken = ⟨rule.readings s.renewed, 0, true⟩ ∧
        s.renewed = t) ∨
      (last ≠ some (rule.readings s.renewed) ∧
        taken = ⟨rule.readings s.renewed, (s.renewed.solutions rule).length, false⟩ ∧
        (each (fire rule) (s.renewed.solutions rule)).Returns s.renewed () t) := by
  obtain ⟨_, hrebuild⟩ := returns_rebuild valid
  have hsolve := solve_returns (renewed_valid valid) rule
  rw [(renewed_clean (renewed_dirty valid)).2] at hsolve
  constructor
  · intro h
    obtain ⟨_, mid, hmid, h⟩ := returns_andThen.mp h
    obtain ⟨_, rfl⟩ := hrebuild.unique hmid
    obtain ⟨_, _, hcurrent, h⟩ := returns_andThen.mp h
    obtain ⟨rfl, rfl⟩ := returns_current.mp hcurrent
    dsimp only at h
    split at h
    next hlast =>
      obtain ⟨rfl, rfl⟩ := returns_give.mp h
      exact Or.inl ⟨hlast, rfl, rfl⟩
    next hlast =>
      obtain ⟨found, _, hfound, h⟩ := returns_andThen.mp h
      obtain ⟨rfl, rfl⟩ := hsolve.unique hfound
      obtain ⟨_, _, hreport, h⟩ := returns_andThen.mp h
      cases returns_report.mp hreport
      obtain ⟨_, _, heach, h⟩ := returns_andThen.mp h
      obtain ⟨rfl, rfl⟩ := returns_give.mp h
      exact Or.inr ⟨hlast, rfl, heach⟩
  · intro h
    refine hrebuild.andThen ((current_returns _).andThen ?_)
    dsimp only
    obtain ⟨hlast, rfl, rfl⟩ | ⟨hlast, rfl, heach⟩ := h
    · rw [if_pos hlast]
      exact give_returns _ _
    · rw [if_neg hlast]
      exact hsolve.andThen ((report_returns _ _).andThen (heach.andThen (give_returns _ _)))

theorem turns_cons_returns_iff {s t : Structure} {rule : Rule} {rules : List Rule}
    {last : Option Readings} {lasts : List (Option Readings)} {taken : List Turn} :
    (turns (rule :: rules) (last :: lasts)).Returns s taken t ↔
      ∃ first others mid, (turn rule last).Returns s first mid ∧
        (turns rules lasts).Returns mid others t ∧ taken = first :: others := by
  constructor
  · intro h
    obtain ⟨first, mid, hfirst, h⟩ := returns_andThen.mp h
    obtain ⟨others, _, hothers, h⟩ := returns_andThen.mp h
    obtain ⟨rfl, rfl⟩ := returns_give.mp h
    exact ⟨first, others, mid, hfirst, hothers, rfl⟩
  · rintro ⟨first, others, mid, hfirst, hothers, rfl⟩
    exact hfirst.andThen (hothers.andThen (give_returns _ _))

theorem pass_returns_iff {s t : Structure} (valid : s.Valid) {rules : List Rule}
    {seen : List (Option Readings)} {made : Pass} : (pass rules seen).Returns s made t ↔
      ∃ taken mid, (turns rules seen).Returns s.renewed taken mid ∧ mid.Valid ∧
        s.renewed.Grows mid ∧ mid.renewed = t ∧
        made = ⟨decide (t.footprint ≠ s.footprint), taken⟩ := by
  obtain ⟨_, hrebuild⟩ := returns_rebuild valid
  constructor
  · intro h
    unfold pass at h
    obtain ⟨_, _, hcurrent, h⟩ := returns_andThen.mp h
    obtain ⟨rfl, rfl⟩ := returns_current.mp hcurrent
    obtain ⟨_, _, hmid, h⟩ := returns_andThen.mp h
    obtain ⟨_, rfl⟩ := hrebuild.unique hmid
    obtain ⟨taken, mid, hturns, h⟩ := returns_andThen.mp h
    have hkept := hturns.kept (turns_keeps rules seen) (renewed_valid valid)
    obtain ⟨_, _, hlast, h⟩ := returns_andThen.mp h
    obtain ⟨_, rfl⟩ := (returns_rebuild hkept.1).choose_spec.unique hlast
    obtain ⟨_, _, hcurrent', h⟩ := returns_andThen.mp h
    obtain ⟨rfl, rfl⟩ := returns_current.mp hcurrent'
    obtain ⟨rfl, rfl⟩ := returns_give.mp h
    exact ⟨taken, mid, hturns, hkept.1, hkept.2, rfl, rfl⟩
  · intro h
    obtain ⟨taken, mid, hturns, valid', _, rfl, rfl⟩ := h
    obtain ⟨_, hlast⟩ := returns_rebuild valid'
    refine (current_returns s).andThen (hrebuild.andThen (hturns.andThen (hlast.andThen ?_)))
    exact (current_returns _).andThen (give_returns _ _)

/-- Conclusions drawn for each match in turn are all true in the end. -/
theorem each_fire_returns {s t : Structure} (valid : s.Valid) {rule : Rule} {found : List Binding}
    (fitting : ∀ b ∈ found, Fitting rule.head b)
    (h : (each (fire rule) found).Returns s () t) :
    ∀ b ∈ found, t.Concludes rule.head b.value := by
  induction found generalizing s with
  | nil => simp
  | cons first found ih =>
    obtain ⟨_, u, hfirst, hrest⟩ := returns_andThen.mp h
    have hkept := hfirst.kept (fire_keeps rule first) valid
    have hlast := hrest.kept (obeys_each Keeps.refl Keeps.trans fun b _ => fire_keeps rule b) hkept.1
    have hconcludes := concludeAll_returns valid (fitting first (by simp)) hfirst
    intro b hb
    rcases List.mem_cons.mp hb with rfl | hb
    · exact hconcludes.mono hlast.2 (.refl _ _)
    · exact ih hkept.1 (fun b hb => fitting b (List.mem_cons_of_mem first hb)) hrest b hb

/-- What a turn of a rule leaves behind, and the structure in which it took its readings. -/
structure Took (s t : Structure) (rule : Rule) (turn : Turn) : Prop where
  settles : t.Settles rule turn.readings
  between : ∃ mid : Structure, mid.Valid ∧ s.Grows mid ∧ mid.Grows t ∧
    turn.readings = rule.readings mid

theorem Took.mono {s s' t t' : Structure} {rule : Rule} {turn : Turn} (h : Took s t rule turn)
    (before : s'.Grows s) (after : t.Grows t') : Took s' t' rule turn := by
  obtain ⟨mid, valid, hsm, hmt, hread⟩ := h.between
  exact ⟨h.settles.mono after, mid, valid, before.trans hsm, hmt.trans after, hread⟩

/-- A rule that is passed over had fired for all its matches, and the others do so now. -/
theorem turn_took {s t : Structure} (valid : s.Valid) {rule : Rule}
    (compiled : rule.Compiled s.signature) {last : Option Readings}
    (settled : ∀ readings, last = some readings → s.Settles rule readings) {taken : Turn}
    (h : (turn rule last).Returns s taken t) : Took s t rule taken := by
  have valid' := renewed_valid valid
  have clean := renewed_dirty valid
  have grows := grows_renewed valid
  have compiled' : rule.Compiled s.renewed.signature := grows.signature ▸ compiled
  obtain ⟨hlast, rfl, rfl⟩ | ⟨_, rfl, heach⟩ := (turn_returns_iff valid).mp h
  · exact ⟨(settled _ hlast).mono grows, _, valid', grows, .refl valid', rfl⟩
  · have hkept := heach.kept (obeys_each Keeps.refl Keeps.trans fun b _ => fire_keeps rule b) valid'
    have hconcludes := each_fire_returns valid'
      (fun b hb => solution_fitting valid' clean compiled' hb) heach
    exact ⟨⟨_, valid', clean, hkept.2, rfl, hconcludes⟩, _, valid', grows, hkept.2, rfl⟩

/-- Each rule has fired for all matches that it had with the readings that are kept for it. -/
def Remembers (s : Structure) (rules : List Rule) (seen : List (Option Readings)) : Prop :=
  List.Forall₂ (fun rule last => ∀ readings, last = some readings → s.Settles rule readings)
    rules seen

theorem Remembers.mono {s t : Structure} {rules : List Rule} {seen : List (Option Readings)}
    (h : Remembers s rules seen) (grows : s.Grows t) : Remembers t rules seen :=
  h.imp fun _ _ hlast readings he => (hlast readings he).mono grows

theorem remembers_initial (s : Structure) (rules : List Rule) :
    Remembers s rules (Progress.initial rules).seen := by
  unfold Progress.initial
  induction rules with
  | nil => exact .nil
  | cons rule rules ih => exact .cons (fun _ he => nomatch he) ih

theorem turns_took {s t : Structure} (valid : s.Valid) {rules : List Rule}
    (compiled : ∀ rule ∈ rules, rule.Compiled s.signature) {seen : List (Option Readings)}
    (remembers : Remembers s rules seen) {taken : List Turn}
    (h : (turns rules seen).Returns s taken t) : List.Forall₂ (Took s t) rules taken := by
  induction rules generalizing s seen taken with
  | nil =>
    cases remembers
    obtain ⟨rfl, _⟩ := returns_give.mp h
    exact .nil
  | cons rule rules ih =>
    obtain ⟨last, lasts, hlast, hrest, rfl⟩ := List.forall₂_cons_left_iff.mp remembers
    obtain ⟨hcompiled, hothers⟩ := List.forall_mem_cons.mp compiled
    obtain ⟨first, others, mid, hfirst, hlasts, rfl⟩ := turns_cons_returns_iff.mp h
    have hkept := hfirst.kept (turn_keeps rule last) valid
    have hlater := hlasts.kept (turns_keeps rules lasts) hkept.1
    have compiled' := hkept.2.compiled hothers
    have htook := turn_took valid hcompiled hlast hfirst
    refine .cons (htook.mono (.refl valid) hlater.2) ?_
    have hmany := ih hkept.1 compiled' (Remembers.mono hrest hkept.2) hlasts
    exact hmany.imp fun _ _ hone => hone.mono hkept.2 (.refl hlater.1)

/-- What a pass does between its two rebuilds. -/
structure Passed (s : Structure) (rules : List Rule) (pass : Pass) (t : Structure) : Prop where
  valid : t.Valid
  clean : t.dirty = false
  grows : s.renewed.Grows t
  took : List.Forall₂ (Took s.renewed t) rules pass.turns
  changed : pass.changed = decide (t.footprint ≠ s.footprint)

theorem pass_passed {s t : Structure} (valid : s.Valid) {rules : List Rule}
    (compiled : ∀ rule ∈ rules, rule.Compiled s.signature) {seen : List (Option Readings)}
    (remembers : Remembers s rules seen) {made : Pass} (h : (pass rules seen).Returns s made t) :
    Passed s rules made t := by
  have grows := grows_renewed valid
  have valid' := renewed_valid valid
  have compiled' := grows.compiled compiled
  obtain ⟨taken, mid, hturns, hmid, hgrown, rfl, rfl⟩ := (pass_returns_iff valid).mp h
  have htook := turns_took valid' compiled' (remembers.mono grows) hturns
  have grows' := grows_renewed hmid
  refine ⟨renewed_valid hmid, renewed_dirty hmid, hgrown.trans grows', ?_, rfl⟩
  exact htook.imp fun _ _ hone => hone.mono (.refl valid') grows'

/-- A pass that leaves the footprint of its first rebuild alone has found every match settled. -/
theorem Passed.saturated {s t : Structure} (valid : s.Valid) {rules : List Rule}
    (compiled : ∀ rule ∈ rules, rule.Compiled s.signature) {made : Pass}
    (h : Passed s rules made t) (he : t.footprint = s.renewed.footprint) :
    t = s.renewed ∧ t.Saturated rules := by
  have valid' := renewed_valid valid
  have clean' := renewed_dirty valid
  have hsame : t = s.renewed := h.grows.eq_of_footprint valid' h.valid clean' he
  refine ⟨hsame, fun rule hrule => ?_⟩
  -- Nothing has changed on the way, so the rule took its readings in the structure at the end.
  obtain ⟨turn, _, took⟩ := forall₂_right_of_mem h.took hrule
  obtain ⟨mid, hmid, hsm, hmt, hread⟩ := took.between
  have hbetween : mid = s.renewed := hsm.eq_of_between hmt valid' hmid clean' he
  have hsettles := took.settles
  rw [hread, hbetween, ← hsame] at hsettles
  have hsig : t.signature = s.signature := (hsame ▸ grows_renewed valid).signature
  exact hsettles.saturated (hsig ▸ compiled rule hrule)

/-- Every rule has fired for all matches that it had with the readings of the pass. -/
theorem Passed.remembers {s t : Structure} {rules : List Rule} {made : Pass}
    (h : Passed s rules made t) (progress : Progress) :
    Remembers t rules (progress.advance made).seen := by
  refine List.forall₂_map_right_iff.mpr (h.took.imp fun rule turn took => ?_)
  intro readings he
  have hread : turn.readings = readings := Option.some.inj he
  exact hread ▸ took.settles

/-- How a run goes on after a pass. -/
theorem saturateFrom_result {s t : Structure} {rules : List Rule} {budget : Budget} {clock : Clock}
    {passes : Nat} {progress : Progress} {made : Pass}
    (h : (pass rules progress.seen).Returns s made t) :
    (saturateFrom rules budget clock (passes + 1) progress).result s =
      if made.changed then
        match budget.exceeded? (progress.advance made).iterations t.size
            (clock (progress.advance made).iterations) with
        | some (_, error) => (.error error, t)
        | none => (saturateFrom rules budget clock passes (progress.advance made)).result t
      else (.ok (some (progress.advance made)), t) := by
  have hpass : (mapError ClosureError.structure (pass rules progress.seen)).Returns s made t :=
    returns_mapError.mpr h
  refine hpass.result_andThen.trans ((current_returns t).result_andThen.trans ?_)
  refine (report_returns _ t).result_andThen.trans ?_
  split
  next =>
    cases budget.exceeded? (progress.advance made).iterations t.size
      (clock (progress.advance made).iterations) <;> rfl
  next => rfl

/-- The last pass of a run that comes to its end: it reports no change, and it starts from a clean
structure unless it is the first one. -/
theorem saturateFrom_last {s t : Structure} (valid : s.Valid) {rules : List Rule}
    (compiled : ∀ rule ∈ rules, rule.Compiled s.signature) {budget : Budget} {clock : Clock}
    {passes : Nat} {progress final : Progress} (remembers : Remembers s rules progress.seen)
    (h : (saturateFrom rules budget clock passes progress).Returns s (some final) t) :
    ∃ mid made, mid.Valid ∧ s.Grows mid ∧ Passed mid rules made t ∧ made.changed = false ∧
      ((mid = s ∧ final.iterations = progress.iterations + 1) ∨
        (mid.dirty = false ∧ progress.iterations + 1 < final.iterations)) := by
  induction passes generalizing s progress with
  | zero => exact nomatch (returns_give.mp h).1
  | succ passes ih =>
    obtain ⟨made, u, hmade, _⟩ := returns_andThen.mp h
    have hpass := returns_mapError.mp hmade
    have passed := pass_passed valid compiled remembers hpass
    have grows := (grows_renewed valid).trans passed.grows
    rw [returns_iff_result, saturateFrom_result hpass] at h
    split at h
    next =>
      split at h
      next => exact nomatch congrArg Prod.fst h
      next =>
        -- The next pass starts with the readings of this one, and every rule has fired for these.
        obtain ⟨mid, last, hmid, hum, hlast, hsame, hcases⟩ := ih passed.valid
          (grows.compiled compiled) (passed.remembers progress) (returns_iff_result.mpr h)
        refine ⟨mid, last, hmid, grows.trans hum, hlast, hsame, Or.inr ?_⟩
        have hadvance : (progress.advance made).iterations = progress.iterations + 1 := rfl
        rw [hadvance] at hcases
        rcases hcases with ⟨rfl, hi⟩ | ⟨hclean, hi⟩
        · exact ⟨passed.clean, by omega⟩
        · exact ⟨hclean, by omega⟩
    next hunchanged =>
      obtain ⟨hfinal, rfl⟩ := Prod.mk.inj h
      obtain rfl := Option.some.inj (Except.ok.inj hfinal)
      exact ⟨s, made, valid, .refl valid, passed, by simpa using hunchanged, Or.inl ⟨rfl, rfl⟩⟩

end Action

end PartialHorn
