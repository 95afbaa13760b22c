import PartialHorn.Proofs.ChaseModel

namespace PartialHorn

namespace Structure

/-- A further pass over some rules reports no change and leaves everything as it is. -/
def Stable (s : Structure) (rules : List Rule) : Prop :=
  (Action.chaseOnce rules).Returns s false s

/-- The turn in which a rule fires for all the matches that it has in a clean structure. -/
def fullTurn (s : Structure) (rule : Rule) : Turn where
  readings := rule.readings s
  firings := (s.solutions rule).length
  skipped := false

theorem saturated_of_satisfies {s : Structure} (valid : s.Valid) (clean : s.dirty = false)
    {seqs : List Sequent} {rules : List Rule}
    (compiles : List.Forall₂ (Rule.Compiles s.signature) seqs rules)
    (h : ∀ seq ∈ seqs, s.Satisfies seq) : s.Saturated rules := by
  intro rule hrule b hb
  obtain ⟨seq, hseq, hone⟩ := forall₂_left_of_mem compiles hrule
  obtain ⟨_, assigns, _, hpremises⟩ := (mem_solutions valid rfl hone clean).mp hb
  rw [hone.head]
  exact h seq hseq b.value assigns hpremises

end Structure

namespace Action

open Structure

section Saturated

variable {s : Structure} (valid : s.Valid) (clean : s.dirty = false)

include valid clean

theorem each_fire_settled {rule : Rule} (compiled : rule.Compiled s.signature) {found : List Binding}
    (hfound : ∀ b ∈ found, b ∈ s.solutions rule)
    (saturated : ∀ b ∈ s.solutions rule, s.Concludes rule.head b.value) :
    (each (fire rule) found).Returns s () s := by
  induction found with
  | nil => exact give_returns _ _
  | cons b found ih =>
    have hb := hfound b (by simp)
    obtain ⟨t, hfire, ht⟩ := concludeAll_settled valid (solution_fitting valid clean compiled hb)
      (saturated b hb)
    have hsame : t = s := ht.elim id fun he => he.trans (renewed_clean clean).2
    rw [hsame] at hfire
    exact hfire.andThen (ih fun other ho => hfound other (List.mem_cons_of_mem b ho))

theorem turn_settled {rule : Rule} (compiled : rule.Compiled s.signature)
    (saturated : ∀ b ∈ s.solutions rule, s.Concludes rule.head b.value) :
    (turn rule none).Returns s (s.fullTurn rule) s := by
  have hrenewed := (renewed_clean clean).2
  have heach := each_fire_settled valid clean compiled (fun _ h => h) saturated
  refine (turn_returns_iff valid).mpr (Or.inr ⟨nofun, ?_, ?_⟩)
  · rw [hrenewed]
    rfl
  · rw [hrenewed]
    exact heach

theorem turns_settled {rules : List Rule} (compiled : ∀ rule ∈ rules, rule.Compiled s.signature)
    (saturated : s.Saturated rules) :
    (turns rules (Progress.initial rules).seen).Returns s (rules.map s.fullTurn) s := by
  induction rules with
  | nil => exact give_returns _ _
  | cons rule rules ih =>
    have hfirst := turn_settled valid clean (compiled rule (by simp)) (saturated rule (by simp))
    have hothers := ih (fun other ho => compiled other (List.mem_cons_of_mem rule ho))
      (fun other ho => saturated other (List.mem_cons_of_mem rule ho))
    exact hfirst.andThen (hothers.andThen (give_returns _ _))

/-- A first pass over rules whose matches have their conclusions lets each of them fire and changes
nothing. -/
theorem pass_settled {rules : List Rule} (compiled : ∀ rule ∈ rules, rule.Compiled s.signature)
    (saturated : s.Saturated rules) : (pass rules (Progress.initial rules).seen).Returns s
      { changed := false, turns := rules.map s.fullTurn } s := by
  have hturns := turns_settled valid clean compiled saturated
  have hrenewed := (renewed_clean clean).2
  refine (pass_returns_iff valid).mpr ⟨rules.map s.fullTurn, s, ?_, valid, ?_, hrenewed, ?_⟩
  · rw [hrenewed]
    exact hturns
  · exact hrenewed.symm ▸ .refl valid
  · simp

/-- A pass changes nothing exactly when every match has its conclusions. -/
theorem stable_iff_saturated {rules : List Rule}
    (compiled : ∀ rule ∈ rules, rule.Compiled s.signature) : s.Stable rules ↔ s.Saturated rules := by
  constructor
  · intro h
    obtain ⟨made, t, hpass, h⟩ := returns_andThen.mp h
    obtain ⟨hchanged, rfl⟩ := returns_give.mp h
    have passed := pass_passed valid compiled (remembers_initial t rules) (returns_mapError.mp hpass)
    refine (passed.saturated valid compiled ?_).2
    rw [(renewed_clean clean).2]
  · intro saturated
    have hpass := pass_settled valid clean compiled saturated
    exact (returns_mapError.mpr hpass).andThen (give_returns _ _)

end Saturated

end Action

open PartialHorn.Action PartialHorn.Structure in
/-- A chase that comes to its end leaves no merge pending. What it leaves is stable exactly when the
axioms hold there. That is so if the run starts without pending merges, makes more than one pass, or
drops no row when it brings the pending merges into the tables; otherwise a first pass can add as
many facts as rows were dropped before, and end the run unnoticed. -/
theorem saturate_stable_iff {sig : Signature} {seqs : List Sequent} {rules : List Rule}
    (hrules : Rule.ofSequents sig seqs = .ok rules) {s : Structure} (reachable : s.Reachable sig)
    {budget : Budget} {clock : Clock} {passes : Nat} {report : ChaseReport}
    (h : (saturate rules budget clock passes s).answer = .ok (some report)) :
    (saturate rules budget clock passes s).after.dirty = false ∧
      ((saturate rules budget clock passes s).after.Stable rules ↔
        ∀ seq ∈ seqs, (saturate rules budget clock passes s).after.Satisfies seq) ∧
      (s.dirty = false ∨ 1 < report.iterations ∨ s.renewed.rowCount = s.rowCount →
        (saturate rules budget clock passes s).after.Stable rules) := by
  have hcompiles := Rule.ofSequents_compiles hrules
  have hsig := reachable.signature_eq
  have compiled : ∀ rule ∈ rules, rule.Compiled s.signature := fun rule hrule => by
    obtain ⟨seq, _, compiles⟩ := forall₂_left_of_mem hcompiles hrule
    exact ⟨seq, hsig ▸ compiles⟩
  obtain ⟨valid, clean, grows, hsaturated⟩ := saturate_saturated reachable.valid compiled ⟨h, rfl⟩
  have compiled' : ∀ rule ∈ rules,
      rule.Compiled (saturate rules budget clock passes s).after.signature := fun rule hrule =>
    grows.signature ▸ compiled rule hrule
  have hstable := stable_iff_saturated valid clean compiled'
  refine ⟨clean, hstable.trans ⟨fun saturated seq hseq => ?_, ?_⟩, hstable.mpr ∘ hsaturated⟩
  · obtain ⟨rule, hrule, compiles⟩ := forall₂_right_of_mem hcompiles hseq
    refine saturated.satisfies valid clean hrule ?_
    rw [grows.signature, hsig]
    exact compiles
  · refine saturated_of_satisfies valid clean ?_
    rw [grows.signature, hsig]
    exact hcompiles

/-- A sort with three predicates. -/
def relaySignature : Signature where
  sorts := ["S"]
  predicates := [⟨"P", [0]⟩, ⟨"Q", [0]⟩, ⟨"R", [0]⟩]

/-- Each predicate entails the next one, the later entailment first. -/
def relaySequents : List Sequent :=
  [{ name := "second", vars := [⟨"x", 0⟩], premises := [.pred 1 [0]], conclusions := [.pred 2 [0]] },
    { name := "first", vars := [⟨"x", 0⟩], premises := [.pred 0 [0]], conclusions := [.pred 1 [0]] }]

def relayRules : List Rule :=
  relaySequents.mapIdx fun index seq => .ofPlan index seq (seq.premises.filterMap Atom.join?)

/-- Two elements that will be made equal, with the first predicate holding of both. -/
def relayStart : Structure :=
  (Structure.empty relaySignature).afterCalls
    [.add 0, .add 0, .assert 0 [0], .assert 0 [1], .merge 0 1]

open PartialHorn.Action in
/-- The first rebuild drops one of the two rows, and the pass adds one. It reports no change, but
a further pass reports one. -/
theorem saturate_can_end_unstable :
    ¬∀ (sig : Signature) (seqs : List Sequent) (rules : List Rule) (s : Structure)
      (budget : Budget) (clock : Clock) (passes : Nat) (report : ChaseReport),
      Rule.ofSequents sig seqs = .ok rules → s.Reachable sig →
      (saturate rules budget clock passes s).answer = .ok (some report) →
      (chaseOnce rules (saturate rules budget clock passes s).after).answer = .ok false := by
  intro h
  have compiled : Rule.ofSequents relaySignature relaySequents = .ok relayRules := rfl
  have reachable : relayStart.Reachable relaySignature := ⟨_, rfl⟩
  have answered : (saturate relayRules {} (fun _ => 0) 5 relayStart).answer =
      .ok (some ⟨1, 1, 0, 0, 0⟩) := rfl
  have stable := h _ _ _ _ _ _ _ _ compiled reachable answered
  have unstable : (chaseOnce relayRules
      (saturate relayRules {} (fun _ => 0) 5 relayStart).after).answer = .ok true := rfl
  exact nomatch stable.symm.trans unstable

open PartialHorn.Action in
theorem saturate_stable_iff_image :
    (saturate [imageRule] {} (fun _ => 0) 5 imageStart).answer = .ok (some ⟨2, 1, 1, 1, 0⟩) ∧
      (saturate [imageRule] {} (fun _ => 0) 5 imageStart).after.Stable [imageRule] :=
  have compiled : Rule.ofSequents imageSignature [imageSequent] = .ok [imageRule] := rfl
  have reachable : imageStart.Reachable imageSignature := ⟨_, rfl⟩
  have answered : (saturate [imageRule] {} (fun _ => 0) 5 imageStart).answer =
      .ok (some ⟨2, 1, 1, 1, 0⟩) := rfl
  ⟨answered, (saturate_stable_iff compiled reachable answered).2.2 (Or.inl rfl)⟩

end PartialHorn
