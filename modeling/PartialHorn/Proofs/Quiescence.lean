import PartialHorn.Proofs.Budgets

namespace PartialHorn

theorem total_map {α β : Type} (measure : β → Nat) (f : α → β) (xs : List α) :
    total measure (xs.map f) = total (fun x => measure (f x)) xs := by
  induction xs with
  | nil => rfl
  | cons x xs ih => rw [List.map_cons, total_cons, total_cons, ih]

namespace Structure

/-- The number of all matches of some rules. -/
def matchCount (s : Structure) (rules : List Rule) : Nat :=
  total (fun rule => (s.solutions rule).length) rules

/-- A pass in which every rule fires for all its matches and nothing changes. -/
def fullPass (s : Structure) (rules : List Rule) : Pass where
  changed := false
  turns := rules.map s.fullTurn

theorem fullPass_firings (s : Structure) (rules : List Rule) :
    (s.fullPass rules).firings = s.matchCount rules :=
  total_map Turn.firings s.fullTurn rules

theorem fullPass_skipped (s : Structure) (rules : List Rule) : (s.fullPass rules).skipped = 0 := by
  refine List.countP_eq_zero.mpr fun turn hturn => ?_
  obtain ⟨rule, _, rfl⟩ := List.mem_map.mp hturn
  exact Bool.false_ne_true

end Structure

namespace Action

open Structure

/-- A run whose first pass changes nothing ends with that pass, whatever its budget: the bounds are
looked at only after a pass that has changed something. -/
theorem saturate_settled {s : Structure} (valid : s.Valid) (clean : s.dirty = false)
    {rules : List Rule} (compiled : ∀ rule ∈ rules, rule.Compiled s.signature)
    (saturated : s.Saturated rules) (budget : Budget) (clock : Clock) (passes : Nat) :
    (saturate rules budget clock (passes + 1)).Returns s (some
      { iterations := 1
        firings := s.matchCount rules
        skipped := 0
        elementsCreated := 0
        merges := 0 }) s := by
  have one : (pass rules (Progress.initial rules).seen).Returns s (s.fullPass rules) s :=
    pass_settled valid clean compiled saturated
  have start : Onward rules budget clock (Progress.initial rules) s 0 (Progress.initial rules) s :=
    .start _ s
  have ends := start.ends one rfl (Nat.succ_pos passes)
  have hfirings : ((Progress.initial rules).advance (s.fullPass rules)).firings =
      s.matchCount rules := (Nat.zero_add _).trans (fullPass_firings s rules)
  have hskipped : ((Progress.initial rules).advance (s.fullPass rules)).skipped = 0 :=
    (Nat.zero_add _).trans (fullPass_skipped s rules)
  rw [Progress.report, hfirings, hskipped, Nat.sub_self, Nat.sub_self] at ends
  exact ends

end Action

open PartialHorn.Action PartialHorn.Structure in
/-- A structure without pending merges in which the axioms hold is left as it is, down to the
generations of its tables. One pass fires every match to no effect, and no budget can keep the run
from ending with it. -/
theorem models_left_untouched {sig : Signature} {seqs : List Sequent} {rules : List Rule}
    (hrules : Rule.ofSequents sig seqs = .ok rules) {s : Structure} (reachable : s.Reachable sig)
    (clean : s.dirty = false) (holds : ∀ seq ∈ seqs, s.Satisfies seq) :
    (∀ budget clock passes, (saturate rules budget clock (passes + 1)).Returns s (some
      { iterations := 1
        firings := s.matchCount rules
        skipped := 0
        elementsCreated := 0
        merges := 0 }) s) ∧
    (chaseOnce rules).Returns s false s := by
  have valid := reachable.valid
  have hsig := reachable.signature_eq
  have compiled : ∀ rule ∈ rules, rule.Compiled s.signature :=
    hsig ▸ Rule.ofSequents_compiled hrules
  have saturated : s.Saturated rules :=
    saturated_of_satisfies valid clean (hsig ▸ Rule.ofSequents_compiles hrules) holds
  exact ⟨saturate_settled valid clean compiled saturated,
    (stable_iff_saturated valid clean compiled).mpr saturated⟩

/-- Two elements and the image of the first one, which the chase has created. -/
def imageModel : Structure :=
  imageStart.afterCalls [.chase [imageRule] {} (fun _ => 0) 5]

open PartialHorn.Action PartialHorn.Structure in
/-- Every bound of the budget is exceeded from the start, and the rule fires for its match again. -/
theorem models_left_untouched_image :
    imageModel.size = 3 ∧
      (saturate [imageRule] ⟨some 0, some 0, some 0⟩ (fun _ => 1) 1).Returns imageModel
        (some ⟨1, 1, 0, 0, 0⟩) imageModel ∧
      (chaseOnce [imageRule]).Returns imageModel false imageModel := by
  have compiled : Rule.ofSequents imageSignature [imageSequent] = .ok [imageRule] := rfl
  have start : imageStart.Reachable imageSignature := ⟨_, rfl⟩
  have run : (saturate [imageRule] {} (fun _ => 0) 5).Returns imageStart
      (some ⟨2, 1, 1, 1, 0⟩) imageModel := ⟨rfl, rfl⟩
  have reachable : imageModel.Reachable imageSignature :=
    ⟨[.add 0, .add 0, .assert 0 [0], .chase [imageRule] {} (fun _ => 0) 5], rfl⟩
  obtain ⟨_, clean, _, holds⟩ :=
    saturate_satisfies compiled (fun _ => Iff.rfl) start.valid rfl start.signature_eq run
  obtain ⟨hrun, hstep⟩ := models_left_untouched compiled reachable clean holds
  exact ⟨rfl, hrun ⟨some 0, some 0, some 0⟩ (fun _ => 1) 0, hstep⟩

end PartialHorn
