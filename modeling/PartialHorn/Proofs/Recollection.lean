import PartialHorn.Proofs.Tracking

namespace PartialHorn

open Structure

namespace Rule

section

variable {E : Type} [Partition E]

/-- The readings of a rule with the number of rows of each operation in the place of its
generation. -/
def tally (rule : Rule) (s : Structure E) : List Nat :=
  Partition.merges s.equality ::
    (rule.operationsRead.filterMap (s.operations[·]?)).map OperationTable.size ++
    (rule.predicatesRead.filterMap (s.predicates[·]?)).map PredicateTable.generation ++
    (rule.sortsScanned.filterMap s.carrier?).map List.length

theorem generations_eq_iff_sizes {xs ys : List OperationTable}
    (h : List.Forall₂ (fun a b : OperationTable => a.size + b.generation = b.size + a.generation)
      xs ys) : xs.map OperationTable.generation = ys.map OperationTable.generation ↔
        xs.map OperationTable.size = ys.map OperationTable.size := by
  induction h with
  | nil => simp
  | cons hab _ ih =>
    simp only [List.map_cons, List.cons.injEq, ih]
    exact and_congr_left' ⟨fun _ => by omega, fun _ => by omega⟩

/-- Readings of two points of a run agree exactly when the tallies do: without merges between them the
generations have moved by the rows that were gained. -/
theorem readings_eq_iff_tally {s t : Structure E} (tallies : s.Tallies t) (clean : s.dirty = false)
    (rule : Rule) : rule.readings s = rule.readings t ↔ rule.tally s = rule.tally t := by
  by_cases hmerges : Partition.merges t.equality = Partition.merges s.equality
  · have hgains := (tallies.steady clean hmerges).2.1
    have hread := forall₂_filterMap_getElem? hgains rule.operationsRead
    have hlen := hread.length_eq
    simp only [readings, tally, hmerges, List.cons_append, List.cons.injEq, true_and,
      List.append_assoc]
    rw [List.append_eq_append_iff_of_size_eq_left (by simpa using hlen),
      generations_eq_iff_sizes hread,
      ← List.append_eq_append_iff_of_size_eq_left (by simpa using hlen)]
  · simp [readings, tally, Ne.symm hmerges]

end

theorem tally_double {E : Type} [PartitionStore E] {R : E → Equality → Prop}
    (models : PartitionStore.Models R) {s : Structure} {t : Structure E} (double : t.Doubles R s)
    (rule : Rule) : rule.tally t = rule.tally s := by
  have hsizes := forall₂_filterMap_getElem? double.twin.operations rule.operationsRead
  have hops : (rule.operationsRead.filterMap (t.operations[·]?)).map OperationTable.size =
      (rule.operationsRead.filterMap (s.operations[·]?)).map OperationTable.size := by
    apply map_eq_of_forall₂
    exact List.forall₂_map_right_iff.mpr (forall₂_swap (fun _ _ hab => hab.size) hsizes)
  have hcarriers : t.carrier? = s.carrier? := funext double.carrier?
  simp only [tally, double.merges models, double.predicates, hops, hcarriers, Partition.merges_eq]

end Rule

section

variable {E : Type} [PartitionStore E] (R : E → Equality → Prop)

/-- Two runs that stand at `u` and `v` have read a rule before, both at one point and in a clean
structure, with these results. The results may differ in the generations of operations. -/
def Recorded (rule : Rule) (u : Structure) (v : Structure E) (recorded recorded' : Readings) : Prop :=
  ∃ s t, s.dirty = false ∧ t.Doubles R s ∧ Leads R s t u v ∧ recorded = rule.readings s ∧
    recorded' = rule.readings t

/-- What two runs remember of a turn: the same but for the readings. -/
structure Turned (rule : Rule) (u : Structure) (v : Structure E) (turn turn' : Turn) : Prop where
  firings : turn'.firings = turn.firings
  skipped : turn'.skipped = turn.skipped
  recorded : Recorded R rule u v turn.readings turn'.readings

end

section Recorded

variable {E : Type} [PartitionStore E] {R : E → Equality → Prop} {rule : Rule} {u u' : Structure}
  {v v' : Structure E}

theorem Recorded.later {recorded recorded' : Readings} (h : Recorded R rule u v recorded recorded')
    (leads : Leads R u v u' v') : Recorded R rule u' v' recorded recorded' := by
  obtain ⟨s, t, clean, double, before, hs, ht⟩ := h
  exact ⟨s, t, clean, double, before.trans leads, hs, ht⟩

/-- Either run passes a rule over exactly when the other one does. -/
theorem Recorded.skips (models : PartitionStore.Models R) {recorded recorded' : Readings}
    (h : Recorded R rule u v recorded recorded') :
    recorded' = rule.readings v ↔ recorded = rule.readings u := by
  obtain ⟨s, t, clean, double, leads, rfl, rfl⟩ := h
  rw [Rule.readings_eq_iff_tally leads.grows.tallies clean,
    Rule.readings_eq_iff_tally leads.tallies (double.dirty.trans clean),
    Rule.tally_double models double, Rule.tally_double models leads.double]

theorem seen_later {last last' : Option Readings} (h : Option.Rel (Recorded R rule u v) last last')
    (leads : Leads R u v u' v') : Option.Rel (Recorded R rule u' v') last last' := by
  cases h with
  | none => exact .none
  | some recorded => exact .some (recorded.later leads)

theorem seen_skips (models : PartitionStore.Models R) {last last' : Option Readings}
    (h : Option.Rel (Recorded R rule u v) last last') :
    last' = some (rule.readings v) ↔ last = some (rule.readings u) := by
  cases h with
  | none => simp
  | some recorded => simpa using recorded.skips models

theorem Turned.later {turn turn' : Turn} (h : Turned R rule u v turn turn')
    (leads : Leads R u v u' v') : Turned R rule u' v' turn turn' :=
  ⟨h.firings, h.skipped, h.recorded.later leads⟩

end Recorded

/-- Two lists that are related one by one beside a list of rules, which may be longer. -/
inductive Beside {α : Type} (R : Rule → α → α → Prop) : List Rule → List α → List α → Prop
  | nil (rules : List Rule) : Beside R rules [] []
  | cons {rule : Rule} {rules : List Rule} {x y : α} {xs ys : List α} (first : R rule x y)
      (rest : Beside R rules xs ys) : Beside R (rule :: rules) (x :: xs) (y :: ys)

theorem Beside.imp {α : Type} {R S : Rule → α → α → Prop} {rules : List Rule} {xs ys : List α}
    (h : Beside R rules xs ys) (hsub : ∀ rule x y, R rule x y → S rule x y) :
    Beside S rules xs ys := by
  induction h with
  | nil rules => exact .nil rules
  | cons first _ ih => exact .cons (hsub _ _ _ first) ih

section Kept

variable {E : Type} [PartitionStore E] (R : E → Equality → Prop)

/-- What two runs remember at the beginning of a pass. -/
structure Kept (rules : List Rule) (u : Structure) (v : Structure E)
    (progress progress' : Progress) : Prop where
  iterations : progress'.iterations = progress.iterations
  firings : progress'.firings = progress.firings
  skipped : progress'.skipped = progress.skipped
  seen : Beside (fun rule => Option.Rel (Recorded R rule u v)) rules progress.seen progress'.seen

/-- What two runs remember of a pass. -/
structure PassKept (rules : List Rule) (u : Structure) (v : Structure E) (pass pass' : Pass) :
    Prop where
  changed : pass'.changed = pass.changed
  turns : Beside (fun rule => Turned R rule u v) rules pass.turns pass'.turns

variable {R} {rules : List Rule} {u u' : Structure} {v v' : Structure E}

section Turns

variable {turns turns' : List Turn} (h : Beside (fun rule => Turned R rule u v) rules turns turns')

include h

theorem beside_firings : total Turn.firings turns' = total Turn.firings turns := by
  induction h with
  | nil => rfl
  | cons first _ ih => simp only [total_cons, first.firings, ih]

theorem beside_skipped : turns'.countP Turn.skipped = turns.countP Turn.skipped := by
  induction h with
  | nil => rfl
  | cons first _ ih => simp only [List.countP_cons, first.skipped, ih]

theorem beside_seen : Beside (fun rule => Option.Rel (Recorded R rule u v)) rules
    (turns.map fun turn => some turn.readings) (turns'.map fun turn => some turn.readings) := by
  induction h with
  | nil rules => exact .nil rules
  | cons first _ ih => exact .cons (.some first.recorded) ih

end Turns

theorem Kept.initial (R : E → Equality → Prop) (rules : List Rule) (u : Structure)
    (v : Structure E) : Kept R rules u v (Progress.initial rules) (Progress.initial rules) := by
  refine ⟨rfl, rfl, rfl, ?_⟩
  unfold Progress.initial
  induction rules with
  | nil => exact .nil []
  | cons rule rules ih => exact .cons .none ih

theorem Kept.later {progress progress' : Progress} (h : Kept R rules u v progress progress')
    (leads : Leads R u v u' v') : Kept R rules u' v' progress progress' :=
  ⟨h.iterations, h.firings, h.skipped, h.seen.imp fun _ _ _ seen => seen_later seen leads⟩

theorem Kept.advance {progress progress' : Progress} {pass pass' : Pass}
    (h : Kept R rules u v progress progress') (made : PassKept R rules u' v' pass pass') :
    Kept R rules u' v' (progress.advance pass) (progress'.advance pass') where
  iterations := by simp only [Progress.advance, h.iterations]
  firings := by simp only [Progress.advance, Pass.firings, h.firings, beside_firings made.turns]
  skipped := by simp only [Progress.advance, Pass.skipped, h.skipped, beside_skipped made.turns]
  seen := beside_seen made.turns

end Kept

end PartialHorn
