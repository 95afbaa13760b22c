import PartialHorn.Proofs.Mirroring
import PartialHorn.Proofs.Recollection

namespace PartialHorn

open Structure

namespace Hand

section Runs

variable {E : Type} [PartitionStore E] {R : E → Equality → Prop} (models : PartitionStore.Models R)
  (dealer : Dealer) {s : Structure} {t : Structure E}

include models

theorem turn_tracks (valid : s.Valid) (double : t.Doubles R s) {rule : Rule}
    {last last' : Option Readings} (seen : Option.Rel (Recorded R rule s t) last last') :
    Tracks R (Action.turn rule last' : Action (Hand E dealer) ContractError Turn)
      (Action.turn rule last) s t fun turn turn' u v => Turned R rule u v turn turn' := by
  apply (rebuild_tracks models valid double).andThen Action.rebuild_keeps valid
  rintro _ _ u v leads ⟨_, clean⟩
  apply tracks_current
  have recorded : Recorded R rule u v (rule.readings u) (rule.readings v) :=
    ⟨u, v, clean, leads.double, .refl leads.valid leads.double, rfl, rfl⟩
  have hskip := seen_skips models (seen_later seen leads)
  by_cases skip : last = some (rule.readings u)
  · simp only [if_pos skip, if_pos (hskip.mpr skip)]
    exact tracks_give leads.double ⟨rfl, rfl, recorded⟩
  · simp only [if_neg skip, if_neg fun h => skip (hskip.mp h)]
    apply (solve_mirrors models dealer rule).first leads.valid leads.double
    intro found u₁ v₁ leads₁
    apply (mirrors_report _).first leads₁.valid leads₁.double
    intro _ u₂ v₂ leads₂
    apply (mirrors_each (fire_mirrors models dealer rule) found).first leads₂.valid leads₂.double
    intro _ u₃ v₃ leads₃
    exact tracks_give leads₃.double ⟨rfl, rfl, recorded.later (leads₁.trans (leads₂.trans leads₃))⟩

theorem turns_tracks (valid : s.Valid) (double : t.Doubles R s) {rules : List Rule}
    {seen seen' : List (Option Readings)}
    (h : Beside (fun rule => Option.Rel (Recorded R rule s t)) rules seen seen') :
    Tracks R (Action.turns rules seen' : Action (Hand E dealer) ContractError (List Turn))
      (Action.turns rules seen) s t
      fun turns turns' u v => Beside (fun rule => Turned R rule u v) rules turns turns' := by
  induction rules generalizing seen seen' s t with
  | nil =>
    cases h
    exact tracks_give double (.nil [])
  | cons rule rules ih =>
    cases h with
    | nil => exact tracks_give double (.nil (rule :: rules))
    | cons first rest =>
      apply (turn_tracks models dealer valid double first).andThen (Action.turn_keeps rule _) valid
      intro turn turn' u v leads turned
      have rest' := rest.imp fun rule last last' seen => seen_later seen leads
      apply (ih leads.valid leads.double rest').andThen (Action.turns_keeps rules _) leads.valid
      intro turns turns' u' v' leads' others
      exact tracks_give leads'.double (.cons (turned.later leads') others)

theorem pass_tracks (valid : s.Valid) (double : t.Doubles R s) {rules : List Rule}
    {seen seen' : List (Option Readings)}
    (h : Beside (fun rule => Option.Rel (Recorded R rule s t)) rules seen seen') :
    Tracks R (Action.pass rules seen' : Action (Hand E dealer) ContractError Pass)
      (Action.pass rules seen) s t fun pass pass' u v => PassKept R rules u v pass pass' := by
  apply tracks_current
  apply (rebuild_tracks models valid double).andThen Action.rebuild_keeps valid
  intro _ _ u v leads _
  have h' := h.imp fun rule last last' seen => seen_later seen leads
  apply (turns_tracks models dealer leads.valid leads.double h').andThen
    (Action.turns_keeps rules seen) leads.valid
  intro turns turns' u v leads made
  apply (rebuild_tracks models leads.valid leads.double).andThen Action.rebuild_keeps leads.valid
  intro _ _ u v leads _
  apply tracks_current
  refine tracks_give leads.double ⟨?_, made.imp fun rule a b turned => turned.later leads⟩
  simp only [double.footprint models, leads.double.footprint models]

theorem chaseOnce_mirrors (rules : List Rule) :
    Mirrors R (Action.chaseOnce rules : Action (Hand E dealer) ClosureError Bool)
      (Action.chaseOnce rules) := by
  refine ⟨Action.keeps_lasting.chaseOnce rules, fun s t valid double => ?_⟩
  have h := pass_tracks models dealer valid double (Kept.initial R rules s t).seen
  apply (h.mapError ClosureError.structure).andThen (Action.pass_keeps rules _) valid
  intro pass pass' u v leads made
  exact tracks_give leads.double made.changed

theorem saturateFrom_tracks (valid : s.Valid) (double : t.Doubles R s) (rules : List Rule)
    (budget : Budget) (clock : Clock) (passes : Nat) {progress progress' : Progress}
    (kept : Kept R rules s t progress progress') :
    Tracks R (Action.saturateFrom rules budget clock passes progress' :
        Action (Hand E dealer) ClosureError (Option Progress))
      (Action.saturateFrom rules budget clock passes progress) s t
      fun a a' u v => Option.Rel (Kept R rules u v) a a' := by
  induction passes generalizing s t progress progress' with
  | zero => exact tracks_give double .none
  | succ passes ih =>
    have h := pass_tracks models dealer valid double kept.seen
    apply (h.mapError ClosureError.structure).andThen (Action.pass_keeps rules _) valid
    intro pass pass' u v leads made
    have later := kept.advance made
    have hdouble := leads.double
    apply tracks_current
    simp only [later.iterations, hdouble.size, hdouble.classCount models, hdouble.rowCount,
      made.changed]
    apply (mirrors_report _).first leads.valid hdouble
    intro _ u' v' leads'
    cases pass.changed with
    | false => exact tracks_give leads'.double (.some (later.later leads'))
    | true =>
      simp only [if_true]
      cases budget.exceeded? (progress.advance pass).iterations u.size
          (clock (progress.advance pass).iterations) with
      | none => exact ih leads'.valid leads'.double (later.later leads')
      | some exceeded =>
        apply (mirrors_report exceeded.1).first leads'.valid leads'.double
        intro _ u v leads
        exact tracks_fail exceeded.2 leads.double

/-- A run of the chase reports the same counters, skipped rules included, or fails with the same
error. -/
theorem saturate_mirrors (rules : List Rule) (budget : Budget) (clock : Clock) (passes : Nat) :
    Mirrors R (Action.saturate rules budget clock passes :
        Action (Hand E dealer) ClosureError (Option ChaseReport))
      (Action.saturate rules budget clock passes) := by
  refine ⟨Action.keeps_lasting.saturate rules budget clock passes,
    fun s t valid double => tracks_current ?_⟩
  apply (saturateFrom_tracks models dealer valid double rules budget clock passes
    (Kept.initial R rules s t)).andThen (Action.saturateFrom_keeps rules budget clock passes _) valid
  intro progress progress' u v leads kept
  apply tracks_current
  simp only [leads.double.size, leads.double.merges models, double.size, double.merges models]
  refine tracks_give leads.double ?_
  cases kept with
  | none => rfl
  | some kept =>
    simp only [Option.map_some, kept.iterations, kept.firings, kept.skipped, Partition.merges_eq]

omit models in
theorem asked_mirrors {α : Type} {dealt : Action (Hand E dealer) ContractError α}
    {action : Action Structure ContractError α} (h : Mirrors R dealt action) (wrap : α → Answer) :
    Mirrors R (Action.asked wrap dealt) (Action.asked wrap action) :=
  (h.mapError _).andThen fun _ => mirrors_give _

omit models in
theorem chased_mirrors {α : Type} {dealt : Action (Hand E dealer) ClosureError α}
    {action : Action Structure ClosureError α} (h : Mirrors R dealt action) (wrap : α → Answer) :
    Mirrors R (Action.chased wrap dealt) (Action.chased wrap action) :=
  (h.mapError _).andThen fun _ => mirrors_give _

theorem perform_mirrors (call : Call) :
    Mirrors R (call.perform : Action (Hand E dealer) Failure Answer) call.perform := by
  cases call with
  | add sort => exact asked_mirrors dealer (add_mirrors models dealer sort) _
  | define op args => exact asked_mirrors dealer (define_mirrors models dealer op args) _
  | lookup op args => exact asked_mirrors dealer (lookup_mirrors models dealer op args) _
  | assert pred args => exact asked_mirrors dealer (assert_mirrors models dealer pred args) _
  | holds pred args => exact asked_mirrors dealer (holds_mirrors models dealer pred args) _
  | merge x y => exact asked_mirrors dealer (merge_mirrors models dealer x y) _
  | areEqual x y => exact asked_mirrors dealer (areEqual_mirrors models dealer x y) _
  | find x => exact asked_mirrors dealer (find_mirrors models dealer x) _
  | sortOf x => exact asked_mirrors dealer (sortOf_mirrors dealer x) _
  | rebuild => exact asked_mirrors dealer (rebuild_mirrors models dealer) _
  | classes => exact asked_mirrors dealer (classes_mirrors models dealer) _
  | solve rule => exact asked_mirrors dealer (solve_mirrors models dealer rule) _
  | chaseOnce rules => exact chased_mirrors dealer (chaseOnce_mirrors models dealer rules) _
  | chase rules budget clock passes =>
    exact chased_mirrors dealer (saturate_mirrors models dealer rules budget clock passes) _

end Runs

end Hand

/-- The outcomes of the calls of a session that takes the rows as the tables list them. -/
def Structure.outcomes (s : Structure) : List Call → List (Outcome Structure Failure Answer)
  | [] => []
  | call :: calls => call.perform s :: (call.perform s).after.outcomes calls

/-- The outcome in the structure that is held. -/
def Outcome.held {E ε α : Type} {dealer : Dealer} (o : Outcome (Hand E dealer) ε α) :
    Outcome (Structure E) ε α where
  answer := o.answer
  after := o.after.held
  events := o.events

/-- The outcomes of the calls of a session in the hand of a dealer, each of them on what the one before
has left. -/
def Dealer.session {E : Type} [PartitionStore E] (dealer : Dealer) :
    List Call → Nat → Structure E → List (Outcome (Structure E) Failure Answer)
  | [], _, _ => []
  | call :: calls, n, s =>
    let one := call.perform ({ held := s, iteration := n } : Hand E dealer)
    one.held :: session dealer calls one.after.iteration one.after.held

namespace Outcome

variable {ε α : Type}

/-- Two outcomes that show a host the same: one answer or error, one report, and a double of the
structure that is left. -/
structure Doubles {E : Type} (R : E → Equality → Prop) (o' : Outcome (Structure E) ε α)
    (o : Outcome Structure ε α) : Prop where
  answer : o'.answer = o.answer
  events : o'.events = o.events
  after : o'.after.Doubles R o.after

theorem Concurs.doubles {E : Type} {R : E → Equality → Prop} {dealer : Dealer}
    {o : Outcome Structure ε α} {o' : Outcome (Hand E dealer) ε α}
    (h : o.Concurs R (fun a a' _ _ => a' = a) o') : o'.held.Doubles R o := by
  refine ⟨?_, h.events, h.double⟩
  show o'.answer = o.answer
  rcases h.answer with ⟨e, ha, ha'⟩ | ⟨a, a', ha, ha', he⟩
  · rw [ha, ha']
  · rw [ha, ha', he]

/-- Two outcomes that show a host the same: one answer or error, one report, and twins. -/
structure Twin (o o' : Outcome Structure ε α) : Prop where
  answer : o'.answer = o.answer
  events : o'.events = o.events
  after : o.after.Twin o'.after

variable {o o' o'' : Outcome Structure ε α}

theorem Twin.symm (h : o.Twin o') : o'.Twin o :=
  ⟨h.answer.symm, h.events.symm, h.after.symm⟩

theorem Twin.trans (h : o.Twin o') (h' : o'.Twin o'') : o.Twin o'' :=
  ⟨h'.answer.trans h.answer, h'.events.trans h.events, h.after.trans h'.after⟩

/-- A structure that keeps the partition itself is a double only of its twins. -/
theorem Doubles.twin (h : o'.Doubles (fun t eq => t = eq) o) : o.Twin o' := by
  refine ⟨h.answer, h.events, ?_⟩
  have htwin := h.after.twin
  rwa [← h.after.equality] at htwin

end Outcome

/-- A session on a double has the same outcomes, whatever is dealt from whatever iteration on. -/
theorem session_outcomes {E : Type} [PartitionStore E] {R : E → Equality → Prop}
    (models : PartitionStore.Models R) (dealer : Dealer) {s : Structure} {t : Structure E}
    (valid : s.Valid) (double : t.Doubles R s) (calls : List Call) (n : Nat) :
    List.Forall₂ (fun o o' => o'.Doubles R o) (s.outcomes calls) (dealer.session calls n t) := by
  induction calls generalizing s t n with
  | nil => exact .nil
  | cons call calls ih =>
    have mirrors := Hand.perform_mirrors models dealer call
    have hone := (mirrors.tracks s t valid double n).1
    exact .cons hone.doubles (ih (mirrors.keeps s valid).1 hone.double _)

/-- The order in which the tables of operations list their rows cannot be observed. Take any session
of calls, be they refused or not, with runs of the chase under any rules, and carry it out twice while
the rows come up in two arbitrary orders that change with every iteration over them. Call by call
both sessions give the same answer or error, so the same ids, representatives, rebuild counts, matches
and chase reports, and report the same events. After each call they have the same elements, partition,
predicate logs with their extents and generations, dirty flag, and rows of operations. Both are as if
the rows had come up as the tables list them. -/
theorem listing_order_unobservable (sig : Signature) (calls : List Call) (dealer dealer' : Dealer) :
    List.Forall₂ Outcome.Twin (dealer.session calls 0 (empty sig))
        (dealer'.session calls 0 (empty sig)) ∧
      List.Forall₂ Outcome.Twin ((empty sig).outcomes calls) (dealer.session calls 0 (empty sig)) := by
  have twins : ∀ dealer : Dealer, List.Forall₂ Outcome.Twin ((empty sig).outcomes calls)
      (dealer.session calls 0 (empty sig)) := fun dealer =>
    (session_outcomes PartitionStore.equality_models dealer (empty_valid sig) ⟨rfl, .refl _⟩ calls
      0).imp fun _ _ double => double.twin
  have swapped := forall₂_swap (fun _ _ => Outcome.Twin.symm) (twins dealer)
  exact ⟨forall₂_trans (fun _ _ _ => .trans) swapped (twins dealer'), twins dealer⟩

namespace Dealer

def asListed : Dealer where
  order _ _ rows := rows
  perm _ _ _ := .refl _

def backward : Dealer where
  order _ _ rows := rows.reverse
  perm _ _ rows := rows.reverse_perm

def pointSignature : Signature where
  sorts := ["point"]
  operations := [⟨"next", [0], 0⟩]

/-- Three points, two of them with a value, become one point. -/
def collapseCalls : List Call :=
  [.add 0, .add 0, .add 0, .define 0 [1], .define 0 [2], .merge 0 1, .merge 0 2, .rebuild]

/-- How often each table of operations has changed when a session is over. -/
def generations (dealer : Dealer) (sig : Signature) (calls : List Call) : Option (List Nat) :=
  ((dealer.session calls 0 (empty sig)).getLast?).map fun last =>
    last.after.operations.map OperationTable.generation

-- Twins leave out the counts of changes, which do tell the order: the row that stays in the table
-- after the first round has the final result in one case and is stale once more in the other.
example : asListed.generations pointSignature collapseCalls = some [5] ∧
    backward.generations pointSignature collapseCalls = some [7] := by
  decide

end Dealer

end PartialHorn
