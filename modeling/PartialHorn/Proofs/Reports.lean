import PartialHorn.Proofs.Runs
import PartialHorn.Chase

namespace PartialHorn

/-- Whether an event reports that a pass is over. -/
def Event.endsPass : Event → Bool
  | .passDone _ _ _ _ => true
  | _ => false

/-- The number of passes that were reported on the way to an outcome. -/
def Outcome.passCount {ε α : Type} (o : Outcome Structure ε α) : Nat :=
  o.events.countP Event.endsPass

namespace Action

open Structure

section Quiet

variable {ε φ α β : Type}

/-- An action that never reports the end of a pass. -/
def Quiet (action : Action Structure ε α) : Prop :=
  ∀ s, (action s).passCount = 0

theorem Returns.passCount_andThen {first : Action Structure ε α} {next : α → Action Structure ε β}
    {s t : Structure} {a : α} (h : first.Returns s a t) :
    (Action.andThen first next s).passCount = (first s).passCount + (next a t).passCount := by
  obtain ⟨hanswer, rfl⟩ := h
  rw [andThen_of_ok hanswer]
  exact List.countP_append

/-- What follows quietly adds nothing to the count. -/
theorem passCount_andThen {first : Action Structure ε α} {next : α → Action Structure ε β}
    (h : ∀ a, (next a).Quiet) (s : Structure) : (Action.andThen first next s).passCount = (first s).passCount := by
  cases hanswer : (first s).answer with
  | error e =>
    rw [andThen_of_error hanswer]
    rfl
  | ok a =>
    have hreturns : first.Returns s a (first s).after := ⟨hanswer, rfl⟩
    rw [hreturns.passCount_andThen, h a, Nat.add_zero]

theorem Quiet.andThen {first : Action Structure ε α} {next : α → Action Structure ε β} (h : first.Quiet)
    (h' : ∀ a, (next a).Quiet) : (Action.andThen first next).Quiet :=
  fun s => (passCount_andThen h' s).trans (h s)

theorem Quiet.mapError {action : Action Structure ε α} (h : action.Quiet) (rename : ε → φ) :
    (Action.mapError rename action).Quiet :=
  h

theorem quiet_give (a : α) : (give a : Action Structure ε α).Quiet :=
  fun _ => rfl

theorem quiet_ask (question : Structure → Except ε α) : (ask question).Quiet :=
  fun _ => rfl

theorem quiet_current : (current : Action Structure ε Structure).Quiet :=
  fun _ => rfl

theorem quiet_fail (e : ε) : (fail e : Action Structure ε α).Quiet :=
  fun _ => rfl

theorem quiet_ofExcept (result : Except ε α) : (ofExcept result).Quiet :=
  fun _ => rfl

theorem quiet_update (change : Structure → Structure) : (update change : Action Structure ε Unit).Quiet :=
  fun _ => rfl

theorem quiet_report {event : Event} (h : event.endsPass = false) :
    (report event : Action Structure ε Unit).Quiet := by
  intro s
  show List.countP Event.endsPass [event] = 0
  simp [h]

theorem quiet_ofOption (e : ε) (value : Option α) : (ofOption e value).Quiet := by
  cases value with
  | none => exact quiet_fail e
  | some a => exact quiet_give a

theorem quiet_refuse (error : Option ε) : (refuse error).Quiet := by
  cases error with
  | none => exact quiet_give ()
  | some e => exact quiet_fail e

theorem quiet_each {action : α → Action Structure ε Unit} (h : ∀ x, (action x).Quiet) (xs : List α) :
    (each action xs).Quiet := by
  induction xs with
  | nil => exact quiet_give ()
  | cons x xs ih => exact (h x).andThen fun _ => ih

theorem rebuild_quiet : (rebuild : Action Structure ContractError Nat).Quiet := by
  intro s
  unfold rebuild Outcome.passCount
  split
  next => rfl
  next merges _ _ => by_cases hmerges : 0 < merges <;> simp [hmerges, Event.endsPass]

theorem create_quiet (sort : Nat) : (create sort).Quiet := by
  refine quiet_current.andThen fun s => ?_
  split
  next => exact (quiet_update _).andThen fun _ => quiet_give _
  next => exact quiet_fail _

theorem applied_quiet (op : Nat) (args : List Nat) : (applied op args).Quiet :=
  quiet_current.andThen fun _ => (quiet_ofOption _ _).andThen fun _ => (quiet_refuse _).andThen
    fun _ => rebuild_quiet.andThen fun _ => (quiet_ask _).andThen fun _ => quiet_give _

theorem related_quiet (pred : Nat) (args : List Nat) : (related pred args).Quiet :=
  quiet_current.andThen fun _ => (quiet_ofOption _ _).andThen fun _ => (quiet_refuse _).andThen
    fun _ => rebuild_quiet.andThen fun _ => quiet_ask _

theorem define_quiet (op : Nat) (args : List Nat) : (define op args).Quiet := by
  refine (applied_quiet op args).andThen fun (operation, key) => quiet_current.andThen fun s => ?_
  cases hresult : s.result? op key with
  | some existing => exact quiet_give existing
  | none =>
    exact (create_quiet _).andThen fun _ => (quiet_update _).andThen fun _ => quiet_give _

theorem assert_quiet (pred : Nat) (args : List Nat) : (assert pred args).Quiet :=
  (related_quiet pred args).andThen fun _ => quiet_current.andThen fun _ =>
    (quiet_update _).andThen fun _ => quiet_give _

theorem join_quiet (x y : Nat) : (join x y).Quiet := by
  intro s
  unfold join Outcome.passCount
  split
  next => rfl
  next => rfl

theorem merge_quiet (x y : Nat) : (merge x y).Quiet := by
  refine quiet_current.andThen fun s => (quiet_ofExcept _).andThen fun xSort =>
    (quiet_ofExcept _).andThen fun ySort => ?_
  split
  next =>
    exact (join_quiet x y).andThen fun _ => (quiet_update _).andThen fun _ => quiet_give _
  next => exact quiet_fail _

theorem mergeFor_quiet (rule : Rule) (x y : Nat) : (mergeFor rule x y).Quiet := by
  refine (merge_quiet x y).andThen fun merged => ?_
  cases merged with
  | true => exact quiet_report rfl
  | false => exact quiet_give ()

theorem conclude_quiet (rule : Rule) (b : Binding) (atom : Atom) : (conclude rule b atom).Quiet := by
  cases atom with
  | op op args result =>
    refine (quiet_ofExcept _).andThen fun xs => (define_quiet op xs).andThen fun x => ?_
    split
    next => exact (mergeFor_quiet rule _ _).andThen fun _ => quiet_give _
    next => exact quiet_give _
  | pred pred args =>
    exact (quiet_ofExcept _).andThen fun xs => (assert_quiet pred xs).andThen fun _ => quiet_give _
  | eq lhs rhs =>
    exact (quiet_ofExcept _).andThen fun x => (quiet_ofExcept _).andThen fun y =>
      (mergeFor_quiet rule x y).andThen fun _ => quiet_give _

theorem concludeAll_quiet (rule : Rule) (atoms : List Atom) (b : Binding) :
    (concludeAll rule atoms b).Quiet := by
  induction atoms generalizing b with
  | nil => exact quiet_give ()
  | cons atom atoms ih => exact (conclude_quiet rule b atom).andThen fun larger => ih larger

theorem turn_quiet (rule : Rule) (last : Option Readings) : (turn rule last).Quiet := by
  refine rebuild_quiet.andThen fun _ => quiet_current.andThen fun s => ?_
  dsimp only
  split
  next => exact quiet_give _
  next =>
    have hsolve : (solve rule).Quiet := rebuild_quiet.andThen fun _ => quiet_ask _
    exact hsolve.andThen fun found => (quiet_report rfl).andThen fun _ =>
      (quiet_each (fun b => concludeAll_quiet rule rule.head b) found).andThen fun _ => quiet_give _

theorem turns_quiet (rules : List Rule) (seen : List (Option Readings)) :
    (turns rules seen).Quiet := by
  induction rules generalizing seen with
  | nil => exact quiet_give []
  | cons rule rules ih =>
    cases seen with
    | nil => exact quiet_give []
    | cons last lasts =>
      exact (turn_quiet rule last).andThen fun _ => (ih lasts).andThen fun _ => quiet_give _

/-- What happens within a pass is never reported as the end of one. -/
theorem pass_quiet (rules : List Rule) (seen : List (Option Readings)) : (pass rules seen).Quiet :=
  quiet_current.andThen fun _ => rebuild_quiet.andThen fun _ => (turns_quiet rules seen).andThen
    fun _ => rebuild_quiet.andThen fun _ => quiet_current.andThen fun _ => quiet_give _

end Quiet

end Action

end PartialHorn
