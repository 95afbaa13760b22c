import PartialHorn.Machine

namespace PartialHorn

/-- A step on a partition that is kept in some way. What it has done to the partition stays also
where it fails. -/
abbrev Lookup (E α : Type) : Type :=
  ExceptT ContractError (StateM E) α

namespace Lookup

variable {E α β : Type}

def outcome (step : Lookup E α) (t : E) : Except ContractError α × E :=
  step.run.run t

/-- Answers a question about what is kept, which stays as it is. -/
def ask (question : E → Except ContractError α) : Lookup E α :=
  fun t => (question t, t)

theorem outcome_bind (step : Lookup E α) (next : α → Lookup E β) (t : E) :
    (step >>= next).outcome t =
      match step.outcome t with
      | (.ok a, t') => (next a).outcome t'
      | (.error error, t') => (.error error, t') := by
  unfold outcome
  rw [ExceptT.run_bind, StateT.run_bind]
  show (match StateT.run step.run t with | (answer, t') => _) = _
  rcases StateT.run step.run t with ⟨answer | answer, t'⟩
  · rfl
  · rfl

/-- A step gives an answer and leaves what stands for a partition. -/
def Agrees (R : E → Equality → Prop) (t : E) (step : Lookup E α) (answer : Except ContractError α)
    (eq : Equality) : Prop :=
  ∃ t', step.outcome t = (answer, t') ∧ R t' eq

section Agrees

variable {R : E → Equality → Prop} {t : E} {eq eq' : Equality}

theorem agrees_pure (h : R t eq) (a : α) : Agrees R t (pure a) (.ok a) eq :=
  ⟨t, rfl, h⟩

theorem agrees_get {next : E → Lookup E α} {answer : Except ContractError α}
    (h : Agrees R t (next t) answer eq) : Agrees R t (get >>= next) answer eq :=
  h

theorem Agrees.bind {step : Lookup E α} {a : α} (h : Agrees R t step (.ok a) eq)
    {next : α → Lookup E β} {answer : Except ContractError β}
    (hnext : ∀ t', R t' eq → Agrees R t' (next a) answer eq') :
    Agrees R t (step >>= next) answer eq' := by
  obtain ⟨t', hout, hkept⟩ := h
  obtain ⟨t'', hout', hkept'⟩ := hnext t' hkept
  refine ⟨t'', ?_, hkept'⟩
  rw [outcome_bind, hout]
  exact hout'

theorem Agrees.refuse {step : Lookup E α} {error : ContractError}
    (h : Agrees R t step (.error error) eq) (next : α → Lookup E β) :
    Agrees R t (step >>= next) (.error error) eq := by
  obtain ⟨t', hout, hkept⟩ := h
  refine ⟨t', ?_, hkept⟩
  rw [outcome_bind, hout]

/-- Steps of which each agrees with its counterpart agree one after the other. -/
theorem Agrees.andThen {step : Lookup E α} {found : Except ContractError α}
    (h : Agrees R t step found eq) {next : α → Lookup E β} {answer : α → Except ContractError β}
    (hnext : ∀ a t', R t' eq → Agrees R t' (next a) (answer a) eq) :
    Agrees R t (step >>= next) (found >>= answer) eq := by
  cases found with
  | ok a => exact h.bind (hnext a)
  | error error => exact h.refuse next

theorem Agrees.map {step : Lookup E α} {answer : Except ContractError α}
    (h : Agrees R t step answer eq) (f : α → β) : Agrees R t (f <$> step) (answer.map f) eq := by
  rw [← bind_pure_comp]
  cases answer with
  | ok a => exact h.bind fun t' hkept => agrees_pure hkept (f a)
  | error error => exact h.refuse _

theorem agrees_mapM {step : α → Lookup E β} {answer : α → Except ContractError β}
    (h : ∀ a t, R t eq → Agrees R t (step a) (answer a) eq) (xs : List α) (kept : R t eq) :
    Agrees R t (xs.mapM step) (xs.mapM answer) eq := by
  induction xs generalizing t with
  | nil => exact agrees_pure kept []
  | cons x xs ih =>
    rw [List.mapM_cons, List.mapM_cons]
    apply (h x t kept).andThen
    intro y t' kept'
    apply (ih kept').andThen
    intro ys t'' kept''
    exact agrees_pure kept'' (y :: ys)

section Tables

variable {find : Nat → Lookup E Nat} (finds : ∀ x t, R t eq → Agrees R t (find x) (eq.find x) eq)

include finds

theorem canonicalRow_agrees (row : Row) (kept : R t eq) :
    Agrees R t (OperationTable.canonicalRow find row) (OperationTable.canonicalRow eq.find row) eq := by
  apply (agrees_mapM finds row.args kept).andThen
  intro args t' kept'
  apply (finds row.result t' kept').andThen
  intro result t'' kept''
  exact agrees_pure kept'' (Row.mk args result)

theorem refresh_agrees (table : OperationTable) (op : Nat) (kept : R t eq) :
    Agrees R t (table.refresh find op) (table.refresh eq.find op) eq := by
  have hstale : Agrees R t (OperationTable.staleRows find table.rows)
      (OperationTable.staleRows eq.find table.rows) eq := by
    apply (agrees_mapM (fun row t => canonicalRow_agrees finds row) table.rows kept).andThen
    intro canonical t' kept'
    exact agrees_pure kept' _
  apply hstale.andThen
  intro stale t' kept'
  exact agrees_pure kept' _

/-- However elements are looked up, the tables of the operations become canonical in one way. -/
theorem refreshFrom_agrees (tables : List OperationTable) (op : Nat) (kept : R t eq) :
    Agrees R t (OperationTable.refreshFrom find op tables)
      (OperationTable.refreshFrom eq.find op tables) eq := by
  induction tables generalizing op t with
  | nil => exact agrees_pure kept _
  | cons table tables ih =>
    apply (refresh_agrees finds table op kept).andThen
    intro one t' kept'
    apply (ih (op + 1) kept').andThen
    intro rest t'' kept''
    exact agrees_pure kept'' _

theorem refreshPredicate_agrees (table : PredicateTable) (kept : R t eq) :
    Agrees R t (table.refresh find) (table.refresh eq.find) eq := by
  have hstale : Agrees R t (PredicateTable.staleTuples find table.rows)
      (PredicateTable.staleTuples eq.find table.rows) eq := by
    apply (agrees_mapM (fun tuple t => agrees_mapM finds tuple) table.rows kept).andThen
    intro canonical t' kept'
    exact agrees_pure kept' _
  apply hstale.andThen
  intro stale t' kept'
  exact agrees_pure kept' _

theorem representativesBy_agrees (xs : List Nat) (kept : R t eq) :
    Agrees R t (Structure.representativesBy find xs) (Structure.representativesBy eq.find xs) eq := by
  induction xs generalizing t with
  | nil => exact agrees_pure kept []
  | cons x xs ih =>
    apply (finds x t kept).andThen
    intro r t' kept'
    apply (ih kept').andThen
    intro rest t'' kept''
    exact agrees_pure kept'' _

end Tables

end Agrees

end Lookup

end PartialHorn
