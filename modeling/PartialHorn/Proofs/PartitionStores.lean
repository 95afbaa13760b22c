import PartialHorn.Proofs.Lookups
import PartialHorn.Proofs.Renewal

namespace PartialHorn

/-- A way to keep a partition, with what a structure asks of it. A lookup may rearrange what is kept
as long as no later step can tell. -/
class PartitionStore (E : Type) extends Partition E where
  find : Nat → Lookup E Nat
  areEqual : Nat → Nat → Lookup E Bool
  merge : Nat → Nat → Lookup E Bool
  classes : Lookup E (List (List Nat))
  enqueue : Equation → Lookup E Unit
  dequeue : Lookup E (Option Equation)
  queued : E → Nat

namespace Equality

/-- A merge with the partition that it leaves, which is the old one if there is nothing to merge. -/
def merging (eq : Equality) (x y : Nat) : Except ContractError Bool × Equality :=
  match eq.merge x y with
  | .ok (merged, eq') => (.ok merged, eq')
  | .error error => (.error error, eq)

theorem merging_ok {eq eq' : Equality} {x y : Nat} {merged : Bool}
    (h : eq.merge x y = .ok (merged, eq')) : eq.merging x y = (.ok merged, eq') := by
  rw [merging, h]

theorem merging_known {eq : Equality} {x y a b : Nat} (hx : eq.find x = .ok a)
    (hy : eq.find y = .ok b) :
    eq.merging x y = if a = b then (.ok false, eq) else (.ok true, eq.link a b) := by
  have hmerge : eq.merge x y = .ok (if a = b then (false, eq) else (true, eq.link a b)) :=
    except_bind_eq_ok.mpr ⟨a, hx, except_bind_eq_ok.mpr ⟨b, hy, rfl⟩⟩
  by_cases he : a = b
  · rw [if_pos he] at hmerge ⊢
    exact merging_ok hmerge
  · rw [if_neg he] at hmerge ⊢
    exact merging_ok hmerge

section Merge

variable {eq eq' : Equality} {x y : Nat} {merged : Bool} (h : eq.merge x y = .ok (merged, eq'))

include h

/-- A merge that does not fail finds one representative or links two of them. -/
theorem merge_linked : ∃ a b, eq.find x = .ok a ∧ eq.find y = .ok b ∧
    ((a = b ∧ merged = false ∧ eq' = eq) ∨ (a ≠ b ∧ merged = true ∧ eq' = eq.link a b)) := by
  obtain ⟨a, ha, h⟩ := except_bind_eq_ok.mp h
  obtain ⟨b, hb, h⟩ := except_bind_eq_ok.mp h
  refine ⟨a, b, ha, hb, ?_⟩
  by_cases he : a = b
  · rw [if_pos he] at h
    cases h
    exact Or.inl ⟨he, rfl, rfl⟩
  · rw [if_neg he] at h
    cases h
    exact Or.inr ⟨he, rfl, rfl⟩

theorem merge_keeps_pending : eq'.pending = eq.pending := by
  obtain ⟨a, b, _, _, ⟨_, _, rfl⟩ | ⟨_, _, rfl⟩⟩ := merge_linked h
  · rfl
  · rfl

theorem merge_counted : eq'.merges = eq.merges + merged.toNat := by
  obtain ⟨a, b, _, _, ⟨_, rfl, rfl⟩ | ⟨_, rfl, rfl⟩⟩ := merge_linked h
  · rfl
  · rfl

/-- A merge does not look at the queue. -/
theorem merge_requeued (pending : List Equation) :
    Equality.merge { eq with pending } x y = .ok (merged, { eq' with pending }) := by
  obtain ⟨a, b, ha, hb, ⟨he, rfl, rfl⟩ | ⟨he, rfl, rfl⟩⟩ := merge_linked h
  · refine except_bind_eq_ok.mpr ⟨a, ha, except_bind_eq_ok.mpr ⟨b, hb, ?_⟩⟩
    rw [if_pos he]
    rfl
  · refine except_bind_eq_ok.mpr ⟨a, ha, except_bind_eq_ok.mpr ⟨b, hb, ?_⟩⟩
    rw [if_neg he]
    rfl

end Merge

end Equality

namespace PartitionStore

variable {E : Type} [PartitionStore E]

def enqueueAll : List Equation → Lookup E Unit
  | [] => return ()
  | e :: es => do
    enqueue e
    enqueueAll es

/-- Merges the equations in the queue from the oldest on, up to a number of them. -/
def drain : Nat → Lookup E Nat
  | 0 => return 0
  | n + 1 => do
    match ← dequeue with
    | none => return 0
    | some e =>
      let merged ← merge e.lhs e.rhs
      let more ← drain n
      return merged.toNat + more

/-- Puts equations into the queue and empties it, answering the number of merges. -/
def settle (equations : List Equation) : Lookup E (Nat × E) := do
  enqueueAll equations
  let t ← get
  let merges ← drain (queued t)
  let t ← get
  return (merges, t)

/-- The list of representatives is a store itself, which is not rearranged by lookups. -/
instance instEquality : PartitionStore Equality :=
  { Equality.instPartition with
    find := fun x => Lookup.ask fun eq => eq.find x
    areEqual := fun x y => Lookup.ask fun eq => eq.areEqual x y
    merge := fun x y => fun eq => eq.merging x y
    classes := Lookup.ask fun eq => .ok eq.classes
    enqueue := fun e => fun eq => (.ok (), eq.enqueue e)
    dequeue := fun eq => (.ok eq.dequeue.1, eq.dequeue.2)
    queued := fun eq => eq.pending.length }

/-- A store is lawful if each of its steps answers as a partition does that it stands for. -/
structure Models (R : E → Equality → Prop) : Prop where
  size : ∀ {t eq}, R t eq → Partition.size t = eq.size
  merges : ∀ {t eq}, R t eq → Partition.merges t = eq.merges
  queued : ∀ {t eq}, R t eq → queued t = eq.pending.length
  grow : ∀ {t eq}, R t eq → R (Partition.grow t) eq.grow
  find : ∀ {t eq} x, R t eq → Lookup.Agrees R t (find x) (eq.find x) eq
  areEqual : ∀ {t eq} x y, R t eq → Lookup.Agrees R t (areEqual x y) (eq.areEqual x y) eq
  merge : ∀ {t eq} x y, R t eq →
    Lookup.Agrees R t (merge x y) (eq.merging x y).1 (eq.merging x y).2
  classes : ∀ {t eq}, R t eq → Lookup.Agrees R t classes (.ok eq.classes) eq
  enqueue : ∀ {t eq} e, R t eq → Lookup.Agrees R t (enqueue e) (.ok ()) (eq.enqueue e)
  dequeue : ∀ {t eq}, R t eq → Lookup.Agrees R t dequeue (.ok eq.dequeue.1) eq.dequeue.2

section Models

variable {R : E → Equality → Prop} (models : Models R) {t : E} {eq eq' : Equality}

include models

theorem enqueueAll_agrees (es : List Equation) (kept : R t eq) :
    Lookup.Agrees R t (enqueueAll es) (.ok ()) { eq with pending := eq.pending ++ es } := by
  induction es generalizing t eq with
  | nil =>
    rw [List.append_nil]
    exact Lookup.agrees_pure kept ()
  | cons e es ih =>
    apply (models.enqueue e kept).bind
    intro t' kept'
    simpa [Equality.enqueue] using ih kept'

/-- The queue may be emptied one equation after the other, or as a whole. -/
theorem drain_agrees (es : List Equation) {flags : List Bool}
    (kept : R t { eq with pending := es })
    (h : Equality.mergeEach { eq with pending := [] } es = (flags.map .ok, eq')) :
    Lookup.Agrees R t (drain es.length) (.ok (flags.count true)) eq' := by
  induction es generalizing t eq flags with
  | nil =>
    obtain ⟨hflags, rfl⟩ := Prod.mk.inj h
    rw [List.map_eq_nil_iff.mp hflags.symm]
    exact Lookup.agrees_pure kept 0
  | cons e es ih =>
    apply (models.dequeue kept).bind
    intro t' (kept' : R t' { eq with pending := es })
    cases hmerge : Equality.merge { eq with pending := [] } e.lhs e.rhs with
    | error error =>
      simp only [Equality.mergeEach, hmerge] at h
      obtain ⟨hflags, _⟩ := Prod.mk.inj h
      cases flags with
      | nil => simp at hflags
      | cons flag flags => simp at hflags
    | ok one =>
      obtain ⟨merged, eq₁⟩ := one
      simp only [Equality.mergeEach, hmerge] at h
      obtain ⟨hflags, hlast⟩ := Prod.mk.inj h
      cases flags with
      | nil => simp at hflags
      | cons flag flags =>
        obtain ⟨hflag, hrest⟩ := List.cons.inj hflags
        cases hflag
        have hstep := models.merge e.lhs e.rhs kept'
        rw [Equality.merging_ok (Equality.merge_requeued hmerge es)] at hstep
        have hdrained : ({ eq₁ with pending := [] } : Equality) = eq₁ := by
          have hpending := Equality.merge_keeps_pending hmerge
          cases eq₁
          simp_all
        apply hstep.bind
        intro t'' kept''
        apply (ih kept'' (Prod.ext (hdrained.symm ▸ hrest) (hdrained.symm ▸ hlast))).bind
        intro last hlast
        have hcount : (merged :: flags).count true = merged.toNat + flags.count true := by
          cases merged with
          | false => simp
          | true => simp [Nat.add_comm]
        rw [hcount]
        exact Lookup.agrees_pure hlast _

/-- Equations that a partition settles are settled by a store with as many merges. -/
theorem settle_agrees {es : List Equation} {n : Nat} (kept : R t eq)
    (h : eq.settle es = .ok (n, eq')) :
    ∃ t', (settle es).outcome t = (.ok (n, t'), t') ∧ R t' eq' := by
  obtain ⟨flags, hflags, h⟩ := except_bind_eq_ok.mp h
  obtain ⟨rfl, hsettled⟩ := Prod.mk.inj (Except.ok.inj h)
  have hanswers : (Equality.mergeEach { eq with pending := [] } (eq.pending ++ es)).1 =
      flags.map .ok := by
    have hmap := mapM_eq_ok_iff.mp hflags
    exact (List.forall₂_eq_eq_eq ▸ List.forall₂_map_right_iff.mpr hmap)
  have hmerge : Equality.mergeEach { eq with pending := [] } (eq.pending ++ es) =
      (flags.map .ok, eq') := Prod.ext hanswers hsettled
  obtain ⟨t₁, hqueue, kept₁⟩ := enqueueAll_agrees models es kept
  obtain ⟨t₂, hdrain, kept₂⟩ := drain_agrees models (eq.pending ++ es) kept₁ hmerge
  have hlength := models.queued kept₁
  refine ⟨t₂, ?_, kept₂⟩
  rw [← hlength] at hdrain
  rw [settle, Lookup.outcome_bind, hqueue]
  show ((drain (queued t₁) >>= _ : Lookup E (Nat × E))).outcome t₁ = _
  rw [Lookup.outcome_bind, hdrain]
  rfl

end Models

theorem equality_models : Models fun (t : Equality) eq => t = eq where
  size h := h ▸ rfl
  merges h := h ▸ rfl
  queued h := h ▸ rfl
  grow h := h ▸ rfl
  find _ h := h ▸ ⟨_, rfl, rfl⟩
  areEqual _ _ h := h ▸ ⟨_, rfl, rfl⟩
  merge _ _ h := h ▸ ⟨_, rfl, rfl⟩
  classes h := h ▸ ⟨_, rfl, rfl⟩
  enqueue _ h := h ▸ ⟨_, rfl, rfl⟩
  dequeue h := h ▸ ⟨_, rfl, rfl⟩

end PartitionStore

namespace Structure

/-- The structure with its partition kept in another way. -/
def withEquality {E F : Type} (s : Structure E) (equality : F) : Structure F where
  signature := s.signature
  sorts := s.sorts
  carriers := s.carriers
  equality := equality
  operations := s.operations
  predicates := s.predicates
  dirty := s.dirty

/-- A structure stores another one if what it keeps stands for the partition of that one, and all else
is the same. -/
structure Stores {E : Type} (R : E → Equality → Prop) (t : Structure E) (s : Structure) : Prop where
  equality : R t.equality s.equality
  rest : t = s.withEquality t.equality

section Stores

variable {E : Type} {R : E → Equality → Prop} {t : Structure E} {s s' : Structure}

theorem Stores.operations (h : t.Stores R s) : t.operations = s.operations := by
  rw [h.rest]
  rfl

theorem Stores.predicates (h : t.Stores R s) : t.predicates = s.predicates := by
  rw [h.rest]
  rfl

theorem Stores.dirty (h : t.Stores R s) : t.dirty = s.dirty := by
  rw [h.rest]
  rfl

variable [PartitionStore E] (models : PartitionStore.Models R)

include models

/-- A round makes as many merges on a store as it does on the structure that is stored. -/
theorem Stores.round {merges : Nat} (h : t.Stores R s) (hround : s.round = .ok (merges, s')) :
    ∃ t', (t.roundBy PartitionStore.find PartitionStore.settle).outcome t.equality =
      (.ok (merges, t'), t'.equality) ∧ t'.Stores R s' := by
  obtain ⟨⟨operations, equations⟩, hoperations, hround⟩ := except_bind_eq_ok.mp hround
  obtain ⟨predicates, hpredicates, hround⟩ := except_bind_eq_ok.mp hround
  obtain ⟨⟨n, equality⟩, hsettle, hround⟩ := except_bind_eq_ok.mp hround
  cases hround
  have finds := fun x e (kept : R e s.equality) => models.find x kept
  obtain ⟨e₁, h₁, kept₁⟩ := Lookup.refreshFrom_agrees finds s.operations 0 h.equality
  obtain ⟨e₂, h₂, kept₂⟩ := Lookup.agrees_mapM
    (fun table _ => Lookup.refreshPredicate_agrees finds table) s.predicates kept₁
  obtain ⟨e₃, h₃, kept₃⟩ := PartitionStore.settle_agrees models kept₂ hsettle
  rw [hoperations] at h₁
  rw [hpredicates] at h₂
  refine ⟨{ t with equality := e₃, operations, predicates, dirty := decide (0 < merges) }, ?_,
    kept₃, ?_⟩
  · rw [roundBy, Lookup.outcome_bind, h.operations, h₁]
    show (Lookup.outcome (_ >>= _) e₁) = _
    rw [Lookup.outcome_bind, h.predicates, h₂]
    show (Lookup.outcome (_ >>= _) e₂) = _
    rw [Lookup.outcome_bind, h₃]
    rfl
  · rw [h.rest]
    rfl

theorem Stores.scan (h : t.Stores R s) (rule : Rule) :
    Lookup.Agrees R t.equality (t.scanBy PartitionStore.find rule) (s.scan rule) s.equality := by
  rw [h.rest]
  apply Lookup.agrees_mapM _ rule.sortsScanned h.equality
  intro sort e kept
  have finds := fun x e (kept : R e s.equality) => models.find x kept
  apply (Lookup.representativesBy_agrees finds (s.carrier sort) kept).andThen
  intro representatives e' kept'
  exact Lookup.agrees_pure kept' _

end Stores

end Structure

end PartialHorn
