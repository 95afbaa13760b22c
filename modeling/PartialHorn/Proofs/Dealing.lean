import PartialHorn.Proofs.Lockstep
import PartialHorn.Proofs.PartitionStores
import PartialHorn.Proofs.Recording
import PartialHorn.Proofs.Sorting

namespace PartialHorn

/-- In which order the rows of each operation come up, anew for each iteration of a session. -/
structure Dealer where
  order : Nat → Nat → List Row → List Row
  perm : ∀ iteration op rows, (order iteration op rows).Perm rows

/-- A structure in the hand of a dealer, who counts the iterations over the rows of operations. The
partition may be kept in any way. -/
structure Hand (E : Type) (dealer : Dealer) where
  held : Structure E
  iteration : Nat := 0

/-- Extends each of some bindings by a search in turn. -/
def gather (search : Binding → Nat → List Binding × Nat) : List Binding → Nat → List Binding × Nat
  | [], n => ([], n)
  | binding :: rest, n =>
    let one := search binding n
    let others := gather search rest one.2
    (one.1 ++ others.1, others.2)

theorem mem_gather {search : Binding → Nat → List Binding × Nat} {P : Binding → Prop} {m : Binding}
    {bindings : List Binding} (h : ∀ b ∈ bindings, ∀ n, m ∈ (search b n).1 ↔ P b) (n : Nat) :
    m ∈ (gather search bindings n).1 ↔ ∃ b ∈ bindings, P b := by
  induction bindings generalizing n with
  | nil => simp [gather]
  | cons b rest ih =>
    have hrest := ih (fun c hc => h c (List.mem_cons_of_mem b hc)) (search b n).2
    simp only [gather, List.mem_append, h b (by simp) n, hrest, List.exists_mem_cons_iff]

namespace Dealer

variable (dealer : Dealer) {E : Type}

/-- The structure with the rows of each operation in the order of one iteration. -/
def deal (n : Nat) (s : Structure E) : Structure E :=
  { s with
    operations := s.operations.mapIdx fun op table =>
      { table with rows := dealer.order n op table.rows } }

/-- All ways to extend a binding through a plan, where each step from each binding goes through the
rows in an order of its own. -/
def found (s : Structure E) (domains : Domains) : List Step → Binding → Nat → List Binding × Nat
  | [], binding, n => ([binding], n)
  | step :: steps, binding, n =>
    gather (found s domains steps) ((dealer.deal n s).extensions domains binding step) (n + 1)

variable [PartitionStore E]

/-- A round that goes through the rows in the order dealt for it. -/
def round : Structure E × Nat → Lookup E (Nat × (Structure E × Nat))
  | (s, n) => do
    let (merges, next) ← (dealer.deal n s).roundBy PartitionStore.find PartitionStore.settle
    return (merges, (next, n + 1))

def rounds (most n : Nat) (s : Structure E) : Lookup E (Nat × (Structure E × Nat)) :=
  repeated (fun hand => hand.1.dirty) dealer.round most (s, n)

section Rounds

variable {s : Structure E} {most n : Nat}

theorem rounds_clean (clean : s.dirty = false) (most n : Nat) (equality : E) :
    (dealer.rounds most n s).outcome equality = (.ok (0, (s, n)), equality) := by
  have hfinished : dealer.rounds most n s = pure (0, (s, n)) :=
    repeated_finished (t := (s, n)) clean most
  rw [hfinished]
  rfl

theorem rounds_dirty {next : Structure E} {last : Structure E × Nat} {merges more m : Nat}
    {equality equality' equality'' : E} (dirty : s.dirty = true)
    (one : (dealer.round (s, n)).outcome equality = (.ok (merges, (next, m)), equality'))
    (rest : (dealer.rounds most m next).outcome equality' = (.ok (more, last), equality'')) :
    (dealer.rounds (most + 1) n s).outcome equality = (.ok (merges + more, last), equality'') := by
  have hrest : (repeated (fun hand => hand.1.dirty) dealer.round most (next, m)).outcome equality' =
      (.ok (more, last), equality'') := rest
  rw [rounds, repeated_unfinished (t := (s, n)) dirty, Lookup.outcome_bind, one]
  show Lookup.outcome (repeated _ dealer.round most (next, m) >>= _) equality' = _
  rw [Lookup.outcome_bind, hrest]
  rfl

end Rounds

end Dealer

namespace Hand

variable {dealer : Dealer} {E α : Type} [PartitionStore E]

/-- Makes a step on the partition of the structure that is held. -/
def onPartition (step : Lookup E α) : Action (Hand E dealer) ContractError α :=
  fun hand =>
    let (answer, equality) := step.outcome hand.held.equality
    { answer, after := { hand with held := { hand.held with equality } } }

def rebuild : Action (Hand E dealer) ContractError Nat :=
  fun hand =>
    let most := hand.held.classCount + 1
    match (dealer.rounds most hand.iteration hand.held).outcome hand.held.equality with
    | (.error e, equality) =>
      { answer := .error e, after := { hand with held := { hand.held with equality } } }
    | (.ok (merges, next, n), _) =>
      { answer := .ok merges
        after := { held := next, iteration := n }
        events := if 0 < merges then [.congruences merges] else [] }

def search (rule : Rule) : Action (Hand E dealer) ContractError (List Binding) :=
  fun hand =>
    match (hand.held.scanBy PartitionStore.find rule).outcome hand.held.equality with
    | (.error e, equality) =>
      { answer := .error e, after := { hand with held := { hand.held with equality } } }
    | (.ok domains, equality) =>
      let found := dealer.found hand.held domains rule.plan (List.replicate rule.varCount none)
        hand.iteration
      { answer := .ok (ascending found.1)
        after := { held := { hand.held with equality }, iteration := found.2 } }

/-- In the hand of a dealer every iteration over rows has the order that was dealt for it. -/
instance instMachine : Machine (Hand E dealer) E where
  held hand := hand.held
  hold s hand := { hand with held := s }
  find x := onPartition (PartitionStore.find x)
  findAll xs := onPartition (xs.mapM PartitionStore.find)
  areEqual x y := onPartition (PartitionStore.areEqual x y)
  join x y := onPartition (PartitionStore.merge x y)
  classes := onPartition PartitionStore.classes
  rebuild := rebuild
  search := search

end Hand

namespace Structure

theorem deal_twin (dealer : Dealer) (n : Nat) (s : Structure) : s.Twin (dealer.deal n s) where
  signature := rfl
  sorts := rfl
  carriers := rfl
  equality := rfl
  predicates := rfl
  dirty := rfl
  operations := by
    apply forall₂_of_getElem?
    · simp [Dealer.deal]
    · intro op a b ha hb
      simp only [Dealer.deal, List.getElem?_mapIdx, ha, Option.map_some] at hb
      cases hb
      exact ⟨rfl, (dealer.perm n op a.rows).symm⟩

theorem Twin.mem_extensions {s t : Structure} (h : s.Twin t) (valid : s.Valid) (domains : Domains)
    {b m : Binding} {step : Step} :
    m ∈ t.extensions domains b step ↔ m ∈ s.extensions domains b step := by
  cases step with
  | op op args result =>
    cases hs : s.operations[op]? with
    | none =>
      have hlen := h.operations.length_eq
      have ht : t.operations[op]? = none := by
        rw [List.getElem?_eq_none_iff] at hs ⊢
        omega
      simp only [extensions, hs, ht]
    | some table =>
      obtain ⟨table', ht, twin⟩ := forall₂_getElem? h.operations hs
      have keyed := valid.keyed table (List.mem_of_getElem? hs)
      simp only [extensions, hs, ht]
      cases b.values? args with
      | none => simp only [Binding.alongRows, List.mem_filterMap, twin.rows.mem_iff]
      | some key => simp only [twin.get? keyed]
  | pred pred args => simp only [extensions, h.predicates]
  | scan var sort => rfl
  | eq lhs rhs => rfl

section Search

variable {E : Type} (dealer : Dealer)

/-- A search does not look at the partition. -/
theorem found_withEquality (s : Structure) (equality : E) (domains : Domains) (steps : List Step)
    (b : Binding) (n : Nat) : dealer.found (s.withEquality equality) domains steps b n =
      dealer.found s domains steps b n := by
  have hextensions : ∀ n b step, (dealer.deal n (s.withEquality equality)).extensions domains b step =
      (dealer.deal n s).extensions domains b step := by
    intro n b step
    cases step with
    | op op args result => rfl
    | pred pred args => rfl
    | scan var sort => rfl
    | eq lhs rhs => rfl
  have hfound : dealer.found (s.withEquality equality) domains steps =
      dealer.found s domains steps := by
    induction steps with
    | nil => rfl
    | cons step steps ih =>
      funext b n
      simp only [Dealer.found, ih, hextensions]
  rw [hfound]

theorem Twin.mem_found {s t : Structure} (twin : s.Twin t) (valid : s.Valid) (domains : Domains)
    {steps : List Step} {b m : Binding} (n : Nat) :
    m ∈ (dealer.found t domains steps b n).1 ↔ m ∈ s.extensionsAlong domains steps b := by
  induction steps generalizing b n with
  | nil => simp [Dealer.found, extensionsAlong]
  | cons step steps ih =>
    have dealt := twin.trans (deal_twin dealer n t)
    simp only [Dealer.found, extensionsAlong, List.mem_flatMap, ← dealt.mem_extensions valid]
    apply mem_gather (P := fun c => m ∈ s.extensionsAlong domains steps c)
    exact fun c _ n => ih n

/-- A search finds the same matches in the same order, whatever the orders of the rows are. -/
theorem Twin.ascending_found {s t : Structure} (twin : s.Twin t) (valid : s.Valid) (rule : Rule)
    (n : Nat) : ascending (dealer.found t (t.domains rule) rule.plan
      (List.replicate rule.varCount none) n).1 = s.solutions rule := by
  rw [twin.domains]
  exact ascending_congr fun m => twin.mem_found dealer valid _ n

end Search

end Structure

end PartialHorn
