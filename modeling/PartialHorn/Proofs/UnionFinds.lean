import PartialHorn.Proofs.ForestEquality
import PartialHorn.Proofs.ListingOrder
import PartialHorn.Proofs.Rebuilding
import PartialHorn.Proofs.Synonyms

namespace PartialHorn

open Structure

/-- The empty structure of a signature, with a forest that will keep its partition. -/
def Structure.emptyOver (uf : UnionFind) (sig : Signature) : Structure (ForestEquality uf) :=
  (empty sig).withEquality (ForestEquality.fresh uf)

namespace Hand

variable {E : Type} [PartitionStore E] {R : E → Equality → Prop} {dealer : Dealer}

/-- What a sequence of calls leaves in the hand of a dealer, whether they fail or not. -/
def afterCalls (hand : Hand E dealer) (calls : List Call) : Hand E dealer :=
  calls.foldl (fun hand call => (call.perform hand).after) hand

theorem afterCalls_doubles (models : PartitionStore.Models R) {s : Structure} {hand : Hand E dealer}
    (valid : s.Valid) (double : hand.held.Doubles R s) (calls : List Call) :
    (hand.afterCalls calls).held.Doubles R (s.afterCalls calls) := by
  induction calls generalizing hand s with
  | nil => exact double
  | cons call calls ih =>
    have mirrors := perform_mirrors models dealer call
    exact ih (mirrors.keeps s valid).1 (mirrors.after valid double)

/-- What is in hand later still gives the answers of what was in hand earlier. -/
structure Upholds (later earlier : Hand E dealer) : Prop where
  sorts : ∀ x sort, (Action.sortOf x earlier).answer = .ok sort →
    (Action.sortOf x later).answer = .ok sort
  equal : ∀ x y, (Machine.areEqual x y earlier).answer = .ok true →
    (Machine.areEqual x y later).answer = .ok true
  values : ∀ op args x, (Action.lookup op args earlier).answer = .ok (some x) →
    ∃ r, (Action.lookup op args later).answer = .ok (some r) ∧
      (Machine.find x (Action.lookup op args later).after).answer = .ok r
  facts : ∀ pred args, (Action.holds pred args earlier).answer = .ok true →
    (Action.holds pred args later).answer = .ok true

section Transfer

variable (models : PartitionStore.Models R) {s t : Structure} {hand hand' : Hand E dealer}
  (valid : s.Valid) (double : hand.held.Doubles R s) (valid' : t.Valid)
  (double' : hand'.held.Doubles R t)

include models valid double valid' double'

theorem upholds (h : t.Upholds s) : hand'.Upholds hand where
  sorts x sort := by
    have mirrors := sortOf_mirrors (R := R) dealer x
    rw [mirrors.answer valid double, mirrors.answer valid' double']
    exact h.sorts x sort
  equal x y := by
    have mirrors := areEqual_mirrors models dealer x y
    rw [mirrors.answer valid double, mirrors.answer valid' double']
    exact h.equal x y
  values op args x := by
    have mirrors := lookup_mirrors models dealer op args
    have finds := find_mirrors models dealer x
    have later := (mirrors.keeps t valid').1
    rw [mirrors.answer valid double, mirrors.answer valid' double',
      finds.answer later (mirrors.after valid' double')]
    exact h.values op args x
  facts pred args := by
    have mirrors := holds_mirrors models dealer pred args
    rw [mirrors.answer valid double, mirrors.answer valid' double']
    exact h.facts pred args

end Transfer

end Hand

/-- What a sequence of calls leaves of the empty structure over a union-find, in the hand of a
dealer. -/
def Dealer.overForest (dealer : Dealer) (uf : UnionFind) (sig : Signature) (calls : List Call) :
    Hand (ForestEquality uf) dealer :=
  Hand.afterCalls { held := emptyOver uf sig } calls

section Forest

variable {uf : UnionFind} (lawful : uf.Lawful) (sig : Signature) (dealer : Dealer)

include lawful

theorem emptyOver_doubles : (emptyOver uf sig).Doubles (@ForestEquality.Tracks uf) (empty sig) :=
  ⟨ForestEquality.fresh_tracks lawful, .refl _⟩

/-- A structure that keeps its partition in a forest answers and reports, call by call, what one with
a list of representatives does. After each call the forest stands for the partition, and all else is
the same up to the order of rows. -/
theorem forest_sessions (calls : List Call) :
    List.Forall₂ (fun o o' => o'.Doubles (@ForestEquality.Tracks uf) o) ((empty sig).outcomes calls)
      (dealer.session calls 0 (emptyOver uf sig)) :=
  session_outcomes (ForestEquality.models lawful) dealer (empty_valid sig)
    (emptyOver_doubles lawful sig) calls 0

/-- The answers and errors of a session do not tell what keeps the partition. -/
theorem forest_answers (calls : List Call) :
    (dealer.session calls 0 (emptyOver uf sig)).map Outcome.answer =
      ((empty sig).outcomes calls).map Outcome.answer := by
  apply map_eq_of_forall₂
  have sessions := forest_sessions lawful sig dealer calls
  exact List.forall₂_map_right_iff.mpr (forall₂_swap (fun _ _ double => double.answer) sessions)

/-- The structure in hand after some calls, and the same structure with a list of representatives. -/
theorem forest_afterCalls (calls : List Call) :
    (dealer.overForest uf sig calls).held.Doubles (@ForestEquality.Tracks uf)
      ((empty sig).afterCalls calls) :=
  Hand.afterCalls_doubles (ForestEquality.models lawful) (empty_valid sig)
    (emptyOver_doubles lawful sig) calls

/-- A rebuild of a structure over a forest never fails either. It leaves nothing to be done, answers
how many classes were merged away, and a second one finds nothing to do. After calls by a host the
structure that it leaves is the congruence closure of what was recorded. -/
theorem forest_rebuild_settles (calls : List Call) :
    let hand := dealer.overForest uf sig calls
    let rebuilt := (Hand.rebuild hand).after
    ∃ merges t, (Hand.rebuild hand).answer = .ok merges ∧
      rebuilt.held.Doubles (@ForestEquality.Tracks uf) t ∧ t.Settled ∧
      rebuilt.held.classCount + merges = hand.held.classCount ∧
      (Hand.rebuild rebuilt).answer = .ok 0 ∧ (Hand.rebuild rebuilt).after = rebuilt ∧
      ((∀ call ∈ calls, call.Hosted) → t.Realizes (Ledger.afterCalls {} (empty sig) calls)) := by
  intro hand rebuilt
  have models := ForestEquality.models lawful
  have double := forest_afterCalls lawful sig dealer calls
  have valid := (afterCalls_keeps calls _ (empty_valid sig)).1
  obtain ⟨merges, rebuilds⟩ := valid.rebuilds
  obtain ⟨hanswer, _, double'⟩ := Hand.rebuild_doubles models _ valid double
  have clean : rebuilt.held.dirty = false := double'.dirty.trans rebuilds.clean
  have hagain : Hand.rebuild rebuilt = { answer := .ok 0, after := rebuilt } := by
    simp only [Hand.rebuild, dealer.rounds_clean clean]
    rfl
  refine ⟨merges, _, hanswer.trans rebuilds.answer, double', rebuilds.valid.settled rebuilds.clean, ?_,
    by rw [hagain], by rw [hagain], Ledger.realized sig⟩
  rw [double'.classCount models, double.classCount models]
  exact valid.classCount_renewed rebuilds

/-- Nothing is forgotten over a forest either, whatever calls follow. -/
theorem forest_forgets_nothing (calls later : List Call) :
    ((dealer.overForest uf sig calls).afterCalls later).Upholds (dealer.overForest uf sig calls) := by
  have models := ForestEquality.models lawful
  have double := forest_afterCalls lawful sig dealer calls
  have valid := (afterCalls_keeps calls _ (empty_valid sig)).1
  have double' := Hand.afterCalls_doubles models valid double later
  obtain ⟨valid', grows⟩ := afterCalls_keeps later _ valid
  exact Hand.upholds models valid double valid' double' (grows.upholds valid valid')

/-- Reads and writes agree over a forest as they do over a list of representatives: at all names of
some arguments a lookup and a definition, or a question and an assertion, have one answer and leave
doubles of one structure. -/
theorem forest_reads_and_writes_agree (calls : List Call) :
    let hand := dealer.overForest uf sig calls
    let s := (empty sig).afterCalls calls
    (∀ op xs operation, s.Applicable op xs operation →
      ∃ value r t, s.Evaluates op xs operation.codomain value r t ∧ ∀ ys, s.Synonyms xs ys →
        (Action.lookup op ys hand).answer = .ok value ∧ (Action.define op ys hand).answer = .ok r ∧
        (Action.define op ys hand).after.held.Doubles (@ForestEquality.Tracks uf) t) ∧
    ∀ pred xs predicate, s.Relatable pred xs predicate →
      ∃ known t, s.Records pred xs known t ∧ ∀ ys, s.Synonyms xs ys →
        (Action.holds pred ys hand).answer = .ok known ∧
        (Action.assert pred ys hand).answer = .ok (!known) ∧
        (Action.assert pred ys hand).after.held.Doubles (@ForestEquality.Tracks uf) t := by
  intro hand s
  have models := ForestEquality.models lawful
  have double := forest_afterCalls lawful sig dealer calls
  have valid := (afterCalls_keeps calls _ (empty_valid sig)).1
  refine ⟨fun op xs operation happ => ?_, fun pred xs predicate hrel => ?_⟩
  · obtain ⟨value, r, t, evaluates⟩ := Action.evaluates valid happ
    refine ⟨value, r, t, evaluates, fun ys synonyms => ?_⟩
    have reads := Hand.lookup_mirrors models dealer op ys
    have writes := Hand.define_mirrors models dealer op ys
    obtain ⟨hanswer, rfl⟩ := (evaluates.define ys synonyms).1
    exact ⟨(reads.answer valid double).trans (evaluates.lookup ys synonyms).1,
      (writes.answer valid double).trans hanswer, writes.after valid double⟩
  · obtain ⟨known, t, records⟩ := Action.records valid hrel
    refine ⟨known, t, records, fun ys synonyms => ?_⟩
    have reads := Hand.holds_mirrors models dealer pred ys
    have writes := Hand.assert_mirrors models dealer pred ys
    obtain ⟨hanswer, rfl⟩ := (records.assert ys synonyms).1
    exact ⟨(reads.answer valid double).trans (records.holds ys synonyms).1,
      (writes.answer valid double).trans hanswer, writes.after valid double⟩

end Forest

end PartialHorn
