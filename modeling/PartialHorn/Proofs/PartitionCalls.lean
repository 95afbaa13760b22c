import PartialHorn.Proofs.Sorting
import PartialHorn.Proofs.Tightening
import Mathlib.Logic.Relation

namespace PartialHorn

/-- A call on a partition with a queue of equations. -/
inductive PartitionCall
  | add
  | find (x : Nat)
  | findNaive (x : Nat)
  | areEqual (x y : Nat)
  | merge (x y : Nat)
  | classes
  | counts
  | enqueue (e : Equation)
  | dequeue
  | hasPending
deriving DecidableEq

inductive PartitionAnswer
  | element (x : Nat)
  | flag (holds : Bool)
  | classes (classes : List (List Nat))
  | counts (size classes merges : Nat)
  | equation (e : Option Equation)
  | done
deriving DecidableEq

namespace PartitionCall

/-- The elements that must be there for a call to succeed, in the order in which they are looked
up. -/
def named : PartitionCall → List Nat
  | find x | findNaive x => [x]
  | areEqual x y | merge x y => [x, y]
  | _ => []

def onQueue : PartitionCall → Bool
  | enqueue _ | dequeue | hasPending => true
  | _ => false

/-- Whether a call only asks. -/
def asks : PartitionCall → Bool
  | add | merge _ _ | enqueue _ | dequeue => false
  | _ => true

section

variable {σ : Type} (perform : σ → PartitionCall → Except ContractError PartitionAnswer × σ)

/-- The answers to calls that are made in turn. -/
def answers (s : σ) : List PartitionCall → List (Except ContractError PartitionAnswer)
  | [] => []
  | call :: calls => (perform s call).1 :: answers (perform s call).2 calls

def after (s : σ) (calls : List PartitionCall) : σ :=
  calls.foldl (fun s call => (perform s call).2) s

end

end PartitionCall

namespace Equality

/-- Carries out a call and answers it. -/
def perform (eq : Equality) : PartitionCall → Except ContractError PartitionAnswer × Equality
  | .add => (.ok (.element eq.size), eq.grow)
  | .find x | .findNaive x => ((eq.find x).map .element, eq)
  | .areEqual x y => ((eq.areEqual x y).map .flag, eq)
  | .merge x y =>
    match eq.merge x y with
    | .ok (merged, eq') => (.ok (.flag merged), eq')
    | .error error => (.error error, eq)
  | .classes => (.ok (.classes eq.classes), eq)
  | .counts => (.ok (.counts eq.size eq.classCount eq.merges), eq)
  | .enqueue e => (.ok .done, eq.enqueue e)
  | .dequeue => (.ok (.equation eq.dequeue.1), eq.dequeue.2)
  | .hasPending => (.ok (.flag (!eq.pending.isEmpty)), eq)

end Equality

/-- What the calls and their answers tell of a partition: the number of its elements, the pairs that
have been merged, the number of merges that were effective, and the equations in the queue. -/
structure MergeRecord where
  size : Nat := 0
  merged : List (Nat × Nat) := []
  effective : Nat := 0
  queue : List Equation := []

namespace MergeRecord

def noted (record : MergeRecord) :
    PartitionCall → Except ContractError PartitionAnswer → MergeRecord
  | .add, _ => { record with size := record.size + 1 }
  | .merge x y, .ok (.flag merged) =>
    { record with
      merged := record.merged ++ [(x, y)]
      effective := record.effective + merged.toNat }
  | .enqueue e, _ => { record with queue := record.queue ++ [e] }
  | .dequeue, _ => { record with queue := record.queue.tail }
  | _, _ => record

def along (record : MergeRecord) :
    List PartitionCall → List (Except ContractError PartitionAnswer) → MergeRecord
  | call :: calls, answer :: answers => (record.noted call answer).along calls answers
  | _, _ => record

/-- The least equivalence that relates the pairs that have been merged. -/
def Same (record : MergeRecord) : Nat → Nat → Prop :=
  Relation.EqvGen fun x y => (x, y) ∈ record.merged

def IsLeast (record : MergeRecord) (x r : Nat) : Prop :=
  record.Same x r ∧ ∀ y, record.Same x y → r ≤ y

/-- Some lists are the classes of the elements, each in ascending order and one after the other by
their least members. -/
structure Classes (record : MergeRecord) (classes : List (List Nat)) : Prop where
  whole : ∀ members ∈ classes, members ≠ [] ∧
    ∀ x ∈ members, ∀ y, y ∈ members ↔ record.Same x y
  ascending : ∀ members ∈ classes, members.Pairwise (· < ·)
  ordered : classes.Pairwise fun first second => ∃ x ∈ first, ∀ y ∈ second, x < y
  covers : classes.flatten.Perm (List.range record.size)

end MergeRecord

/-- The answers of a partition to any further calls are those of the equivalence that its record
generates. -/
structure Partitions (ask : List PartitionCall → List (Except ContractError PartitionAnswer))
    (record : MergeRecord) : Prop where
  added : ask [.add] = [.ok (.element record.size)]
  found : ∀ x < record.size, ∃ r, record.IsLeast x r ∧
    ask [.find x] = [.ok (.element r)] ∧ ask [.findNaive x] = [.ok (.element r)]
  compared : ∀ x < record.size, ∀ y < record.size, ∃ flag,
    ask [.areEqual x y] = [.ok (.flag flag)] ∧ (flag = true ↔ record.Same x y)
  merged : ∀ x < record.size, ∀ y < record.size, ∃ flag,
    ask [.merge x y] = [.ok (.flag flag)] ∧ (flag = true ↔ ¬record.Same x y)
  counted : record.effective ≤ record.size ∧
    ask [.counts] =
      [.ok (.counts record.size (record.size - record.effective) record.effective)]
  listed : ∃ classes, ask [.classes] = [.ok (.classes classes)] ∧ record.Classes classes ∧
    classes.length = record.size - record.effective
  refused : ∀ call x later, call.named.find? (fun x => decide (record.size ≤ x)) = some x →
    ask (call :: later) = .error (.unknownElement x record.size) :: ask later
  unnoticed : ∀ call later, call.asks = true → ∃ answer, ask (call :: later) = answer :: ask later
  queued : ask [.dequeue] = [.ok (.equation record.queue.head?)] ∧
    ask [.hasPending] = [.ok (.flag (!record.queue.isEmpty))]
  deferred : ∀ call later, call.onQueue = true → (∀ call' ∈ later, call'.onQueue = false) →
    ∃ answer, ask (call :: later) = answer :: ask later

namespace Equality

variable {eq : Equality}

theorem find_unknown {x : Nat} (hx : eq.size ≤ x) :
    eq.find x = .error (.unknownElement x eq.size) := by
  have hnone : eq.reps[x]? = none := List.getElem?_eq_none hx
  rw [find, hnone]

theorem find_known {x : Nat} (hx : x < eq.size) : eq.find x = .ok (eq.root x) :=
  find_eq_ok_iff.mpr (getElem?_root hx)

theorem dequeue_eq : eq.dequeue = (eq.pending.head?, { eq with pending := eq.pending.tail }) := by
  unfold dequeue
  cases hp : eq.pending with
  | nil => exact congrArg (fun pending => (none, Equality.mk eq.reps eq.merges pending)) hp
  | cons => rfl

/-- A call that names an unknown element fails and changes nothing. -/
theorem perform_unknown {call : PartitionCall} {x : Nat}
    (h : call.named.find? (fun x => decide (eq.size ≤ x)) = some x) :
    eq.perform call = (.error (.unknownElement x eq.size), eq) := by
  have hx : eq.size ≤ x := by simpa using List.find?_some h
  have hfind := find_unknown hx
  have hpair : ∀ {y z : Nat}, [y, z].find? (fun x => decide (eq.size ≤ x)) = some x →
      y = x ∨ (eq.find y = .ok (eq.root y) ∧ z = x) := by
    intro y z hyz
    by_cases hy : eq.size ≤ y
    · left
      simpa [hy] using hyz
    · right
      have hz : eq.size ≤ z ∧ z = x := by simpa [hy] using hyz
      exact ⟨find_known (by omega), hz.2⟩
  cases call with
  | find y | findNaive y =>
    obtain rfl : y = x := (by simpa [PartitionCall.named] using h : eq.size ≤ y ∧ y = x).2
    rw [perform, hfind]
    rfl
  | areEqual y z =>
    rcases hpair h with rfl | ⟨hy, rfl⟩
    · simp only [perform, areEqual, hfind]
      rfl
    · simp only [perform, areEqual, hy, hfind]
      rfl
  | merge y z =>
    rcases hpair h with rfl | ⟨hy, rfl⟩
    · simp only [perform, merge, hfind]
      rfl
    · simp only [perform, merge, hy, hfind]
      rfl
  | _ => simp [PartitionCall.named] at h

theorem perform_asks {call : PartitionCall} (h : call.asks = true) : (eq.perform call).2 = eq := by
  cases call with
  | add | merge | enqueue | dequeue => simp [PartitionCall.asks] at h
  | _ => rfl

/-- What is in the queue has no bearing on the calls that are not about the queue. -/
theorem perform_requeued (eq : Equality) {call : PartitionCall} (h : call.onQueue = false)
    (pending : List Equation) : { eq with pending }.perform call =
      ((eq.perform call).1, { (eq.perform call).2 with pending }) := by
  cases call with
  | enqueue | dequeue | hasPending => simp [PartitionCall.onQueue] at h
  | merge x y =>
    have hfind : ∀ z, find { eq with pending } z = eq.find z := fun z => rfl
    simp only [perform, merge, hfind]
    cases eq.find x with
    | error => rfl
    | ok rx =>
      cases eq.find y with
      | error => rfl
      | ok ry =>
        by_cases he : rx = ry
        · simp [he, bind, Except.bind, pure, Except.pure]
        · simp [he, bind, Except.bind, pure, Except.pure, link]
  | _ => rfl

theorem answers_requeued {later : List PartitionCall} (h : ∀ call ∈ later, call.onQueue = false)
    (pending : List Equation) : PartitionCall.answers perform { eq with pending } later =
      PartitionCall.answers perform eq later := by
  induction later generalizing eq with
  | nil => rfl
  | cons call later ih =>
    have hcall := perform_requeued eq (h call (by simp)) pending
    simp only [PartitionCall.answers, hcall]
    rw [ih fun call' hmem => h call' (List.mem_cons_of_mem call hmem)]

theorem perform_onQueue {call : PartitionCall} (h : call.onQueue = true) :
    ∃ pending, (eq.perform call).2 = { eq with pending } := by
  cases call with
  | enqueue e => exact ⟨_, rfl⟩
  | hasPending => exact ⟨eq.pending, rfl⟩
  | dequeue =>
    refine ⟨eq.pending.tail, ?_⟩
    show eq.dequeue.2 = _
    unfold dequeue
    cases hp : eq.pending with
    | nil => exact congrArg (Equality.mk eq.reps eq.merges) hp
    | cons => rfl
  | _ => simp [PartitionCall.onQueue] at h

section Classes

variable (valid : eq.Valid)

theorem roots_pairwise (eq : Equality) : eq.roots.Pairwise (· < ·) :=
  List.pairwise_lt_range.filter _

theorem mem_members {r x : Nat} : x ∈ eq.members r ↔ eq.reps[x]? = some r := by
  simp [members, mem_positions]

theorem classes_eq (eq : Equality) : eq.classes = eq.roots.map eq.members :=
  rfl

theorem classes_flatten_nodup : eq.classes.flatten.Nodup := by
  rw [classes_eq, List.nodup_flatten]
  constructor
  · intro members h
    obtain ⟨r, _, rfl⟩ := List.mem_map.mp h
    exact (positions_pairwise _ _).imp Nat.ne_of_lt
  · rw [List.pairwise_map]
    refine (roots_pairwise eq).imp fun {a b} hlt x ha hb => ?_
    have he := Option.some.inj ((mem_members.mp ha).symm.trans (mem_members.mp hb))
    omega

include valid

theorem Valid.mem_classes_flatten {x : Nat} : x ∈ eq.classes.flatten ↔ x < eq.size := by
  rw [classes_eq, List.mem_flatten]
  constructor
  · rintro ⟨members, h, hx⟩
    obtain ⟨r, _, rfl⟩ := List.mem_map.mp h
    exact lt_size_of_getElem? (mem_members.mp hx)
  · intro hx
    have hroot := getElem?_root hx
    have hfixed := mem_roots.mpr (valid.fixed x _ hroot)
    exact ⟨_, List.mem_map_of_mem hfixed, mem_members.mpr hroot⟩

theorem Valid.classes_flatten_perm : eq.classes.flatten.Perm (List.range eq.size) := by
  apply (List.perm_ext_iff_of_nodup classes_flatten_nodup List.nodup_range).mpr
  intro x
  rw [valid.mem_classes_flatten, List.mem_range]

theorem Valid.classes_length : eq.classes.length = eq.size - eq.merges := by
  have hcounted := valid.counted
  rw [classes_eq, List.length_map, roots_length]
  omega

end Classes

/-- A record tells a partition. -/
structure Records (eq : Equality) (record : MergeRecord) : Prop where
  valid : eq.Valid
  size : eq.size = record.size
  merges : eq.merges = record.effective
  pending : eq.pending = record.queue
  sound : ∀ x y, eq.Same x y → record.Same x y
  complete : ∀ p ∈ record.merged, eq.Same p.1 p.2

namespace Records

variable {record : MergeRecord}

theorem same_cases (h : eq.Records record) {x y : Nat} (hxy : record.Same x y) :
    x = y ∨ eq.Same x y := by
  induction hxy with
  | rel x y hp => exact Or.inr (h.complete _ hp)
  | refl x => exact Or.inl rfl
  | symm x y _ ih =>
    rcases ih with rfl | hs
    · exact Or.inl rfl
    · exact Or.inr hs.symm
  | trans x y z _ _ ih ih' =>
    rcases ih with rfl | hs
    · exact ih'
    · rcases ih' with rfl | hs'
      · exact Or.inr hs
      · exact Or.inr (hs.trans hs')

theorem same_iff (h : eq.Records record) {x y : Nat} (hx : x < record.size) :
    eq.Same x y ↔ record.Same x y := by
  constructor
  · exact h.sound x y
  · intro hxy
    rcases h.same_cases hxy with rfl | hs
    · exact .refl (h.size ▸ hx)
    · exact hs

theorem isLeast (h : eq.Records record) {x : Nat} (hx : x < record.size) :
    record.IsLeast x (eq.root x) := by
  have hlt : x < eq.size := h.size ▸ hx
  refine ⟨h.sound x _ (same_root h.valid hlt), fun y hxy => ?_⟩
  obtain ⟨r, hr, hy⟩ := (h.same_iff hx).mpr hxy
  rw [root_eq_of_getElem? hr]
  exact h.valid.le y r hy

theorem classes (h : eq.Records record) : record.Classes eq.classes where
  whole members hmem := by
    obtain ⟨r, hr, rfl⟩ := List.mem_map.mp hmem
    have hroot : r ∈ eq.members r := mem_members.mpr (mem_roots.mp hr)
    refine ⟨List.ne_nil_of_mem hroot, fun x hx y => ?_⟩
    have hxr := mem_members.mp hx
    rw [mem_members, ← h.same_iff (h.size ▸ lt_size_of_getElem? hxr)]
    constructor
    · intro hyr
      exact ⟨r, hxr, hyr⟩
    · intro ⟨r', hxr', hyr'⟩
      cases Option.some.inj (hxr.symm.trans hxr')
      exact hyr'
  ascending members hmem := by
    obtain ⟨r, _, rfl⟩ := List.mem_map.mp hmem
    exact positions_pairwise _ _
  ordered := by
    rw [classes_eq, List.pairwise_map]
    apply (List.Pairwise.and_mem.mp (roots_pairwise eq)).imp
    intro a b h'
    obtain ⟨ha, _, hlt⟩ := h'
    refine ⟨a, mem_members.mpr (mem_roots.mp ha), fun y hy => ?_⟩
    have hle := h.valid.le y b (mem_members.mp hy)
    omega
  covers := by
    rw [← h.size]
    exact h.valid.classes_flatten_perm

theorem initial : Records {} {} where
  valid := empty_valid
  size := rfl
  merges := rfl
  pending := rfl
  sound x y h := by
    obtain ⟨r, hx, _⟩ := h
    simp at hx
  complete := by simp

theorem grown (h : eq.Records record) :
    eq.grow.Records { record with size := record.size + 1 } where
  valid := grow_valid h.valid
  size := by rw [grow_size, h.size]
  merges := h.merges
  pending := h.pending
  sound x y hxy := by
    rcases grow_same_cases h.valid hxy with hs | ⟨rfl, rfl⟩
    · exact h.sound x y hs
    · exact .refl _
  complete p hp := grow_same (h.complete p hp)

theorem requeued (h : eq.Records record) (pending : List Equation) :
    Records { eq with pending } { record with queue := pending } where
  valid := ⟨h.valid.le, h.valid.fixed, h.valid.counted⟩
  size := h.size
  merges := h.merges
  pending := rfl
  sound := h.sound
  complete := h.complete

/-- The pair of a merge generates the new classes together with the pairs of the earlier merges. -/
theorem merged (h : eq.Records record) {x y : Nat} {flag : Bool} {eq' : Equality}
    (merge : eq.Merges x y flag eq') : eq'.Records
      { record with
        merged := record.merged ++ [(x, y)]
        effective := record.effective + flag.toNat } where
  valid := merge.valid
  size := merge.coarsens.size.trans h.size
  merges := by rw [merge.counted, h.merges]
  pending := merge.coarsens.pending.trans h.pending
  sound := by
    apply merge.least _ (Relation.EqvGen.is_equivalence _)
    · intro u v hs
      exact (h.sound u v hs).mono fun a b hp => List.mem_append_left _ hp
    · exact .rel x y (by simp)
  complete p hp := by
    rcases List.mem_append.mp hp with hp | hp
    · exact merge.coarsens.same _ _ (h.complete p hp)
    · obtain rfl := List.mem_singleton.mp hp
      exact merge.joined

/-- A call that only asks leaves no trace in the record. -/
theorem noted_asks {call : PartitionCall} (hasks : call.asks = true)
    (answer : Except ContractError PartitionAnswer) : record.noted call answer = record := by
  cases call with
  | add | merge | enqueue | dequeue => simp [PartitionCall.asks] at hasks
  | _ => rfl

theorem perform (h : eq.Records record) (call : PartitionCall) :
    (eq.perform call).2.Records (record.noted call (eq.perform call).1) := by
  cases call with
  | add => exact h.grown
  | merge x y =>
    cases hunknown : (PartitionCall.merge x y).named.find? fun z => decide (eq.size ≤ z) with
    | some z =>
      rw [perform_unknown hunknown]
      exact h
    | none =>
      have hxy : x < eq.size ∧ y < eq.size := by
        simpa [PartitionCall.named] using hunknown
      obtain ⟨flag, eq', hm, hspec⟩ := merge_spec h.valid hxy.1 hxy.2
      have hp : eq.perform (.merge x y) = (.ok (.flag flag), eq') := by
        simp only [Equality.perform, hm]
      rw [hp]
      exact h.merged hspec
  | enqueue e =>
    show (eq.enqueue e).Records { record with queue := record.queue ++ [e] }
    rw [← h.pending]
    exact h.requeued (eq.pending ++ [e])
  | dequeue =>
    show eq.dequeue.2.Records { record with queue := record.queue.tail }
    rw [dequeue_eq, ← h.pending]
    exact h.requeued eq.pending.tail
  | _ =>
    rw [perform_asks rfl, noted_asks rfl]
    exact h

theorem along (h : eq.Records record) (calls : List PartitionCall) :
    (PartitionCall.after Equality.perform eq calls).Records
      (record.along calls (PartitionCall.answers Equality.perform eq calls)) := by
  induction calls generalizing eq record with
  | nil => exact h
  | cons call calls ih => exact ih (h.perform call)

/-- A partition that is told by a record answers as the recorded equivalence does. -/
theorem partitions (h : eq.Records record) :
    Partitions (PartitionCall.answers Equality.perform eq) record where
  added := by
    rw [← h.size]
    rfl
  found x hx := by
    have hfind := find_known (h.size ▸ hx)
    refine ⟨eq.root x, h.isLeast hx, ?_, ?_⟩
    · simp only [PartitionCall.answers, Equality.perform, hfind]
      rfl
    · simp only [PartitionCall.answers, Equality.perform, hfind]
      rfl
  compared x hx y hy := by
    have hlt : x < eq.size := h.size ▸ hx
    have hlt' : y < eq.size := h.size ▸ hy
    refine ⟨decide (eq.root x = eq.root y), ?_, ?_⟩
    · simp only [PartitionCall.answers, Equality.perform, areEqual, find_known hlt, find_known hlt']
      rfl
    · rw [decide_eq_true_iff, ← same_iff_root hlt hlt', h.same_iff hx]
  merged x hx y hy := by
    obtain ⟨flag, eq', hm, hspec⟩ := merge_spec h.valid (h.size ▸ hx) (h.size ▸ hy)
    refine ⟨flag, ?_, ?_⟩
    · simp only [PartitionCall.answers, Equality.perform, hm]
    · rw [hspec.flagged, h.same_iff hx]
  counted := by
    have hcounted := h.valid.counted
    refine ⟨by rw [← h.size, ← h.merges]; omega, ?_⟩
    rw [← h.size, ← h.merges]
    rfl
  listed := by
    refine ⟨eq.classes, rfl, h.classes, ?_⟩
    rw [h.valid.classes_length, h.size, h.merges]
  refused call x later hx := by
    rw [← h.size] at hx ⊢
    simp only [PartitionCall.answers, perform_unknown hx]
  unnoticed call later hasks := by
    refine ⟨(eq.perform call).1, ?_⟩
    rw [PartitionCall.answers, perform_asks hasks]
  queued := by
    constructor
    · simp only [PartitionCall.answers, Equality.perform, dequeue_eq, h.pending]
    · simp only [PartitionCall.answers, Equality.perform, h.pending]
  deferred call later hqueue hlater := by
    obtain ⟨pending, hp⟩ := perform_onQueue hqueue
    refine ⟨(eq.perform call).1, ?_⟩
    rw [PartitionCall.answers, hp, answers_requeued hlater]

end Records

end Equality

end PartialHorn
