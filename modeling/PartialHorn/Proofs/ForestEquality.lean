import PartialHorn.Proofs.Forest
import PartialHorn.Proofs.PartitionCalls
import PartialHorn.Proofs.PartitionStores
import PartialHorn.Proofs.Readings
import Mathlib.Data.List.Sort

namespace PartialHorn

/-- A partition that is kept in a union-find. -/
structure ForestEquality (uf : UnionFind) where
  forest : uf.State := uf.fresh
  size : Nat := 0
  merges : Nat := 0
  pending : List Equation := []

/-- Puts an element into the class of its root. The classes stand in the order of their roots. -/
def pushMember (root x : Nat) : List (Nat × List Nat) → List (Nat × List Nat)
  | [] => [(root, [x])]
  | (key, members) :: rest =>
    if root < key then (root, [x]) :: (key, members) :: rest
    else if root = key then (key, members ++ [x]) :: rest
    else (key, members) :: pushMember root x rest

namespace ForestEquality

variable {uf : UnionFind} {α β : Type}

open Lookup

/-- A step of a call. -/
abbrev Step (uf : UnionFind) (α : Type) : Type :=
  Lookup (ForestEquality uf) α

def lookUp (x : Nat) : Step uf Nat :=
  modifyGet fun t =>
    let (r, forest) := uf.find t.forest x
    (r, { t with forest })

def check (x : Nat) : Step uf Unit := do
  let t ← get
  if x < t.size then return () else throw (.unknownElement x t.size)

/-- A new element is looked up once so that the union-find reserves it as its own root. -/
def add : Step uf Nat := do
  let t ← get
  set { t with size := t.size + 1 }
  let _ ← lookUp t.size
  return t.size

def find (x : Nat) : Step uf Nat := do
  check x
  lookUp x

def findNaive (x : Nat) : Step uf Nat := do
  check x
  let t ← get
  return uf.findNaive t.forest x

def areEqual (x y : Nat) : Step uf Bool := do
  let a ← find x
  let b ← find y
  return decide (a = b)

def link (a b : Nat) : Step uf Unit :=
  modify fun t => { t with forest := uf.union t.forest a b, merges := t.merges + 1 }

def merge (x y : Nat) : Step uf Bool := do
  let a ← find x
  let b ← find y
  if a = b then return false
  link a b
  return true

def gather (xs : List Nat) : Step uf (List (Nat × List Nat)) :=
  xs.foldlM (fun byRoot x => do
    let root ← lookUp x
    return pushMember root x byRoot) []

def classes : Step uf (List (List Nat)) := do
  let t ← get
  let byRoot ← gather (List.range t.size)
  return (byRoot.map Prod.snd).insertionSort fun first second => first.headD 0 ≤ second.headD 0

def counts : Step uf PartitionAnswer := do
  let t ← get
  return .counts t.size (t.size - t.merges) t.merges

def enqueue (e : Equation) : Step uf Unit :=
  modify fun t => { t with pending := t.pending ++ [e] }

def dequeue : Step uf (Option Equation) :=
  modifyGet fun t => (t.pending.head?, { t with pending := t.pending.tail })

def hasPending : Step uf Bool := do
  let t ← get
  return !t.pending.isEmpty

def step : PartitionCall → Step uf PartitionAnswer
  | .add => .element <$> add
  | .find x => .element <$> find x
  | .findNaive x => .element <$> findNaive x
  | .areEqual x y => .flag <$> areEqual x y
  | .merge x y => .flag <$> merge x y
  | .classes => .classes <$> classes
  | .counts => counts
  | .enqueue e => (fun _ => .done) <$> enqueue e
  | .dequeue => .equation <$> dequeue
  | .hasPending => .flag <$> hasPending

/-- Carries out a call and answers it. -/
def perform (t : ForestEquality uf) (call : PartitionCall) :
    Except ContractError PartitionAnswer × ForestEquality uf :=
  (step call).outcome t

/-- The path of every element of the forest ends in the least member of its class. -/
structure Tracks (t : ForestEquality uf) (eq : Equality) : Prop where
  valid : eq.Valid
  size : t.size = eq.size
  merges : t.merges = eq.merges
  pending : t.pending = eq.pending
  dense : (uf.parents t.forest).length = t.size
  leads : ∀ x r : Nat, eq.reps[x]? = some r → (uf.parents t.forest).Leads x r

/-- A step gives an answer and leaves a forest that tracks a partition. -/
abbrev Agrees (t : ForestEquality uf) (step : Step uf α) (answer : Except ContractError α)
    (eq : Equality) : Prop :=
  Lookup.Agrees Tracks t step answer eq

variable {t : ForestEquality uf} {eq eq' : Equality}

theorem lookUp_outcome (t : ForestEquality uf) (x : Nat) : (lookUp x).outcome t =
    (.ok (uf.find t.forest x).1, { t with forest := (uf.find t.forest x).2 }) :=
  rfl

/-- A lookup of an element answers its representative, and the paths that it shortens end where they
did. -/
theorem lookUp_agrees (lawful : uf.Lawful) (h : t.Tracks eq) {x r : Nat}
    (hx : eq.reps[x]? = some r) : t.Agrees (lookUp x) (.ok r) eq := by
  have hleads := h.leads x r hx
  have hlt : x < (uf.parents t.forest).length := by
    rw [h.dense, h.size]
    exact Equality.lt_size_of_getElem? hx
  rw [← Forest.reserved_of_lt hlt] at hleads
  have hanswer := lawful.find_answers t.forest x r hleads
  have hshort := lawful.find_shortens t.forest x r hleads
  rw [Forest.reserved_of_lt hlt] at hshort
  refine ⟨{ t with forest := (uf.find t.forest x).2 }, ?_, ?_⟩
  · rw [lookUp_outcome, hanswer]
  · exact
      { valid := h.valid
        size := h.size
        merges := h.merges
        pending := h.pending
        dense := hshort.length.trans h.dense
        leads y q hy := hshort.leads (h.leads y q hy) }

/-- The lookup of a number that is not there yet reserves it as a root. -/
theorem lookUp_grows (lawful : uf.Lawful) (h : t.Tracks eq) :
    Agrees { t with size := t.size + 1 } (lookUp t.size) (.ok eq.size) eq.grow := by
  have hreserved : (uf.parents t.forest).reserved t.size = uf.parents t.forest ++ [eq.size] := by
    rw [← h.dense, Forest.reserved_length, h.dense, h.size]
  have hnew : (uf.parents t.forest ++ [eq.size])[eq.size]? = some eq.size := by
    have hdense : (uf.parents t.forest).length = eq.size := h.dense.trans h.size
    rw [← hdense]
    exact List.getElem?_concat_length
  have hleads : ((uf.parents t.forest).reserved t.size).Leads t.size eq.size := by
    rw [hreserved, h.size]
    exact .root hnew
  have hanswer := lawful.find_answers t.forest t.size eq.size hleads
  have hshort := lawful.find_shortens t.forest t.size eq.size hleads
  rw [hreserved] at hshort
  refine ⟨{ t with forest := (uf.find t.forest t.size).2, size := t.size + 1 }, ?_, ?_⟩
  · rw [lookUp_outcome, hanswer]
  · exact
      { valid := Equality.grow_valid h.valid
        size := by rw [Equality.grow_size, h.size]
        merges := h.merges
        pending := h.pending
        dense := by rw [hshort.length, List.length_append, h.dense, List.length_singleton]
        leads := by
          intro y q hy
          apply hshort.leads
          rcases Equality.grow_getElem?_cases hy with hy | ⟨rfl, rfl⟩
          · exact (h.leads y q hy).append _
          · exact .root hnew }

theorem add_agrees (lawful : uf.Lawful) (h : t.Tracks eq) :
    t.Agrees add (.ok eq.size) eq.grow := by
  have hstep : Agrees { t with size := t.size + 1 } (do let _ ← lookUp t.size; return t.size)
      (.ok eq.size) eq.grow := by
    apply (lookUp_grows lawful h).bind
    intro t' htracks
    rw [← h.size]
    exact agrees_pure htracks t.size
  exact hstep

theorem check_outcome (t : ForestEquality uf) (x : Nat) : (check x).outcome t =
    (if x < t.size then .ok () else .error (.unknownElement x t.size), t) := by
  unfold check
  show (Lookup.outcome (if x < t.size then _ else _) t) = _
  split
  next => rfl
  next => rfl

theorem check_agrees (h : t.Tracks eq) {x : Nat} (hx : x < eq.size) :
    t.Agrees (check x) (.ok ()) eq :=
  ⟨t, by rw [check_outcome, if_pos (h.size ▸ hx)], h⟩

theorem check_refuses (h : t.Tracks eq) {x : Nat} (hx : eq.size ≤ x) :
    t.Agrees (check x) (.error (.unknownElement x eq.size)) eq :=
  ⟨t, by rw [check_outcome, h.size, if_neg (Nat.not_lt.mpr hx)], h⟩

/-- A step that is guarded by a check need only agree for an element that is there. -/
theorem checked_agrees (h : t.Tracks eq) {x : Nat} {found : Step uf Nat}
    (known : ∀ t' : ForestEquality uf, t'.Tracks eq → ∀ r, eq.reps[x]? = some r →
      t'.Agrees found (.ok r) eq) :
    t.Agrees (check x >>= fun _ => found) (eq.find x) eq := by
  by_cases hx : x < eq.size
  · rw [Equality.find_known hx]
    apply (check_agrees h hx).bind
    intro t' htracks
    exact known t' htracks _ (Equality.getElem?_root hx)
  · have hx' : eq.size ≤ x := by omega
    rw [Equality.find_unknown hx']
    exact (check_refuses h hx').refuse _

theorem find_agrees (lawful : uf.Lawful) (h : t.Tracks eq) (x : Nat) :
    t.Agrees (find x) (eq.find x) eq := by
  apply checked_agrees h
  intro t' htracks r hr
  exact lookUp_agrees lawful htracks hr

/-- The naive lookup of an element answers its representative and leaves the forest as it is. -/
theorem findNaive_outcome (lawful : uf.Lawful) (h : t.Tracks eq) (x : Nat) :
    (findNaive x).outcome t = (eq.find x, t) := by
  rw [findNaive, outcome_bind, check_outcome, h.size]
  by_cases hx : x < eq.size
  · have hanswer := lawful.findNaive_answers t.forest x _ (h.leads x _ (Equality.getElem?_root hx))
    rw [if_pos hx, Equality.find_known hx, ← hanswer]
    rfl
  · rw [if_neg hx, Equality.find_unknown (Nat.not_lt.mp hx)]

theorem findNaive_agrees (lawful : uf.Lawful) (h : t.Tracks eq) (x : Nat) :
    t.Agrees (findNaive x) (eq.find x) eq :=
  ⟨t, findNaive_outcome lawful h x, h⟩

theorem areEqual_agrees (lawful : uf.Lawful) (h : t.Tracks eq) (x y : Nat) :
    t.Agrees (areEqual x y) (eq.areEqual x y) eq := by
  apply (find_agrees lawful h x).andThen
  intro a t' htracks
  apply (find_agrees lawful htracks y).andThen
  intro b t'' htracks'
  exact agrees_pure htracks' (decide (a = b))

theorem link_agrees (lawful : uf.Lawful) (h : t.Tracks eq) {a b : Nat}
    (ha : eq.reps[a]? = some a) (hb : eq.reps[b]? = some b) (hne : a ≠ b) :
    t.Agrees (link a b) (.ok ()) (eq.link a b) := by
  have hroot := (h.leads a a ha).isRoot
  have hroot' := (h.leads b b hb).isRoot
  have hshort := lawful.union_links t.forest a b hroot hroot' hne
  refine ⟨_, rfl, ?_⟩
  exact
    { valid := Equality.link_valid h.valid ha hb hne
      size := by rw [Equality.link_size, h.size]
      merges := congrArg (· + 1) h.merges
      pending := h.pending
      dense := by
        rw [hshort.length, Forest.linked, List.length_set]
        exact h.dense
      leads := by
        intro x r hx
        rw [Equality.link_getElem?] at hx
        obtain ⟨p, hp, rfl⟩ := Option.map_eq_some_iff.mp hx
        exact hshort.leads ((h.leads x p hp).linked hroot hroot' hne) }

theorem merge_agrees (lawful : uf.Lawful) (h : t.Tracks eq) (x y : Nat) :
    t.Agrees (merge x y) (eq.merging x y).1 (eq.merging x y).2 := by
  have hfind := find_agrees lawful h x
  have hfind' : ∀ t' : ForestEquality uf, t'.Tracks eq → t'.Agrees (find y) (eq.find y) eq :=
    fun t' htracks => find_agrees lawful htracks y
  cases hx : eq.find x with
  | error error =>
    have hmerging : eq.merging x y = (.error error, eq) := by
      simp only [Equality.merging, Equality.merge, hx]
      rfl
    rw [hx] at hfind
    rw [hmerging]
    exact hfind.refuse _
  | ok a =>
    rw [hx] at hfind
    cases hy : eq.find y with
    | error error =>
      have hmerging : eq.merging x y = (.error error, eq) := by
        simp only [Equality.merging, Equality.merge, hx, hy]
        rfl
      rw [hy] at hfind'
      rw [hmerging]
      apply hfind.bind
      intro t' htracks
      exact (hfind' t' htracks).refuse _
    | ok b =>
      rw [hy] at hfind'
      rw [Equality.merging_known hx hy]
      apply hfind.bind
      intro t' htracks
      apply (hfind' t' htracks).bind
      intro t'' htracks'
      by_cases hne : a = b
      · rw [if_pos hne, if_pos hne]
        exact agrees_pure htracks' false
      · have ha := h.valid.fixed x a (Equality.find_eq_ok_iff.mp hx)
        have hb := h.valid.fixed y b (Equality.find_eq_ok_iff.mp hy)
        rw [if_neg hne, if_neg hne]
        apply (link_agrees lawful htracks' ha hb hne).bind
        intro last htracks''
        exact agrees_pure htracks'' true

section Gather

/-- The elements below a bound by the roots of their classes. -/
def buckets (eq : Equality) (n : Nat) : List (Nat × List Nat) :=
  ((List.range n).filter eq.isRepresentative).map fun r =>
    (r, positions (· == r) (eq.reps.take n))

theorem pushMember_mem {keys : List Nat} (sorted : keys.Pairwise (· < ·)) {root : Nat}
    (h : root ∈ keys) (members : Nat → List Nat) (x : Nat) :
    pushMember root x (keys.map fun key => (key, members key)) =
      keys.map fun key => (key, if key = root then members key ++ [x] else members key) := by
  induction keys with
  | nil => simp at h
  | cons key keys ih =>
    obtain ⟨above, hkeys⟩ := List.pairwise_cons.mp sorted
    simp only [List.map_cons, pushMember]
    rcases List.mem_cons.mp h with rfl | hmem
    · have hrest : ∀ k ∈ keys, (k, members k) =
          (k, if k = root then members k ++ [x] else members k) := by
        intro k hk
        have := above k hk
        rw [if_neg (by omega)]
      rw [if_neg (Nat.lt_irrefl root), if_pos rfl, if_pos rfl, List.map_congr_left hrest]
    · have hlt := above root hmem
      rw [if_neg (by omega), if_neg (by omega), if_neg (by omega), ih hkeys hmem]

theorem pushMember_new {keys : List Nat} {root : Nat} (h : ∀ key ∈ keys, key < root)
    (members : Nat → List Nat) (x : Nat) :
    pushMember root x (keys.map fun key => (key, members key)) =
      (keys.map fun key => (key, members key)) ++ [(root, [x])] := by
  induction keys with
  | nil => rfl
  | cons key keys ih =>
    have hlt := h key (by simp)
    simp only [List.map_cons, pushMember]
    rw [if_neg (by omega), if_neg (by omega), ih fun k hk => h k (List.mem_cons_of_mem key hk)]
    rfl

theorem positions_eq_nil {p : Nat → Bool} {xs : List Nat} (h : ∀ x ∈ xs, p x = false) :
    positions p xs = [] := by
  apply List.eq_nil_iff_forall_not_mem.mpr
  intro i hi
  obtain ⟨x, hx, hp⟩ := mem_positions.mp hi
  rw [h x (List.mem_of_getElem? hx)] at hp
  exact absurd hp (by decide)

/-- A root opens a class at the end; any other element joins the class of its root. -/
theorem pushMember_buckets (valid : eq.Valid) {n r : Nat} (hn : eq.reps[n]? = some r) :
    pushMember r n (buckets eq n) = buckets eq (n + 1) := by
  have hlength : (eq.reps.take n).length = n :=
    List.length_take_of_le (Nat.le_of_lt (Equality.lt_size_of_getElem? hn))
  have htake : eq.reps.take (n + 1) = eq.reps.take n ++ [r] := by
    rw [List.take_add_one, hn, Option.toList_some]
  have hmembers : ∀ key, positions (· == key) (eq.reps.take (n + 1)) =
      positions (· == key) (eq.reps.take n) ++ if r = key then [n] else [] := by
    intro key
    rw [htake, positions_concat, hlength]
    simp only [beq_iff_eq]
  have hkeys : ∀ key ∈ (List.range n).filter eq.isRepresentative, key < n := fun key hkey =>
    List.mem_range.mp (List.mem_filter.mp hkey).1
  have hrange : List.range (n + 1) = List.range n ++ [n] := List.range_succ
  by_cases he : r = n
  · subst he
    have hrep : eq.isRepresentative r = true := Equality.isRepresentative_iff.mpr hn
    have hfresh : positions (· == r) (eq.reps.take r) = [] := by
      apply positions_eq_nil
      intro q hq
      obtain ⟨y, hy, rfl⟩ := List.mem_take_iff_getElem.mp hq
      have hle := valid.le y _ (List.getElem?_eq_getElem (by omega))
      simp only [beq_eq_false_iff_ne]
      omega
    rw [buckets, pushMember_new hkeys, buckets, hrange, List.filter_append, List.map_append]
    congr 1
    · apply List.map_congr_left
      intro key hkey
      have := hkeys key hkey
      rw [hmembers, if_neg (by omega), List.append_nil]
    · simp [hrep, hmembers, hfresh]
  · have hle := valid.le n r hn
    have hrep : eq.isRepresentative n = false := by
      rw [Bool.eq_false_iff, Ne, Equality.isRepresentative_iff, hn]
      exact fun h => he (Option.some.inj h)
    have hroot : r ∈ (List.range n).filter eq.isRepresentative := by
      rw [List.mem_filter, List.mem_range, Equality.isRepresentative_iff]
      exact ⟨by omega, valid.fixed n r hn⟩
    rw [buckets, pushMember_mem (List.pairwise_lt_range.filter _) hroot, buckets, hrange,
      List.filter_append]
    simp only [List.filter_cons, hrep, List.filter_nil, Bool.false_eq_true, if_false,
      List.append_nil]
    apply List.map_congr_left
    intro key _
    rw [hmembers]
    by_cases hk : key = r
    · rw [if_pos hk, if_pos hk.symm]
    · rw [if_neg hk, if_neg (Ne.symm hk), List.append_nil]

theorem gather_agrees (lawful : uf.Lawful) (h : t.Tracks eq) {n : Nat} (hn : n ≤ eq.size) :
    t.Agrees (gather (List.range n)) (.ok (buckets eq n)) eq := by
  induction n with
  | zero => exact agrees_pure h []
  | succ n ih =>
    have hlast := Equality.getElem?_root (show n < eq.size by omega)
    unfold gather at ih ⊢
    rw [List.range_succ, List.foldlM_append]
    apply (ih (by omega)).bind
    intro t' htracks
    rw [List.foldlM_cons]
    simp only [List.foldlM_nil, bind_pure]
    apply (lookUp_agrees lawful htracks hlast).bind
    intro t'' htracks'
    rw [pushMember_buckets h.valid hlast]
    exact agrees_pure htracks' _

theorem members_head (valid : eq.Valid) {r : Nat} (hr : eq.reps[r]? = some r) :
    (eq.members r).headD 0 = r := by
  have hsorted : (eq.members r).Pairwise (· < ·) := positions_pairwise _ _
  have hmem := Equality.mem_members.mpr hr
  have hle : ∀ x ∈ eq.members r, r ≤ x := fun x hx => valid.le x r (Equality.mem_members.mp hx)
  cases hm : eq.members r with
  | nil => simp [hm] at hmem
  | cons x xs =>
    rw [hm] at hsorted hmem hle
    have hrx := hle x (by simp)
    rcases List.mem_cons.mp hmem with he | hxs
    · exact he.symm
    · have hxr := (List.pairwise_cons.mp hsorted).1 r hxs
      omega

/-- The classes come in the order of their roots, so sorting by the least members leaves them as
they are. -/
theorem classes_agrees (lawful : uf.Lawful) (h : t.Tracks eq) :
    t.Agrees classes (.ok eq.classes) eq := by
  have hclasses : (buckets eq eq.size).map Prod.snd = eq.classes := by
    rw [buckets, List.map_map, Equality.classes_eq]
    apply List.map_congr_left
    intro r _
    show positions (· == r) (eq.reps.take eq.size) = eq.members r
    rw [Equality.size, List.take_length]
    rfl
  have hsorted : eq.classes.Pairwise fun first second => first.headD 0 ≤ second.headD 0 := by
    rw [Equality.classes_eq, List.pairwise_map]
    apply (List.Pairwise.and_mem.mp (Equality.roots_pairwise eq)).imp
    intro a b h'
    obtain ⟨ha, hb, hlt⟩ := h'
    rw [members_head h.valid (Equality.mem_roots.mp ha),
      members_head h.valid (Equality.mem_roots.mp hb)]
    exact Nat.le_of_lt hlt
  apply agrees_get
  rw [h.size]
  apply (gather_agrees lawful h (Nat.le_refl _)).bind
  intro t' htracks
  rw [hclasses, hsorted.insertionSort_eq]
  exact agrees_pure htracks eq.classes

end Gather

/-- The forest knows nothing of the queue. -/
theorem Tracks.requeued (h : t.Tracks eq) (pending : List Equation) :
    Tracks { t with pending } { eq with pending } where
  valid := ⟨h.valid.le, h.valid.fixed, h.valid.counted⟩
  size := h.size
  merges := h.merges
  pending := rfl
  dense := h.dense
  leads := h.leads

theorem enqueue_agrees (h : t.Tracks eq) (e : Equation) :
    t.Agrees (enqueue e) (.ok ()) (eq.enqueue e) := by
  refine ⟨{ t with pending := t.pending ++ [e] }, rfl, ?_⟩
  rw [h.pending]
  exact h.requeued (eq.pending ++ [e])

theorem dequeue_agrees (h : t.Tracks eq) :
    t.Agrees dequeue (.ok eq.pending.head?) { eq with pending := eq.pending.tail } := by
  refine ⟨{ t with pending := t.pending.tail }, ?_, ?_⟩
  · rw [← h.pending]
    rfl
  · rw [h.pending]
    exact h.requeued eq.pending.tail

/-- Every call gives the answer that it has on the partition. -/
theorem perform_agrees (lawful : uf.Lawful) (h : t.Tracks eq) (call : PartitionCall) :
    t.Agrees (step call) (eq.perform call).1 (eq.perform call).2 := by
  cases call with
  | add => exact (add_agrees lawful h).map _
  | find x => exact (find_agrees lawful h x).map _
  | findNaive x => exact (findNaive_agrees lawful h x).map _
  | areEqual x y => exact (areEqual_agrees lawful h x y).map _
  | merge x y =>
    have hmerge := (merge_agrees lawful h x y).map PartitionAnswer.flag
    simp only [Equality.merging] at hmerge
    simp only [Equality.perform]
    cases hxy : eq.merge x y with
    | error error =>
      rw [hxy] at hmerge
      exact hmerge
    | ok one =>
      rw [hxy] at hmerge
      exact hmerge
  | classes => exact (classes_agrees lawful h).map _
  | counts =>
    apply agrees_get
    rw [h.size, h.merges]
    exact agrees_pure h _
  | enqueue e => exact (enqueue_agrees h e).map _
  | dequeue =>
    simp only [Equality.perform, Equality.dequeue_eq]
    exact (dequeue_agrees h).map _
  | hasPending =>
    have hpending : t.Agrees hasPending (.ok (!eq.pending.isEmpty)) eq := by
      apply agrees_get
      rw [h.pending]
      exact agrees_pure h _
    exact hpending.map _

/-- The answers to any calls are those of the partition, and the forest tracks it all along. -/
theorem answers_eq (lawful : uf.Lawful) (h : t.Tracks eq) (calls : List PartitionCall) :
    PartitionCall.answers perform t calls = PartitionCall.answers Equality.perform eq calls := by
  induction calls generalizing t eq with
  | nil => rfl
  | cons call calls ih =>
    obtain ⟨t', hstep, htracks⟩ := perform_agrees lawful h call
    have hperform : t.perform call = ((eq.perform call).1, t') := hstep
    simp only [PartitionCall.answers, hperform, ih htracks]

theorem after_tracks (lawful : uf.Lawful) (h : t.Tracks eq) (calls : List PartitionCall) :
    (PartitionCall.after perform t calls).Tracks (PartitionCall.after Equality.perform eq calls) := by
  induction calls generalizing t eq with
  | nil => exact h
  | cons call calls ih =>
    obtain ⟨t', hstep, htracks⟩ := perform_agrees lawful h call
    have hperform : t.perform call = ((eq.perform call).1, t') := hstep
    simp only [PartitionCall.after, List.foldl_cons, hperform] at ih ⊢
    exact ih htracks

def fresh (uf : UnionFind) : ForestEquality uf :=
  {}

theorem fresh_tracks (lawful : uf.Lawful) : (fresh uf).Tracks {} where
  valid := Equality.empty_valid
  size := rfl
  merges := rfl
  pending := rfl
  dense := by
    show (uf.parents uf.fresh).length = 0
    rw [lawful.fresh]
    rfl
  leads x r h := by simp at h

instance instPartitionStore : PartitionStore (ForestEquality uf) where
  size t := t.size
  merges t := t.merges
  grow t := (add.outcome t).2
  find := find
  areEqual := areEqual
  merge := merge
  classes := classes
  enqueue := enqueue
  dequeue := dequeue
  queued t := t.pending.length

/-- A forest in a lawful union-find is a lawful store. -/
theorem models (lawful : uf.Lawful) : PartitionStore.Models (@Tracks uf) where
  size h := h.size
  merges h := h.merges
  queued h := congrArg List.length h.pending
  grow h := by
    obtain ⟨t', hout, htracks⟩ := add_agrees lawful h
    show Tracks (add.outcome _).2 _
    rw [hout]
    exact htracks
  find x h := find_agrees lawful h x
  areEqual x y h := areEqual_agrees lawful h x y
  merge x y h := merge_agrees lawful h x y
  classes h := classes_agrees lawful h
  enqueue e h := enqueue_agrees h e
  dequeue h := by
    rw [Equality.dequeue_eq]
    exact dequeue_agrees h

end ForestEquality

open ForestEquality in
/-- A partition that is kept in a forest implements the equivalence that its merges generate: the
paths that its lookups shorten are never seen, and after any calls it answers whatever comes next as
the recorded equivalence does. -/
theorem forest_generates_equivalence {uf : UnionFind} (lawful : uf.Lawful)
    (calls : List PartitionCall) :
    PartitionCall.answers perform (fresh uf) calls = PartitionCall.answers Equality.perform {} calls ∧
      Partitions (PartitionCall.answers perform (PartitionCall.after perform (fresh uf) calls))
        (MergeRecord.along {} calls (PartitionCall.answers perform (fresh uf) calls)) ∧
      Partitions
        (PartitionCall.answers Equality.perform (PartitionCall.after Equality.perform {} calls))
        (MergeRecord.along {} calls (PartitionCall.answers Equality.perform {} calls)) := by
  have hfresh := fresh_tracks lawful
  have hsame := answers_eq lawful hfresh calls
  have hlater : PartitionCall.answers perform (PartitionCall.after perform (fresh uf) calls) =
      PartitionCall.answers Equality.perform (PartitionCall.after Equality.perform {} calls) :=
    funext fun later => answers_eq lawful (after_tracks lawful hfresh calls) later
  have hrecords := (Equality.Records.initial.along calls).partitions
  refine ⟨hsame, ?_, hrecords⟩
  rw [hlater, hsame]
  exact hrecords

/-- Merges that build a path of three steps, a lookup that halves it, and calls that are refused. -/
def pathCalls : List PartitionCall :=
  [.add, .add, .add, .add, .merge 2 3, .merge 2 1, .merge 0 1, .find 3, .findNaive 3, .merge 1 3,
    .merge 1 4, .find 5, .enqueue ⟨0, 3, 7⟩, .classes]

def pathAnswers : List (Except ContractError PartitionAnswer) :=
  [.ok (.element 0), .ok (.element 1), .ok (.element 2), .ok (.element 3), .ok (.flag true),
    .ok (.flag true), .ok (.flag true), .ok (.element 0), .ok (.element 0), .ok (.flag false),
    .error (.unknownElement 4 4), .error (.unknownElement 5 4), .ok .done,
    .ok (.classes [[0, 1, 2, 3]])]

open ForestEquality in
theorem forest_generates_equivalence_path :
    UnionFind.halving.Lawful ∧
      PartitionCall.answers perform (fresh .halving) pathCalls = pathAnswers ∧
      Partitions (PartitionCall.answers perform (PartitionCall.after perform (fresh .halving) pathCalls))
        { size := 4
          merged := [(2, 3), (2, 1), (0, 1), (1, 3)]
          effective := 3
          queue := [⟨0, 3, 7⟩] } := by
  have hanswers : PartitionCall.answers perform (fresh .halving) pathCalls = pathAnswers := by rfl
  have hpath := forest_generates_equivalence UnionFind.halving_lawful pathCalls
  have hpartitions := hpath.2.1
  rw [hanswers] at hpartitions
  exact ⟨UnionFind.halving_lawful, hanswers, hpartitions⟩

end PartialHorn
