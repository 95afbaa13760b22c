import PartialHorn.Proofs.Quotient
import PartialHorn.Proofs.Universality
import Mathlib.Data.Set.Function

namespace PartialHorn

def Row.map (f : Nat → Nat) (row : Row) : Row :=
  ⟨row.args.map f, f row.result⟩

namespace Structure

/-- A map of representatives is an isomorphism of two structures that have grown out of a third one:
it is a bijection, it respects sorts and the old elements, and it maps rows exactly onto rows and
tuples exactly onto tuples. -/
structure Isomorphism (s a b : Structure) (f : Nat → Nat) : Prop where
  bijective : Set.BijOn f {x | a.equality.reps[x]? = some x} {y | b.equality.reps[y]? = some y}
  sorts : ∀ x, a.equality.reps[x]? = some x → b.sorts[f x]? = a.sorts[x]?
  keeps : ∀ x, x < s.size → f (a.equality.root x) = b.equality.root x
  operations : List.Forall₂ (fun (table table' : OperationTable) =>
    (table.rows.map (Row.map f)).Perm table'.rows) a.operations b.operations
  predicates : List.Forall₂ (fun (table table' : PredicateTable) =>
    (table.rows.map (List.map f)).Perm table'.rows) a.predicates b.predicates

/-- A map that takes what the first structure says to the second one, with representatives as its
values, and that another map undoes up to equality. -/
structure Retracts (a b : Structure) (f g : Nat → Nat) : Prop where
  fixed : ∀ x, x < a.size → b.equality.reps[f x]? = some (f x)
  sorts : ∀ x, x < a.size → b.sorts[f x]? = a.sorts[x]?
  rows : ∀ op row, a.HasRow op row → b.HasRow op (row.map f)
  tuples : ∀ pred tuple, a.HasTuple pred tuple → b.HasTuple pred (tuple.map f)
  back : ∀ x, x < a.size → g (f x) = a.equality.root x

namespace Retracts

variable {s a b : Structure} {f g : Nat → Nat} (there : Retracts a b f g) (valid : a.Valid)

include there

theorem tuple_back {xs : List Nat} (hlt : ∀ x ∈ xs, x < a.size) :
    (xs.map f).map g = xs.map a.equality.root := by
  rw [List.map_map]
  exact List.map_congr_left fun x hx => there.back x (hlt x hx)

include valid

theorem row_back (clean : a.dirty = false) {op : Nat} {row : Row} (h : a.HasRow op row) :
    (row.map f).map g = row := by
  have hlt := valid.row_lt h
  calc (row.map f).map g = ⟨(row.args.map f).map g, g (f row.result)⟩ := rfl
    _ = a.equality.canonical row := by
      rw [there.tuple_back hlt.1, there.back _ hlt.2]
      rfl
    _ = row := valid.rowCanonical clean op row h

theorem back_of_fixed {x : Nat} (hx : a.equality.reps[x]? = some x) : g (f x) = x :=
  (there.back x (valid.tracked ▸ Equality.lt_size_of_getElem? hx)).trans
    (Equality.root_eq_of_getElem? hx)

theorem fixed_of_fixed {x : Nat} (hx : a.equality.reps[x]? = some x) :
    b.equality.reps[f x]? = some (f x) :=
  there.fixed x (valid.tracked ▸ Equality.lt_size_of_getElem? hx)

section Both

variable (here : Retracts b a g f) (valid' : b.Valid)

include here valid'

theorem bijOn : Set.BijOn f {x | a.equality.reps[x]? = some x} {y | b.equality.reps[y]? = some y} := by
  have inverse : Set.InvOn g f {x | a.equality.reps[x]? = some x} {y | b.equality.reps[y]? = some y} :=
    ⟨fun _ hx => there.back_of_fixed valid hx, fun _ hy => here.back_of_fixed valid' hy⟩
  exact inverse.bijOn (fun _ hx => there.fixed_of_fixed valid hx) fun _ hy =>
    here.fixed_of_fixed valid' hy

section Clean

variable (clean : a.dirty = false) (clean' : b.dirty = false)

include clean clean'

theorem rows_perm {op : Nat} {table table' : OperationTable} (ht : a.operations[op]? = some table)
    (ht' : b.operations[op]? = some table') : (table.rows.map (Row.map f)).Perm table'.rows := by
  have hnodup : table.rows.Nodup := (valid.keyed table (List.mem_of_getElem? ht)).of_map
  have hnodup' : table'.rows.Nodup := (valid'.keyed table' (List.mem_of_getElem? ht')).of_map
  refine perm_of_inverse hnodup hnodup' (g := Row.map g) ?_ ?_ ?_ ?_
  · exact fun row hrow => there.row_back valid clean ⟨table, ht, hrow⟩
  · exact fun row hrow => here.row_back valid' clean' ⟨table', ht', hrow⟩
  · exact fun row hrow =>
      (Structure.hasRow_iff ht').mp (there.rows op row ⟨table, ht, hrow⟩)
  · exact fun row hrow =>
      (Structure.hasRow_iff ht).mp (here.rows op row ⟨table', ht', hrow⟩)

theorem tuples_perm {pred : Nat} {table table' : PredicateTable}
    (ht : a.predicates[pred]? = some table) (ht' : b.predicates[pred]? = some table') :
    (table.rows.map (List.map f)).Perm table'.rows := by
  have hnodup := PredicateTable.rows_nodup (valid.unrepeated table (List.mem_of_getElem? ht))
  have hnodup' := PredicateTable.rows_nodup (valid'.unrepeated table' (List.mem_of_getElem? ht'))
  refine perm_of_inverse hnodup hnodup' (g := List.map g) ?_ ?_ ?_ ?_
  · intro tuple htuple
    have hback := there.tuple_back (valid.tuple_lt ⟨table, ht, htuple⟩)
    exact hback.trans (valid.tupleCanonical clean pred tuple ⟨table, ht, htuple⟩)
  · intro tuple htuple
    have hback := here.tuple_back (valid'.tuple_lt ⟨table', ht', htuple⟩)
    exact hback.trans (valid'.tupleCanonical clean' pred tuple ⟨table', ht', htuple⟩)
  · exact fun tuple htuple =>
      (Structure.hasTuple_iff_mem ht').mp (there.tuples pred tuple ⟨table, ht, htuple⟩)
  · exact fun tuple htuple =>
      (Structure.hasTuple_iff_mem ht).mp (here.tuples pred tuple ⟨table', ht', htuple⟩)

theorem isomorphism (hsig : a.signature = b.signature)
    (keeps : ∀ x, x < s.size → f (a.equality.root x) = b.equality.root x) :
    Isomorphism s a b f where
  bijective := there.bijOn valid here valid'
  sorts x hx := there.sorts x (valid.tracked ▸ Equality.lt_size_of_getElem? hx)
  keeps := keeps
  operations := by
    refine forall₂_of_getElem? ?_ fun op table table' ht ht' => ?_
    · rw [← valid.operationArities.length_eq, ← valid'.operationArities.length_eq, hsig]
    · exact there.rows_perm valid here valid' clean clean' ht ht'
  predicates := by
    refine forall₂_of_getElem? ?_ fun pred table table' ht ht' => ?_
    · rw [← valid.predicateArities.length_eq, ← valid'.predicateArities.length_eq, hsig]
    · exact there.tuples_perm valid here valid' clean clean' ht ht'

end Clean

end Both

end Retracts

/-- The representative of the class to which a map takes an element. -/
def along {b : Structure} (p : List b.Class) (x : Nat) : Nat :=
  (names (image p) x).getD x

section Along

variable {sig : Signature} {C : Type*} {M : Interpretation sig C} {a b : Structure}
  (valid' : b.Valid) (hsig : b.signature = sig) {p : List b.Class}

theorem along_of_image {x : Nat} {c : b.Class} (hc : image p x = some c) : along p x = c.val := by
  rw [along, names_some hc, Option.getD_some]

theorem along_of_reads {xs : List Nat} {cs : List b.Class} (hcs : (image p).Reads xs cs) :
    xs.map (along p) = cs.map Class.val :=
  map_eq_of_forall₂ (List.forall₂_map_right_iff.mpr (hcs.imp fun _ _ => along_of_image))

theorem Maps.retracts (maps : a.Maps (quotient valid' hsig) p) {g : Nat → Nat}
    (back : ∀ x, x < a.size → g (along p x) = a.equality.root x) : Retracts a b (along p) g where
  fixed x hx := by
    obtain ⟨c, hc⟩ := maps.image_some hx
    rw [along_of_image hc]
    exact c.fixed
  sorts x hx := by
    obtain ⟨c, hc⟩ := maps.image_some hx
    rw [along_of_image hc, c.sort_val valid']
    exact (maps.sort hc).symm
  rows op row hrow := by
    obtain ⟨cs, c, hcs, hc, hvalue⟩ := maps.rows op row hrow
    rw [Row.map, along_of_reads hcs, along_of_image hc]
    exact (quotient_apply valid' hsig).mp hvalue
  tuples pred tuple ht := by
    obtain ⟨cs, hcs, hholds⟩ := maps.tuples pred tuple ht
    rw [along_of_reads hcs]
    exact hholds
  back := back

theorem Maps.comp (valid : a.Valid) (maps : a.Maps (quotient valid' hsig) p) {q : List C}
    (maps' : b.Maps M q) :
    ∃ r, a.Maps M r ∧ ∀ x c, image p x = some c → image r x = image q c.val := by
  have himages : ∀ c ∈ p, ∃ m, image q c.val = some m := fun c _ => maps'.image_some (c.val_lt valid')
  obtain ⟨r, hr⟩ := forall₂_exists himages
  have hfollow : ∀ x c, image p x = some c → image r x = image q c.val := by
    intro x c hc
    obtain ⟨m, hm, hcm⟩ := forall₂_getElem? hr hc
    exact Eq.trans hm hcm.symm
  have hreads : ∀ xs cs ms, (image p).Reads xs cs → (image q).Reads (cs.map Class.val) ms →
      (image r).Reads xs ms := by
    intro xs cs ms hcs hms
    have step : ∀ x c m, image p x = some c → image q c.val = some m → image r x = some m :=
      fun x c m hc hm => (hfollow x c hc).trans hm
    exact forall₂_trans step hcs (List.forall₂_map_left_iff.mp hms)
  refine ⟨r, ⟨?_, fun x y he => ?_, fun op row hrow => ?_, fun pred tuple ht => ?_⟩, hfollow⟩
  · have hsorts : List.Forall₂ (fun m c => M.sort m = (quotient valid' hsig).sort c) r p := by
      refine forall₂_swap (fun c m hm => ?_) hr
      have hsort := maps'.sort hm
      rw [c.sort_val valid'] at hsort
      exact (Option.some.inj hsort).symm
    rw [map_eq_of_forall₂ (List.forall₂_map_right_iff.mpr hsorts), maps.sorts]
  · obtain ⟨c, hc⟩ := maps.image_some (valid.lt_size he)
    rw [hfollow x c hc, hfollow y c ((maps.equal x y he).symm.trans hc)]
  · obtain ⟨cs, c, hcs, hc, hvalue⟩ := maps.rows op row hrow
    obtain ⟨ms, m, hms, hm, happ⟩ := maps'.rows op _ ((quotient_apply valid' hsig).mp hvalue)
    exact ⟨ms, m, hreads _ _ _ hcs hms, (hfollow _ _ hc).trans hm, happ⟩
  · obtain ⟨cs, hcs, hholds⟩ := maps.tuples pred tuple ht
    obtain ⟨ms, hms, hholds'⟩ := maps'.tuples pred _ hholds
    exact ⟨ms, hreads _ _ _ hcs hms, hholds'⟩

end Along

/-- A map that extends the canonical map of a common part takes the elements of that part to their
classes. -/
theorem image_of_old {s b : Structure} (valid : b.Valid) (grows : s.Grows b) {p : List b.Class}
    (hp : (roots valid).take s.size <+: p) {x : Nat} (hx : x < s.size) :
    image p x = some (Class.of valid x (Nat.lt_of_lt_of_le hx grows.size)) := by
  obtain ⟨rest, rfl⟩ := hp
  refine image_append ?_ rest
  rw [image_take hx]
  exact image_roots valid _

section Inverse

variable {sig : Signature} {s a b : Structure} (valid : s.Valid) (valid' : a.Valid)
  (valid'' : b.Valid) (clean : a.dirty = false) (hsig : a.signature = sig)
  (hsig' : b.signature = sig) (grows : s.Grows b) {p : List b.Class} {q : List a.Class}

omit valid valid'' clean hsig hsig' grows in
/-- Two maps undo each other if one after the other they make the canonical map. -/
theorem along_of_comp {M : Interpretation sig b.Class} (maps : a.Maps M p)
    (hfollow : ∀ x c, image p x = some c → image (roots valid') x = image q c.val) {x : Nat}
    (hx : x < a.size) : along q (along p x) = a.equality.root x := by
  obtain ⟨c, hc⟩ := maps.image_some hx
  have himage := hfollow x c hc
  rw [image_roots valid' hx] at himage
  rw [along_of_image hc, along_of_image himage.symm]
  rfl

include valid clean grows

/-- Two maps that extend the canonical maps of a common part undo each other: one after the other
they extend the canonical map to the first structure, which is the only such extension. -/
theorem along_along (free : Free (quotient valid' hsig) s a)
    (hp : (roots valid'').take s.size <+: p) (maps : a.Maps (quotient valid'' hsig') p)
    (hq : (roots valid').take s.size <+: q) (maps' : b.Maps (quotient valid' hsig) q) {x : Nat}
    (hx : x < a.size) : along q (along p x) = a.equality.root x := by
  have hroots := roots_maps valid' hsig clean
  have hold := hroots.restrict valid free.grows
  obtain ⟨r, hr, hfollow⟩ := maps.comp valid'' hsig' valid' maps'
  -- Where both maps are canonical, the composite is, since the second one respects the classes.
  have hold' : (roots valid').take s.size <+: r := by
    refine List.prefix_iff_getElem?.mpr fun y hy => ?_
    have hlt : y < s.size := hold.length ▸ hy
    have hroot := valid''.equal_root (Nat.lt_of_lt_of_le hlt grows.size)
    rw [← List.getElem?_eq_getElem hy]
    calc image r y = image q (b.equality.root y) := hfollow y _ (image_of_old valid'' grows hp hlt)
      _ = image q y := (maps'.equal _ _ hroot).symm
      _ = image (roots valid') y := (image_of_old valid' free.grows hq hlt).trans (image_roots ..).symm
      _ = image ((roots valid').take s.size) y := (image_take hlt).symm
  obtain ⟨_, _, hunique⟩ := free.extends_unique _ hold
  have he : r = roots valid' :=
    (hunique r ⟨hold', hr⟩).trans (hunique _ ⟨List.take_prefix _ _, hroots⟩).symm
  exact along_of_comp valid' maps (he ▸ hfollow) hx

end Inverse

/-- Two structures that have grown freely out of a third one, in view of the quotient of either, are
isomorphic over it. -/
theorem isomorphic_of_free {sig : Signature} {s a b : Structure} (hs : s.Valid) (valid : a.Valid)
    (valid' : b.Valid) (clean : a.dirty = false) (clean' : b.dirty = false)
    (hsig : a.signature = sig) (hsig' : b.signature = sig)
    (haa : Free (quotient valid hsig) s a) (hab : Free (quotient valid' hsig') s a)
    (hba : Free (quotient valid hsig) s b) (hbb : Free (quotient valid' hsig') s b) :
    ∃ f, Isomorphism s a b f := by
  have hroots := (roots_maps valid hsig clean).restrict hs haa.grows
  have hroots' := (roots_maps valid' hsig' clean').restrict hs hbb.grows
  obtain ⟨p, ⟨hp, maps⟩, _⟩ := hab.extends_unique _ hroots'
  obtain ⟨q, ⟨hq, maps'⟩, _⟩ := hba.extends_unique _ hroots
  have there : Retracts a b (along p) (along q) := maps.retracts valid' hsig' fun x hx =>
    along_along hs valid valid' clean hsig hsig' hbb.grows haa hp maps hq maps' hx
  have here : Retracts b a (along q) (along p) := maps'.retracts valid hsig fun y hy =>
    along_along hs valid' valid clean' hsig' hsig haa.grows hbb hq maps' hp maps hy
  refine ⟨along p, there.isomorphism valid here valid' clean clean' (hsig.trans hsig'.symm) ?_⟩
  intro x hx
  have hlt := Nat.lt_of_lt_of_le hx haa.grows.size
  have himage := (maps.equal _ _ (valid.equal_root hlt)).symm.trans (image_of_old valid' hbb.grows hp hx)
  exact along_of_image himage

section Count

variable {s a b : Structure} {f : Nat → Nat} (iso : Isomorphism s a b f)

include iso

theorem Isomorphism.equal_iff (grows : s.Grows a) (grows' : s.Grows b) (valid : a.Valid)
    (valid' : b.Valid) {x y : Nat} (hx : x < s.size) (hy : y < s.size) : a.Equal x y ↔ b.Equal x y := by
  have hx₁ : x < a.equality.size := valid.tracked ▸ Nat.lt_of_lt_of_le hx grows.size
  have hy₁ : y < a.equality.size := valid.tracked ▸ Nat.lt_of_lt_of_le hy grows.size
  have hx₂ : x < b.equality.size := valid'.tracked ▸ Nat.lt_of_lt_of_le hx grows'.size
  have hy₂ : y < b.equality.size := valid'.tracked ▸ Nat.lt_of_lt_of_le hy grows'.size
  refine (Equality.same_iff_root hx₁ hy₁).trans (Iff.trans ?_ (Equality.same_iff_root hx₂ hy₂).symm)
  rw [← iso.keeps x hx, ← iso.keeps y hy]
  refine ⟨congrArg f, iso.bijective.injOn ?_ ?_⟩
  · exact valid.partition.fixed x _ (Equality.getElem?_root hx₁)
  · exact valid.partition.fixed y _ (Equality.getElem?_root hy₁)

theorem Isomorphism.rootCount_eq : a.equality.rootCount = b.equality.rootCount := by
  have hmem : ∀ (eq : Equality) (x : Nat),
      x ∈ (List.range eq.size).filter eq.isRepresentative ↔ eq.reps[x]? = some x := by
    intro eq x
    rw [List.mem_filter, List.mem_range, Equality.isRepresentative_iff]
    exact ⟨And.right, fun h => ⟨Equality.lt_size_of_getElem? h, h⟩⟩
  have hnodup : ∀ eq : Equality, ((List.range eq.size).filter eq.isRepresentative).Nodup :=
    fun _ => List.nodup_range.filter _
  have hperm : (((List.range a.equality.size).filter a.equality.isRepresentative).map f).Perm
      ((List.range b.equality.size).filter b.equality.isRepresentative) := by
    refine (List.perm_ext_iff_of_nodup ?_ (hnodup _)).mpr fun y => ⟨fun hy => ?_, fun hy => ?_⟩
    · refine (hnodup _).map_on fun x hx x' hx' he => ?_
      exact iso.bijective.injOn ((hmem _ x).mp hx) ((hmem _ x').mp hx') he
    · obtain ⟨x, hx, rfl⟩ := List.mem_map.mp hy
      exact (hmem _ _).mpr (iso.bijective.mapsTo ((hmem _ x).mp hx))
    · obtain ⟨x, hx, rfl⟩ := iso.bijective.surjOn ((hmem _ y).mp hy)
      exact List.mem_map.mpr ⟨x, (hmem _ x).mpr hx, rfl⟩
  have hlen := hperm.length_eq
  rw [List.length_map] at hlen
  rw [Equality.rootCount, Equality.rootCount, List.countP_eq_length_filter,
    List.countP_eq_length_filter, hlen]

theorem Isomorphism.classCount_eq (valid : a.Valid) (valid' : b.Valid) :
    a.classCount = b.classCount := by
  have hcount := iso.rootCount_eq
  have hcounted := valid.partition.counted
  have hcounted' := valid'.partition.counted
  simp only [classCount, Partition.classCount_eq, Equality.classCount]
  omega

end Count

end Structure

open PartialHorn.Action PartialHorn.Structure in
/-- The order of the rules does not matter: whatever the order in which the rules of a theory take
their turns, and however often each of them does, two chases that come to their ends leave
isomorphic structures. -/
theorem saturate_confluent {sig : Signature} {seqs : List Sequent} {rules : List Rule}
    (hrules : Rule.ofSequents sig seqs = .ok rules) {s : Structure} (reachable : s.Reachable sig)
    (clean : s.dirty = false) {left right : List Rule} (hleft : ∀ rule, rule ∈ left ↔ rule ∈ rules)
    (hright : ∀ rule, rule ∈ right ↔ rule ∈ rules) {budget budget' : Budget} {clock clock' : Clock}
    {passes passes' : Nat} {report report' : ChaseReport} {a b : Structure}
    (ha : (saturate left budget clock passes).Returns s (some report) a)
    (hb : (saturate right budget' clock' passes').Returns s (some report') b) :
    (∃ f, Isomorphism s a b f) ∧
      (∀ x y, x < s.size → y < s.size → (a.Equal x y ↔ b.Equal x y)) ∧
      a.classCount = b.classCount ∧
      a.operations.map OperationTable.size = b.operations.map OperationTable.size ∧
      a.predicates.map PredicateTable.size = b.predicates.map PredicateTable.size := by
  have hs := reachable.valid
  have hsig := reachable.signature_eq
  obtain ⟨valid, clean₁, hsig₁, satisfied⟩ := saturate_satisfies hrules hleft hs clean hsig ha
  obtain ⟨valid', clean₂, hsig₂, satisfied'⟩ := saturate_satisfies hrules hright hs clean hsig hb
  have hM : ∀ seq ∈ seqs, (quotient valid hsig₁).Satisfies seq := fun seq hseq =>
    quotient_satisfies valid hsig₁ clean₁ (satisfied seq hseq)
  have hM' : ∀ seq ∈ seqs, (quotient valid' hsig₂).Satisfies seq := fun seq hseq =>
    quotient_satisfies valid' hsig₂ clean₂ (satisfied' seq hseq)
  have run := Chased.of_returns ha
  have run' := Chased.of_returns hb
  have taken : ∀ rule ∈ left, rule ∈ rules := fun rule => (hleft rule).mp
  have taken' : ∀ rule ∈ right, rule ∈ rules := fun rule => (hright rule).mp
  have haa := run.free_of_satisfies hrules taken hM hs hsig
  have hab := run.free_of_satisfies hrules taken hM' hs hsig
  have hba := run'.free_of_satisfies hrules taken' hM hs hsig
  have hbb := run'.free_of_satisfies hrules taken' hM' hs hsig
  obtain ⟨f, iso⟩ :=
    isomorphic_of_free hs valid valid' clean₁ clean₂ hsig₁ hsig₂ haa hab hba hbb
  refine ⟨⟨f, iso⟩, fun x y => iso.equal_iff haa.grows hbb.grows valid valid',
    iso.classCount_eq valid valid', ?_, ?_⟩
  · refine map_eq_of_forall₂ (List.forall₂_map_right_iff.mpr (iso.operations.imp ?_))
    intro table table' hperm
    rw [OperationTable.size, OperationTable.size, ← hperm.length_eq, List.length_map]
  · refine map_eq_of_forall₂ (List.forall₂_map_right_iff.mpr (iso.predicates.imp ?_))
    intro table table' hperm
    rw [PredicateTable.size, PredicateTable.size, ← hperm.length_eq, List.length_map]

def forkSignature : Signature where
  sorts := ["S"]
  operations := [⟨"f", [0], 0⟩, ⟨"g", [0], 0⟩]
  predicates := [⟨"P", [0]⟩]

/-- If the predicate holds, then the given operation has a value. -/
def forkSequent (op : Nat) : Sequent where
  name := "fork"
  vars := [⟨"x", 0⟩, ⟨"y", 0⟩]
  premises := [.pred 0 [0]]
  conclusions := [.op op [0] 1]

def forkRule (op : Nat) : Rule :=
  .ofPlan op (forkSequent op) [.pred 0 [0]]

/-- One element of which the predicate holds. -/
def forkStart : Structure :=
  (Structure.empty forkSignature).afterCalls [.add 0, .assert 0 [0]]

open PartialHorn.Action PartialHorn.Structure in
/-- The value of the first operation is the first new element or the second one. -/
theorem saturate_confluent_fork : ∃ a b f,
    (saturate [forkRule 0, forkRule 1] {} (fun _ => 0) 5).Returns forkStart (some ⟨2, 2, 2, 2, 0⟩) a ∧
      (saturate [forkRule 1, forkRule 0, forkRule 1] {} (fun _ => 0) 5).Returns forkStart
        (some ⟨2, 3, 3, 2, 0⟩) b ∧
      a.result? 0 [0] = some 1 ∧ b.result? 0 [0] = some 2 ∧ Isomorphism forkStart a b f := by
  have compiled : Rule.ofSequents forkSignature [forkSequent 0, forkSequent 1] =
      .ok [forkRule 0, forkRule 1] := rfl
  have repeated : ∀ rule, rule ∈ [forkRule 1, forkRule 0, forkRule 1] ↔
      rule ∈ [forkRule 0, forkRule 1] := by
    simp [or_comm]
  have reachable : forkStart.Reachable forkSignature := ⟨_, rfl⟩
  have first : (saturate [forkRule 0, forkRule 1] {} (fun _ => 0) 5).Returns forkStart
      (some ⟨2, 2, 2, 2, 0⟩) _ := ⟨rfl, rfl⟩
  have second : (saturate [forkRule 1, forkRule 0, forkRule 1] {} (fun _ => 0) 5).Returns forkStart
      (some ⟨2, 3, 3, 2, 0⟩) _ := ⟨rfl, rfl⟩
  obtain ⟨⟨f, iso⟩, _⟩ :=
    saturate_confluent compiled reachable rfl (fun _ => Iff.rfl) repeated first second
  exact ⟨_, _, f, first, second, rfl, rfl, iso⟩

end PartialHorn
