import PartialHorn.Proofs.Satisfaction
import PartialHorn.Proofs.Renewal

namespace PartialHorn

/-- A many-sorted partial structure over a signature, finite or not: operations are partial
functions and predicates are relations, each of them between elements of the declared sorts. -/
structure Interpretation (sig : Signature) (C : Type*) where
  sort : C → Nat
  apply : Nat → List C → Option C
  holds : Nat → List C → Prop
  applySorted : ∀ op xs x, apply op xs = some x → ∃ operation, sig.operations[op]? = some operation ∧
    xs.map sort = operation.domain ∧ sort x = operation.codomain
  holdsSorted : ∀ pred xs, holds pred xs → ∃ predicate, sig.predicates[pred]? = some predicate ∧
    xs.map sort = predicate.domain

namespace Interpretation

variable {sig : Signature} {C : Type*}

def Makes (M : Interpretation sig C) (v : Valuation C) : Atom → Prop
  | .op op args result => ∃ xs x, v.Reads args xs ∧ v result = some x ∧ M.apply op xs = some x
  | .pred pred args => ∃ xs, v.Reads args xs ∧ M.holds pred xs
  | .eq lhs rhs => ∃ x, v lhs = some x ∧ v rhs = some x

/-- A valuation gives an element of the right sort to exactly the variables that need one. -/
structure Assigns (M : Interpretation sig C) (seq : Sequent) (v : Valuation C) : Prop where
  ranged : ∀ var ∈ seq.ranged, ∃ x, v var = some x ∧ seq.sort? var = some (M.sort x)
  only : ∀ var, var ∉ seq.ranged → v var = none

/-- A sequent holds: values that make the premises true can be extended to values that make the
conclusions true. -/
def Satisfies (M : Interpretation sig C) (seq : Sequent) : Prop :=
  ∀ v, M.Assigns seq v → (∀ atom ∈ seq.premises, M.Makes v atom) →
    ∃ w : Valuation C, (∀ var x, v var = some x → w var = some x) ∧
      ∀ atom ∈ seq.conclusions, M.Makes w atom

end Interpretation

namespace Structure

/-- The images of elements under a map that is given as a list. -/
def image {C : Type*} (h : List C) : Valuation C :=
  fun x => h[x]?

/-- A map from the elements of a structure, given as the list of the images, that preserves sorts
and respects the partition and the tables. -/
structure Maps {sig : Signature} {C : Type*} (s : Structure) (M : Interpretation sig C)
    (h : List C) : Prop where
  sorts : h.map M.sort = s.sorts
  equal : ∀ x y, s.Equal x y → image h x = image h y
  rows : ∀ op row, s.HasRow op row → ∃ xs x, (image h).Reads row.args xs ∧
    image h row.result = some x ∧ M.apply op xs = some x
  tuples : ∀ pred tuple, s.HasTuple pred tuple → ∃ xs, (image h).Reads tuple xs ∧ M.holds pred xs

theorem reads_unique {C : Type*} {v : Valuation C} {vars : List Nat} {xs ys : List C}
    (h : v.Reads vars xs) (h' : v.Reads vars ys) : xs = ys :=
  forall₂_unique (fun _ _ _ hx hy => Option.some.inj (hx.symm.trans hy)) h h'

theorem reads_of_forall₂ {C : Type*} {v : Valuation C} {as bs : List Nat} {xs : List C}
    (he : List.Forall₂ (fun a b => v a = v b) as bs) (h : v.Reads as xs) : v.Reads bs xs :=
  forall₂_trans (fun _ _ _ hba hx => hba.symm.trans hx) (forall₂_swap (fun _ _ h => h) he) h

section Maps

variable {sig : Signature} {C : Type*} {M : Interpretation sig C} {s t : Structure} {h : List C}

theorem Maps.length (maps : s.Maps M h) : h.length = s.size := by
  rw [size, ← maps.sorts, List.length_map]

theorem Maps.image_some (maps : s.Maps M h) {x : Nat} (hx : x < s.size) : ∃ m, image h x = some m := by
  rw [← maps.length] at hx
  exact ⟨h[x], List.getElem?_eq_getElem hx⟩

theorem Maps.sort (maps : s.Maps M h) {x : Nat} {m : C} (hm : image h x = some m) :
    s.sorts[x]? = some (M.sort m) := by
  rw [← maps.sorts, List.getElem?_map]
  exact congrArg (Option.map M.sort) hm

/-- What is true in the structure is true of the images. -/
theorem Maps.applies (maps : s.Maps M h) {op x : Nat} {args : List Nat} (ha : s.Applies op args x) :
    ∃ ys y, (image h).Reads args ys ∧ image h x = some y ∧ M.apply op ys = some y := by
  obtain ⟨row, hrow, hargs, hx⟩ := ha
  obtain ⟨ys, y, hys, hy, happ⟩ := maps.rows op row hrow
  refine ⟨ys, y, ?_, (maps.equal _ _ hx).trans hy, happ⟩
  exact reads_of_forall₂ ((equal_all_symm hargs).imp maps.equal) hys

theorem Maps.relates (maps : s.Maps M h) {pred : Nat} {args : List Nat} (hr : s.Relates pred args) :
    ∃ ys, (image h).Reads args ys ∧ M.holds pred ys := by
  obtain ⟨tuple, htuple, hargs⟩ := hr
  obtain ⟨ys, hys, hholds⟩ := maps.tuples pred tuple htuple
  exact ⟨ys, reads_of_forall₂ ((equal_all_symm hargs).imp maps.equal) hys, hholds⟩

theorem image_take {n x : Nat} (hx : x < n) : image (h.take n) x = image h x :=
  List.getElem?_take_of_lt hx

theorem reads_take {n : Nat} {xs : List Nat} {ys : List C} (hx : ∀ x ∈ xs, x < n)
    (hr : (image h).Reads xs ys) : (image (h.take n)).Reads xs ys :=
  forall₂_imp_of_mem hr fun x hmem _ _ he => (image_take (hx x hmem)).trans he

/-- A map of a structure that has grown restricts to the old elements. -/
theorem Maps.restrict (maps : t.Maps M h) (valid : s.Valid) (grows : s.Grows t) :
    s.Maps M (h.take s.size) where
  sorts := by
    obtain ⟨rest, hrest⟩ := grows.sorts
    rw [List.map_take, maps.sorts, ← hrest, size, List.take_left]
  equal x y he := by
    rw [image_take (valid.lt_size he), image_take (valid.lt_size he.symm)]
    exact maps.equal x y (grows.equal x y he)
  rows op row hrow := by
    obtain ⟨ys, y, hys, hy, happ⟩ := maps.applies (grows.rows op row hrow)
    obtain ⟨hargs, hresult⟩ := valid.row_lt hrow
    exact ⟨ys, y, reads_take hargs hys, (image_take hresult).trans hy, happ⟩
  tuples pred tuple htuple := by
    obtain ⟨ys, hys, hholds⟩ := maps.relates (grows.tuples pred tuple htuple)
    exact ⟨ys, reads_take (valid.tuple_lt htuple) hys, hholds⟩

end Maps

/-- A structure has grown into another one in the only way that an interpretation allows: every map
of the old elements extends to exactly one map of the new ones. -/
structure Free {sig : Signature} {C : Type*} (M : Interpretation sig C) (s t : Structure) : Prop where
  valid : t.Valid
  grows : s.Grows t
  extends_unique : ∀ h, s.Maps M h → ∃! h', h <+: h' ∧ t.Maps M h'

section Free

variable {sig : Signature} {C : Type*} {M : Interpretation sig C} {s t u : Structure} {h : List C}

theorem Free.of_maps (valid : t.Valid) (grows : s.Grows t) (hsize : t.size = s.size)
    (h : ∀ h, s.Maps M h → t.Maps M h) : Free M s t := by
  refine ⟨valid, grows, fun f maps => ⟨f, ⟨List.prefix_refl f, h f maps⟩, fun g hg => ?_⟩⟩
  exact (hg.1.eq_of_length (by rw [maps.length, hg.2.length, hsize])).symm

theorem Free.refl (valid : s.Valid) : Free M s s :=
  .of_maps valid (.refl valid) rfl fun _ maps => maps

theorem Free.trans (h : Free M s t) (h' : Free M t u) : Free M s u := by
  refine ⟨h'.valid, h.grows.trans h'.grows, fun f maps => ?_⟩
  obtain ⟨g, ⟨hfg, hg⟩, hunique⟩ := h.extends_unique f maps
  obtain ⟨k, ⟨hgk, hk⟩, hunique'⟩ := h'.extends_unique g hg
  refine ⟨k, ⟨hfg.trans hgk, hk⟩, fun k' ⟨hfk', hk'⟩ => hunique' k' ⟨?_, hk'⟩⟩
  have hrestrict := hk'.restrict h.valid h'.grows
  have hlen : f.length ≤ (k'.take t.size).length := by
    rw [maps.length, hrestrict.length]
    exact h.grows.size
  have hpre : f <+: k'.take t.size :=
    List.prefix_of_prefix_length_le hfk' (List.take_prefix _ _) hlen
  rw [← hunique _ ⟨hpre, hrestrict⟩]
  exact List.take_prefix _ _

/-- A rebuild merges only what a map has made equal, so the map is one of the rebuilt structure. -/
theorem maps_renewed (valid : s.Valid) (maps : s.Maps M h) : s.renewed.Maps M h := by
  obtain ⟨_, rebuilds⟩ := valid.rebuilds
  have renews := rebuilds.renews
  have hequal : ∀ x y, s.renewed.Equal x y → image h x = image h y := by
    refine renews.least _ ⟨⟨fun _ => rfl, Eq.symm, Eq.trans⟩, maps.equal, ?_⟩
    intro op row row' hrow hrow' hargs
    obtain ⟨xs, x, hxs, hx, happ⟩ := maps.rows op row hrow
    obtain ⟨ys, y, hys, hy, happ'⟩ := maps.rows op row' hrow'
    cases reads_unique (reads_of_forall₂ hargs hxs) hys
    rw [hx, hy, ← happ, happ']
  refine ⟨maps.sorts.trans renews.sorts.symm, hequal, fun op row hrow => ?_, fun pred tuple ht => ?_⟩
  · obtain ⟨old, hold, hargs, hresult⟩ := renews.rows op row hrow
    obtain ⟨xs, x, hxs, hx, happ⟩ := maps.rows op old hold
    exact ⟨xs, x, reads_of_forall₂ (hargs.imp hequal) hxs, (hequal _ _ hresult).symm.trans hx, happ⟩
  · obtain ⟨old, hold, hargs⟩ := renews.tuples pred tuple ht
    obtain ⟨xs, hxs, hholds⟩ := maps.tuples pred old hold
    exact ⟨xs, reads_of_forall₂ (hargs.imp hequal) hxs, hholds⟩

theorem renewed_free (valid : s.Valid) : Free M s s.renewed := by
  obtain ⟨_, rebuilds⟩ := valid.rebuilds
  exact .of_maps rebuilds.valid rebuilds.grows (congrArg List.length rebuilds.renews.sorts)
    fun _ maps => maps_renewed valid maps

end Free

end Structure

end PartialHorn
