import PartialHorn.Proofs.Conclusion
import PartialHorn.Proofs.Interpretation

namespace PartialHorn

namespace Structure

section Image

variable {C : Type*} {h : List C}

theorem image_of_take {n x : Nat} {m : C} (hm : image (h.take n) x = some m) : image h x = some m := by
  rw [image, List.getElem?_take] at hm
  split at hm
  next => exact hm
  next => exact nomatch hm

theorem image_append {x : Nat} {m : C} (hm : image h x = some m) (rest : List C) :
    image (h ++ rest) x = some m := by
  rw [image, List.getElem?_append_left (List.getElem?_eq_some_iff.mp hm).1]
  exact hm

theorem reads_append {xs : List Nat} {ys : List C} (hr : (image h).Reads xs ys) (rest : List C) :
    (image (h ++ rest)).Reads xs ys :=
  hr.imp fun _ _ hm => image_append hm rest

/-- Old elements have the same images under a map and under its extensions. -/
theorem Maps.reads_append_iff {sig : Signature} {M : Interpretation sig C} {s : Structure}
    (maps : s.Maps M h) {rest : List C} {xs : List Nat} {ys : List C} (hx : ∀ x ∈ xs, x < s.size) :
    (image (h ++ rest)).Reads xs ys ↔ (image h).Reads xs ys := by
  refine ⟨fun hreads => forall₂_imp_of_mem hreads fun x hmem y _ hy => ?_, (reads_append · rest)⟩
  obtain ⟨m, hm⟩ := maps.image_some (hx x hmem)
  exact hm.trans ((image_append hm rest).symm.trans hy)

end Image

section Enlarged

variable {sig : Signature} {C : Type*} {M : Interpretation sig C} {s : Structure} {h : List C}
  (maps : s.Maps M h)

include maps

/-- A fresh element may go to any element of its sort. -/
theorem extended_maps (valid : s.Valid) {sort : Nat} {m : C} (hm : M.sort m = sort) :
    (s.extended sort).Maps M (h ++ [m]) := by
  refine ⟨?_, fun x y he => ?_, fun op row hrow => ?_, fun pred tuple ht => ?_⟩
  · rw [List.map_append, maps.sorts, List.map_singleton, hm]
    rfl
  · rcases extended_equal_cases sort valid he with he | ⟨rfl, rfl⟩
    · obtain ⟨m', hm'⟩ := maps.image_some (valid.lt_size he)
      rw [image_append hm', image_append ((maps.equal x y he).symm.trans hm')]
    · rfl
  · obtain ⟨xs, x, hxs, hx, hvalue⟩ := maps.rows op row hrow
    exact ⟨xs, x, reads_append hxs _, image_append hx _, hvalue⟩
  · obtain ⟨xs, hxs, hholds⟩ := maps.tuples pred tuple ht
    exact ⟨xs, reads_append hxs _, hholds⟩

theorem withRow_maps {op : Nat} {row : Row} {ys : List C} {y : C}
    (hys : (image h).Reads row.args ys) (hy : image h row.result = some y)
    (hvalue : M.apply op ys = some y) : (s.withRow op row).Maps M h where
  sorts := maps.sorts
  equal := maps.equal
  rows f other hrow := by
    rcases withRow_hasRow_cases hrow with hrow | ⟨rfl, rfl⟩
    · exact maps.rows f other hrow
    · exact ⟨ys, y, hys, hy, hvalue⟩
  tuples := maps.tuples

theorem withTuple_maps {pred : Nat} {tuple : List Nat} {ys : List C}
    (hys : (image h).Reads tuple ys) (hholds : M.holds pred ys) :
    (s.withTuple pred tuple).Maps M h where
  sorts := maps.sorts
  equal := maps.equal
  rows := maps.rows
  tuples p other ht := by
    rcases withTuple_hasTuple_cases ht with ht | ⟨rfl, rfl⟩
    · exact maps.tuples p other ht
    · exact ⟨ys, hys, hholds⟩

end Enlarged

section Defined

variable {sig : Signature} {C : Type*} {M : Interpretation sig C} {s : Structure} (valid : s.Valid)

include valid

theorem maps_of_renewed {h : List C} (maps : s.renewed.Maps M h) : s.Maps M h := by
  have hrestrict := maps.restrict valid (grows_renewed valid)
  rwa [List.take_of_length_le (Nat.le_of_eq (maps.length.trans (renewed_size valid)))] at hrestrict

/-- A fresh value of an operation goes where the interpretation has the value of the operation. -/
theorem defined_maps (hsig : s.signature = sig) {op : Nat} {operation : Operation} {args : List Nat}
    (happ : s.Applicable op args operation) {h ys : List C} {y : C} (maps : s.renewed.Maps M h)
    (hys : (image h).Reads args ys) (hy : M.apply op ys = some y) :
    (s.defined op operation args).Maps M (h ++ [y]) := by
  have hkey : (image h).Reads (s.key args) ys :=
    reads_of_forall₂ ((key_equal valid happ.2.lt_size).imp maps.equal) hys
  have hlast : image (h ++ [y]) s.size = some y := by
    rw [image, ← renewed_size valid, ← maps.length]
    exact List.getElem?_concat_length
  obtain ⟨operation', hop', _, hsort⟩ := M.applySorted op ys y hy
  cases Option.some.inj ((hsig ▸ happ.1).symm.trans hop')
  exact withRow_maps (extended_maps maps (renewed_valid valid) hsort) (reads_append hkey _) hlast hy

theorem defined_free (hsig : s.signature = sig) {op : Nat} {operation : Operation} {args : List Nat}
    (happ : s.Applicable op args operation) (fresh : s.renewed.result? op (s.key args) = none)
    (forced : ∀ h, s.Maps M h → ∃ ys y, (image h).Reads args ys ∧ M.apply op ys = some y) :
    Free M s.renewed (s.defined op operation args) := by
  have hsize := renewed_size valid
  refine ⟨defined_valid valid happ, defined_grows valid op operation args, fun h maps => ?_⟩
  obtain ⟨ys, y, hys, hy⟩ := forced h (maps_of_renewed valid maps)
  have hkey : (image h).Reads (s.key args) ys :=
    reads_of_forall₂ ((key_equal valid happ.2.lt_size).imp maps.equal) hys
  refine ⟨h ++ [y], ⟨List.prefix_append _ _, defined_maps valid hsig happ maps hys hy⟩, ?_⟩
  -- The new row leaves no choice for the image of the fresh element.
  · rintro k ⟨⟨rest, rfl⟩, hk⟩
    obtain ⟨zs, z, hzs, hz, happly⟩ := hk.rows op _ (defined_hasRow valid happ fresh)
    cases reads_unique hzs (reads_append hkey rest)
    cases Option.some.inj (happly.symm.trans hy)
    have hlen : rest.length = 1 := by
      have hl := hk.length
      have hd : (s.defined op operation args).size = s.renewed.size + 1 := extended_size _
      rw [List.length_append, maps.length, hd] at hl
      omega
    obtain ⟨z, rfl⟩ := List.length_eq_one_iff.mp hlen
    have hz' : image (h ++ [z]) s.size = some z := by
      rw [image, ← hsize, ← maps.length]
      exact List.getElem?_concat_length
    rw [Option.some.inj (hz'.symm.trans hz)]

end Defined

end Structure

namespace Action

open Structure

section Free

variable {sig : Signature} {C : Type*} {M : Interpretation sig C} {s : Structure}

/-- A sequence is free when its first action is and, if it goes on, its second one is too. -/
theorem free_andThen {ε α β : Type} {first : Action Structure ε α} {next : α → Action Structure ε β}
    (hfirst : Free M s (first s).after)
    (hnext : ∀ a t, first.Returns s a t → Free M s t → Free M t (next a t).after) :
    Free M s (andThen first next s).after := by
  rcases andThen_after first next s with h | ⟨a, t, hreturns, h⟩
  · rw [h]
    exact hfirst
  · rw [hreturns.2] at hfirst
    rw [h]
    exact hfirst.trans (hnext a t hreturns hfirst)

variable (valid : s.Valid)

include valid

theorem free_ofExcept {ε α β : Type} {result : Except ε α} {next : α → Action Structure ε β}
    (hnext : ∀ a, result = .ok a → Free M s (next a s).after) :
    Free M s (andThen (ofExcept result) next s).after :=
  free_andThen (.refl valid) fun a _ hreturns _ => by
    obtain ⟨ha, rfl⟩ := returns_ofExcept.mp hreturns
    exact hnext a ha

theorem define_free (hsig : s.signature = sig) {op : Nat} {args : List Nat}
    (forced : ∀ h, s.Maps M h → ∃ ys y, (image h).Reads args ys ∧ M.apply op ys = some y) :
    Free M s (define op args s).after := by
  have hrenewed : Free M s s.renewed := renewed_free valid
  rcases define_cases valid op args with ⟨_, h⟩ | ⟨operation, happ, ⟨x, _, h⟩ | ⟨hnone, h⟩⟩
  · rw [h.2]
    exact .refl valid
  · rw [h.2]
    exact hrenewed
  · rw [h.2]
    exact hrenewed.trans (defined_free valid hsig happ hnone forced)

/-- A definition takes a map along that has a value to give. -/
theorem define_maps (hsig : s.signature = sig) {op x : Nat} {args : List Nat} {t : Structure}
    (hreturns : (define op args).Returns s x t) {h ys : List C} {y : C} (maps : s.Maps M h)
    (hys : (image h).Reads args ys) (hy : M.apply op ys = some y) :
    ∃ h', h <+: h' ∧ t.Maps M h' := by
  have hrenewed := maps_renewed valid maps
  rcases define_cases valid op args with ⟨_, hno⟩ | ⟨operation, happ, ⟨_, _, hyes⟩ | ⟨_, hyes⟩⟩
  · exact absurd hreturns hno.not_returns
  · obtain ⟨_, rfl⟩ := hreturns.unique hyes
    exact ⟨h, List.prefix_refl h, hrenewed⟩
  · obtain ⟨_, rfl⟩ := hreturns.unique hyes
    exact ⟨h ++ [y], List.prefix_append h [y], defined_maps valid hsig happ hrenewed hys hy⟩

theorem assert_maps {pred : Nat} {args : List Nat} {flag : Bool} {t : Structure}
    (hreturns : (assert pred args).Returns s flag t) {h ys : List C} (maps : s.Maps M h)
    (hys : (image h).Reads args ys) (hholds : M.holds pred ys) : t.Maps M h := by
  have hrenewed := maps_renewed valid maps
  rcases assert_cases valid pred args with ⟨_, hno⟩ | ⟨predicate, hrel, hyes⟩
  · exact absurd hreturns hno.not_returns
  · obtain ⟨_, rfl⟩ := hreturns.unique hyes
    exact withTuple_maps hrenewed
      (reads_of_forall₂ ((key_equal valid hrel.2.lt_size).imp hrenewed.equal) hys) hholds

theorem merge_maps {x y : Nat} {flag : Bool} {t : Structure}
    (hreturns : (merge x y).Returns s flag t) {h : List C} (maps : s.Maps M h)
    (himage : image h x = image h y) : t.Maps M h := by
  rcases merge_cases valid x y with ⟨_, hno⟩ | ⟨sort, merged, equality, _, _, merges, hyes⟩
  · exact absurd hreturns hno.not_returns
  · obtain ⟨_, rfl⟩ := hreturns.unique hyes
    refine ⟨maps.sorts, ?_, maps.rows, maps.tuples⟩
    exact merges.least _ ⟨fun _ => rfl, Eq.symm, Eq.trans⟩ maps.equal himage

theorem assert_free {pred : Nat} {args : List Nat}
    (forced : ∀ h, s.Maps M h → ∃ ys, (image h).Reads args ys ∧ M.holds pred ys) :
    Free M s (assert pred args s).after := by
  have hkept := assert_keeps pred args s valid
  rcases assert_cases valid pred args with ⟨_, h⟩ | ⟨predicate, hrel, h⟩
  · rw [h.2]
    exact .refl valid
  · rw [h.2] at hkept ⊢
    refine .of_maps hkept.1 hkept.2 (renewed_size valid) fun f maps => ?_
    obtain ⟨ys, hys, hholds⟩ := forced f maps
    exact assert_maps valid h maps hys hholds

theorem merge_free {x y : Nat} (forced : ∀ h, s.Maps M h → image h x = image h y) :
    Free M s (merge x y s).after := by
  have hkept := merge_keeps x y s valid
  rcases merge_cases valid x y with ⟨_, h⟩ | ⟨sort, merged, equality, _, _, merges, h⟩
  · rw [h.2]
    exact .refl valid
  · rw [h.2] at hkept ⊢
    exact .of_maps hkept.1 hkept.2 rfl fun f maps => merge_maps valid h maps (forced f maps)

theorem mergeFor_free (rule : Rule) {x y : Nat}
    (forced : ∀ h, s.Maps M h → image h x = image h y) : Free M s (mergeFor rule x y s).after := by
  refine free_andThen (merge_free valid forced) fun merged t _ free => ?_
  cases merged with
  | true => exact .refl free.valid
  | false => exact .refl free.valid

end Free

end Action

end PartialHorn
