import PartialHorn.Equality
import PartialHorn.Proofs.Pointwise
import Mathlib.Data.List.Nodup

namespace PartialHorn

namespace Equality

/-- The representative of an element; an unknown element stands for itself. -/
def root (eq : Equality) (x : Nat) : Nat :=
  (eq.reps[x]?).getD x

def Same (eq : Equality) (x y : Nat) : Prop :=
  ∃ r, eq.reps[x]? = some r ∧ eq.reps[y]? = some r

/-- The number of elements that represent their class. -/
def rootCount (eq : Equality) : Nat :=
  (List.range eq.size).countP eq.isRepresentative

/-- Representatives are least members and represent themselves, and every merge has made two of
them into one. -/
structure Valid (eq : Equality) : Prop where
  le : ∀ x r : Nat, eq.reps[x]? = some r → r ≤ x
  fixed : ∀ x r : Nat, eq.reps[x]? = some r → eq.reps[r]? = some r
  counted : eq.merges + eq.rootCount = eq.size

theorem root_eq_of_getElem? {eq : Equality} {x r : Nat} (h : eq.reps[x]? = some r) :
    eq.root x = r := by
  simp [root, h]

theorem getElem?_root {eq : Equality} {x : Nat} (hx : x < eq.size) :
    eq.reps[x]? = some (eq.root x) := by
  have he : eq.reps[x]? = some eq.reps[x] := List.getElem?_eq_getElem hx
  rw [root, he, Option.getD_some]

theorem lt_size_of_getElem? {eq : Equality} {x r : Nat} (h : eq.reps[x]? = some r) :
    x < eq.size :=
  (List.getElem?_eq_some_iff.mp h).1

theorem find_eq_ok_iff {eq : Equality} {x r : Nat} :
    eq.find x = .ok r ↔ eq.reps[x]? = some r := by
  unfold find
  cases eq.reps[x]? with
  | none => exact ⟨fun h => (nomatch h), fun h => (nomatch h)⟩
  | some y => exact ⟨fun h => congrArg some (Except.ok.inj h), fun h => congrArg _ (Option.some.inj h)⟩

theorem findAll_eq_ok_iff {eq : Equality} {xs rs : List Nat} :
    eq.findAll xs = .ok rs ↔ List.Forall₂ (fun x r => eq.reps[x]? = some r) xs rs := by
  simp only [findAll, mapM_eq_ok_iff, find_eq_ok_iff]

theorem findAll_known {eq : Equality} {xs : List Nat} (h : ∀ x ∈ xs, x < eq.size) :
    eq.findAll xs = .ok (xs.map eq.root) :=
  findAll_eq_ok_iff.mpr (forall₂_map_right fun x hx => getElem?_root (h x hx))

theorem isRepresentative_iff {eq : Equality} {x : Nat} :
    eq.isRepresentative x = true ↔ eq.reps[x]? = some x := by
  simp [isRepresentative]

namespace Same

theorem symm {eq : Equality} {x y : Nat} (h : eq.Same x y) : eq.Same y x := by
  obtain ⟨r, hx, hy⟩ := h
  exact ⟨r, hy, hx⟩

theorem trans {eq : Equality} {x y z : Nat} (h : eq.Same x y) (h' : eq.Same y z) :
    eq.Same x z := by
  obtain ⟨r, hx, hy⟩ := h
  obtain ⟨q, hy', hz⟩ := h'
  have he := Option.some.inj (hy.symm.trans hy')
  exact ⟨r, hx, he ▸ hz⟩

theorem refl {eq : Equality} {x : Nat} (hx : x < eq.size) : eq.Same x x :=
  ⟨_, getElem?_root hx, getElem?_root hx⟩

theorem lt_left {eq : Equality} {x y : Nat} (h : eq.Same x y) : x < eq.size := by
  obtain ⟨r, hx, _⟩ := h
  exact lt_size_of_getElem? hx

theorem lt_right {eq : Equality} {x y : Nat} (h : eq.Same x y) : y < eq.size :=
  h.symm.lt_left

end Same

theorem same_root {eq : Equality} (valid : eq.Valid) {x : Nat} (hx : x < eq.size) :
    eq.Same x (eq.root x) :=
  ⟨eq.root x, getElem?_root hx, valid.fixed x _ (getElem?_root hx)⟩

theorem same_iff_root {eq : Equality} {x y : Nat} (hx : x < eq.size) (hy : y < eq.size) :
    eq.Same x y ↔ eq.root x = eq.root y := by
  constructor
  · rintro ⟨r, hxr, hyr⟩
    rw [root_eq_of_getElem? hxr, root_eq_of_getElem? hyr]
  · intro h
    exact ⟨_, getElem?_root hx, h ▸ getElem?_root hy⟩

theorem eq_of_same {eq : Equality} {x y : Nat} (hx : eq.reps[x]? = some x)
    (hy : eq.reps[y]? = some y) (h : eq.Same x y) : x = y := by
  obtain ⟨r, hxr, hyr⟩ := h
  have hx' := Option.some.inj (hx.symm.trans hxr)
  have hy' := Option.some.inj (hy.symm.trans hyr)
  omega

theorem empty_valid : Valid {} where
  le := by simp
  fixed := by simp
  counted := rfl

/-- What a partition becomes when classes are merged. -/
structure Coarsens (eq eq' : Equality) : Prop where
  size : eq'.size = eq.size
  merges : eq.merges ≤ eq'.merges
  same : ∀ x y, eq.Same x y → eq'.Same x y
  unchanged : eq'.merges = eq.merges → eq' = eq
  pending : eq'.pending = eq.pending

theorem Coarsens.refl (eq : Equality) : eq.Coarsens eq :=
  ⟨rfl, Nat.le_refl _, fun _ _ h => h, fun _ => rfl, rfl⟩

theorem Coarsens.trans {a b c : Equality} (h : a.Coarsens b) (h' : b.Coarsens c) :
    a.Coarsens c where
  size := h'.size.trans h.size
  merges := Nat.le_trans h.merges h'.merges
  same x y hs := h'.same x y (h.same x y hs)
  unchanged he := by
    have hle := h.merges
    have hle' := h'.merges
    have hb := h.unchanged (by omega)
    exact (h'.unchanged (by omega)).trans hb
  pending := h'.pending.trans h.pending

section Link

variable {eq : Equality} {a b : Nat}

theorem link_size : (eq.link a b).size = eq.size := by
  simp [link, size]

theorem link_getElem? (x : Nat) : (eq.link a b).reps[x]? =
    (eq.reps[x]?).map fun r => if r = max a b then min a b else r := by
  simp [link]

theorem link_same (x y : Nat) (h : eq.Same x y) : (eq.link a b).Same x y := by
  obtain ⟨r, hx, hy⟩ := h
  exact ⟨_, by rw [link_getElem?, hx]; rfl, by rw [link_getElem?, hy]; rfl⟩

/-- The representative that a linked partition gives to a member of one of the two classes. -/
theorem link_getElem?_of_mem {x r : Nat} (hx : eq.reps[x]? = some r) (hr : r = a ∨ r = b) :
    (eq.link a b).reps[x]? = some (min a b) := by
  rw [link_getElem?, hx, Option.map_some]
  split
  · rfl
  · congr 1
    omega

/-- A linked partition relates elements that were related before or that lie in the two classes. -/
theorem link_same_cases {x y : Nat} (h : (eq.link a b).Same x y) :
    eq.Same x y ∨ ∃ p q, eq.reps[x]? = some p ∧ eq.reps[y]? = some q ∧
      (p = a ∨ p = b) ∧ (q = a ∨ q = b) := by
  obtain ⟨r, hx, hy⟩ := h
  rw [link_getElem?] at hx hy
  obtain ⟨p, hp, hpr⟩ := Option.map_eq_some_iff.mp hx
  obtain ⟨q, hq, hqr⟩ := Option.map_eq_some_iff.mp hy
  by_cases he : p = q
  · exact Or.inl ⟨p, hp, he ▸ hq⟩
  · refine Or.inr ⟨p, q, hp, hq, ?_, ?_⟩ <;> split at hpr <;> split at hqr <;> omega

variable (valid : eq.Valid) (ha : eq.reps[a]? = some a) (hb : eq.reps[b]? = some b) (hne : a ≠ b)

include valid ha hb hne

theorem link_isRepresentative (x : Nat) : (eq.link a b).isRepresentative x =
    (eq.isRepresentative x && x != max a b) := by
  rw [Bool.eq_iff_iff, Bool.and_eq_true, isRepresentative_iff, isRepresentative_iff, bne_iff_ne,
    link_getElem?]
  constructor
  · intro h
    obtain ⟨r, hr, hx⟩ := Option.map_eq_some_iff.mp h
    have hrr := valid.fixed x r hr
    split at hx
    next he =>
      have hm : eq.reps[min a b]? = some (min a b) := by
        rcases Nat.le_total a b with hl | hl
        · rwa [Nat.min_eq_left hl]
        · rwa [Nat.min_eq_right hl]
      rw [← hx, hm] at hr
      have := Option.some.inj hr
      omega
    next he =>
      subst hx
      exact ⟨hr, he⟩
  · rintro ⟨hx, hm⟩
    rw [hx, Option.map_some, if_neg hm]

theorem link_rootCount : (eq.link a b).rootCount + 1 = eq.rootCount := by
  have hmax : max a b ∈ List.range eq.size := by
    have hla := lt_size_of_getElem? ha
    have hlb := lt_size_of_getElem? hb
    exact List.mem_range.mpr (by omega)
  have hrep : eq.isRepresentative (max a b) = true := by
    rw [isRepresentative_iff]
    rcases Nat.le_total a b with hl | hl
    · rwa [Nat.max_eq_right hl]
    · rwa [Nat.max_eq_left hl]
  have hone : (List.range eq.size).countP (fun x => x == max a b) = 1 :=
    List.count_eq_one_of_mem List.nodup_range hmax
  have hlink : (eq.link a b).rootCount =
      (List.range eq.size).countP fun x => eq.isRepresentative x && x != max a b := by
    rw [rootCount, link_size]
    exact List.countP_congr fun x _ => by rw [link_isRepresentative valid ha hb hne]
  have hsplit : ∀ xs : List Nat,
      xs.countP (fun x => eq.isRepresentative x && x != max a b) + xs.countP (fun x => x == max a b) =
        xs.countP eq.isRepresentative := by
    intro xs
    induction xs with
    | nil => rfl
    | cons x xs ih =>
      simp only [List.countP_cons]
      by_cases he : x = max a b
      · simp only [he, hrep, bne_self_eq_false, Bool.and_false, beq_self_eq_true]
        simp only [Bool.false_eq_true, if_false, if_true]
        omega
      · have hbeq : (x == max a b) = false := by simpa using he
        have hbne : (x != max a b) = true := by simpa using he
        simp only [hbeq, hbne, Bool.and_true, Bool.false_eq_true, if_false]
        omega
  have := hsplit (List.range eq.size)
  rw [hlink, rootCount]
  omega

theorem link_valid : (eq.link a b).Valid where
  le x r h := by
    rw [link_getElem?] at h
    obtain ⟨p, hp, hr⟩ := Option.map_eq_some_iff.mp h
    have := valid.le x p hp
    split at hr <;> omega
  fixed x r h := by
    rw [link_getElem?] at h
    obtain ⟨p, hp, hr⟩ := Option.map_eq_some_iff.mp h
    have hpp := valid.fixed x p hp
    split at hr
    next he =>
      rw [← hr]
      rcases Nat.le_total a b with hl | hl
      · exact link_getElem?_of_mem (by rwa [Nat.min_eq_left hl]) (by omega)
      · exact link_getElem?_of_mem (by rwa [Nat.min_eq_right hl]) (by omega)
    next he =>
      subst hr
      rw [link_getElem?, hpp, Option.map_some, if_neg he]
  counted := by
    have hcount := link_rootCount valid ha hb hne
    have hc := valid.counted
    have hm : (eq.link a b).merges = eq.merges + 1 := rfl
    rw [link_size]
    omega

end Link

/-- What a merge of two known elements does: nothing if they are in one class already, otherwise
it links their representatives. -/
theorem merge_known {eq : Equality} {x y : Nat} (hx : x < eq.size) (hy : y < eq.size) :
    (eq.Same x y ∧ eq.merge x y = .ok (false, eq)) ∨
      (¬eq.Same x y ∧ eq.root x ≠ eq.root y ∧
        eq.merge x y = .ok (true, eq.link (eq.root x) (eq.root y))) := by
  have hfx := find_eq_ok_iff.mpr (getElem?_root hx)
  have hfy := find_eq_ok_iff.mpr (getElem?_root hy)
  have hm : eq.merge x y = .ok (if eq.root x = eq.root y then (false, eq)
      else (true, eq.link (eq.root x) (eq.root y))) := by
    simp only [merge, hfx, hfy]
    rfl
  by_cases he : eq.root x = eq.root y
  · exact Or.inl ⟨(same_iff_root hx hy).mpr he, by rw [hm, if_pos he]⟩
  · refine Or.inr ⟨fun h => he ((same_iff_root hx hy).mp h), he, ?_⟩
    rw [hm, if_neg he]

/-- Merging is exact: the classes of the two elements become one, and nothing else that an
equivalence could tell apart is brought together. -/
structure Merges (eq : Equality) (x y : Nat) (merged : Bool) (eq' : Equality) : Prop where
  valid : eq'.Valid
  coarsens : eq.Coarsens eq'
  joined : eq'.Same x y
  counted : eq'.merges = eq.merges + merged.toNat
  flagged : merged = true ↔ ¬eq.Same x y
  least : ∀ R : Nat → Nat → Prop, Equivalence R → (∀ u v, eq.Same u v → R u v) → R x y →
    ∀ u v, eq'.Same u v → R u v

theorem merge_spec {eq : Equality} (valid : eq.Valid) {x y : Nat} (hx : x < eq.size)
    (hy : y < eq.size) : ∃ merged eq', eq.merge x y = .ok (merged, eq') ∧ eq.Merges x y merged eq' := by
  rcases merge_known hx hy with ⟨hs, hm⟩ | ⟨hs, hne, hm⟩
  · exact ⟨false, eq, hm, valid, .refl eq, hs, rfl, by simpa using hs, fun R _ hr _ => hr⟩
  · have hax := getElem?_root hx
    have hay := getElem?_root hy
    have ha := valid.fixed x _ hax
    have hb := valid.fixed y _ hay
    refine ⟨true, _, hm, link_valid valid ha hb hne, ?_, ?_, rfl, by simpa using hs, ?_⟩
    · refine ⟨link_size, Nat.le_succ _, link_same, fun h => ?_, rfl⟩
      exact absurd h (Nat.succ_ne_self _)
    · exact ⟨_, link_getElem?_of_mem hax (Or.inl rfl), link_getElem?_of_mem hay (Or.inr rfl)⟩
    · intro R hR hr hxy u v h
      rcases link_same_cases h with h | ⟨p, q, hp, hq, hpab, hqab⟩
      · exact hr u v h
      · have side : ∀ w p, eq.reps[w]? = some p → p = eq.root x ∨ p = eq.root y → R w x := by
          intro w p hw hpab
          rcases hpab with rfl | rfl
          · exact hr w x ⟨_, hw, hax⟩
          · exact hR.trans (hr w y ⟨_, hw, hay⟩) (hR.symm hxy)
        exact hR.trans (side u p hp hpab) (hR.symm (side v q hq hqab))

/-- The effect of a queue of merges between known elements. -/
theorem mergeEach_spec {eq : Equality} (valid : eq.Valid) (es : List Equation)
    (known : ∀ e ∈ es, e.lhs < eq.size ∧ e.rhs < eq.size) :
    ∃ (flags : List Bool) (eq' : Equality), eq.mergeEach es = (flags.map .ok, eq') ∧ eq'.Valid ∧
      eq.Coarsens eq' ∧
      eq'.merges = eq.merges + flags.count true ∧ (∀ e ∈ es, eq'.Same e.lhs e.rhs) ∧
      ∀ R : Nat → Nat → Prop, Equivalence R → (∀ u v, eq.Same u v → R u v) →
        (∀ e ∈ es, R e.lhs e.rhs) → ∀ u v, eq'.Same u v → R u v := by
  induction es generalizing eq with
  | nil => exact ⟨[], eq, rfl, valid, .refl eq, rfl, by simp, fun R _ hr _ => hr⟩
  | cons e es ih =>
    obtain ⟨hl, hr⟩ := known e (by simp)
    obtain ⟨merged, mid, hm, one⟩ := merge_spec valid hl hr
    have hsize := one.coarsens.size
    obtain ⟨flags, eq', hall, hvalid, hcoarse, hcount, hjoin, hleast⟩ := ih one.valid fun e' he' => by
      have := known e' (List.mem_cons_of_mem e he')
      omega
    refine ⟨merged :: flags, eq', ?_, hvalid, one.coarsens.trans hcoarse, ?_, ?_, ?_⟩
    · simp only [mergeEach, hm, hall, List.map_cons]
    · have hc := one.counted
      rw [List.count_cons]
      cases merged
      · simp only [Bool.toNat_false] at hc
        simp only [beq_iff_eq, Bool.false_eq_true, if_false]
        omega
      · simp only [Bool.toNat_true] at hc
        simp only [beq_self_eq_true, if_true]
        omega
    · intro e' he'
      rcases List.mem_cons.mp he' with rfl | he'
      · exact hcoarse.same _ _ one.joined
      · exact hjoin e' he'
    · intro R hR hsub heach
      apply hleast R hR
      · exact one.least R hR hsub (heach e (by simp))
      · exact fun e' he' => heach e' (List.mem_cons_of_mem e he')

section Grow

variable {eq : Equality}

theorem grow_size : eq.grow.size = eq.size + 1 := by
  simp [grow, size]

theorem grow_getElem?_of_lt {x : Nat} (hx : x < eq.size) : eq.grow.reps[x]? = eq.reps[x]? :=
  List.getElem?_append_left hx

theorem grow_getElem?_size : eq.grow.reps[eq.size]? = some eq.size :=
  List.getElem?_concat_length

theorem grow_same {x y : Nat} (h : eq.Same x y) : eq.grow.Same x y := by
  obtain ⟨r, hx, hy⟩ := h
  exact ⟨r, by rwa [grow_getElem?_of_lt (lt_size_of_getElem? hx)],
    by rwa [grow_getElem?_of_lt (lt_size_of_getElem? hy)]⟩

theorem grow_getElem?_cases {x r : Nat} (h : eq.grow.reps[x]? = some r) :
    eq.reps[x]? = some r ∨ (x = eq.size ∧ r = eq.size) := by
  have hlt := lt_size_of_getElem? h
  rw [grow_size] at hlt
  by_cases hx : x < eq.size
  · exact Or.inl (by rwa [grow_getElem?_of_lt hx] at h)
  · have he : x = eq.size := by omega
    subst he
    rw [grow_getElem?_size] at h
    exact Or.inr ⟨rfl, (Option.some.inj h).symm⟩

theorem grow_valid (valid : eq.Valid) : eq.grow.Valid where
  le x r h := by
    rcases grow_getElem?_cases h with h | ⟨rfl, rfl⟩
    · exact valid.le x r h
    · exact Nat.le_refl _
  fixed x r h := by
    rcases grow_getElem?_cases h with h | ⟨rfl, rfl⟩
    · have hr := valid.fixed x r h
      rwa [grow_getElem?_of_lt (lt_size_of_getElem? hr)]
    · exact grow_getElem?_size
  counted := by
    have hold : (List.range eq.size).countP eq.grow.isRepresentative = eq.rootCount := by
      refine List.countP_congr fun x hx => ?_
      rw [isRepresentative_iff, isRepresentative_iff, grow_getElem?_of_lt (List.mem_range.mp hx)]
    have hnew : eq.grow.isRepresentative eq.size = true :=
      isRepresentative_iff.mpr grow_getElem?_size
    have hcount : eq.grow.rootCount = eq.rootCount + 1 := by
      rw [rootCount, grow_size, List.range_succ, List.countP_append, hold, List.countP_singleton,
        if_pos hnew]
    have hm : eq.grow.merges = eq.merges := rfl
    have := valid.counted
    rw [grow_size]
    omega

theorem grow_same_cases (valid : eq.Valid) {x y : Nat} (h : eq.grow.Same x y) :
    eq.Same x y ∨ (x = eq.size ∧ y = eq.size) := by
  obtain ⟨r, hx, hy⟩ := h
  rcases grow_getElem?_cases hx with hx | ⟨rfl, rfl⟩
  · have hlt := lt_size_of_getElem? (valid.fixed x r hx)
    rcases grow_getElem?_cases hy with hy | ⟨rfl, rfl⟩
    · exact Or.inl ⟨r, hx, hy⟩
    · omega
  · rcases grow_getElem?_cases hy with hy | ⟨rfl, _⟩
    · have hlt := lt_size_of_getElem? (valid.fixed y _ hy)
      omega
    · exact Or.inr ⟨rfl, rfl⟩

end Grow

end Equality

end PartialHorn
