import PartialHorn.Proofs.Interpretation

namespace PartialHorn

namespace Structure

/-- A class of equal elements, named by its representative. -/
@[ext]
structure Class (s : Structure) where
  val : Nat
  fixed : s.equality.reps[val]? = some val

namespace Class

/-- The class that an element represents, if it represents one. -/
def of? (s : Structure) (x : Nat) : Option s.Class :=
  if h : s.equality.reps[x]? = some x then some ⟨x, h⟩ else none

theorem of?_eq_some_iff {s : Structure} {x : Nat} {c : s.Class} : of? s x = some c ↔ x = c.val := by
  unfold of?
  constructor
  · intro h
    split at h
    next => exact congrArg val (Option.some.inj h)
    next => exact nomatch h
  · rintro rfl
    rw [dif_pos c.fixed]

def of {s : Structure} (valid : s.Valid) (x : Nat) (hx : x < s.size) : s.Class where
  val := s.equality.root x
  fixed := valid.partition.fixed x _ (Equality.getElem?_root (valid.tracked ▸ hx))

theorem root_val {s : Structure} (c : s.Class) : s.equality.root c.val = c.val :=
  Equality.root_eq_of_getElem? c.fixed

theorem roots_val {s : Structure} (cs : List s.Class) :
    (cs.map val).map s.equality.root = cs.map val :=
  map_eq_self_iff.mpr fun x hx => by
    obtain ⟨c, _, rfl⟩ := List.mem_map.mp hx
    exact c.root_val

theorem val_lt {s : Structure} (valid : s.Valid) (c : s.Class) : c.val < s.size :=
  valid.tracked ▸ Equality.lt_size_of_getElem? c.fixed

theorem sort_val {s : Structure} (valid : s.Valid) (c : s.Class) :
    s.sorts[c.val]? = some ((s.sorts[c.val]?).getD 0) := by
  have hlt : c.val < s.sorts.length := c.val_lt valid
  rw [List.getElem?_eq_getElem hlt, Option.getD_some]

end Class

/-- The representatives of the classes that a valuation gives. -/
def names {s : Structure} (v : Valuation s.Class) : Valuation Nat :=
  fun var => (v var).map Class.val

section Names

variable {s : Structure} {v : Valuation s.Class}

theorem names_eq_some_iff {var x : Nat} : names v var = some x ↔ ∃ c, v var = some c ∧ c.val = x :=
  Option.map_eq_some_iff

theorem names_some {var : Nat} {c : s.Class} (h : v var = some c) : names v var = some c.val :=
  names_eq_some_iff.mpr ⟨c, h, rfl⟩

theorem names_none {var : Nat} (h : v var = none) : names v var = none := by
  rw [names, h, Option.map_none]

theorem names_update (var : Nat) (c : s.Class) :
    Function.update (names v) var (some c.val) = names (Function.update v var (some c)) := by
  funext other
  by_cases he : other = var
  · subst he
    rw [Function.update_self, names_some (Function.update_self ..)]
  · rw [Function.update_of_ne he, names, names, Function.update_of_ne he]

theorem reads_of_names {vars xs : List Nat} (h : (names v).Reads vars xs) :
    ∃ cs, v.Reads vars cs ∧ cs.map Class.val = xs := by
  induction h with
  | nil => exact ⟨[], .nil, rfl⟩
  | cons hx _ ih =>
    obtain ⟨c, hc, hval⟩ := names_eq_some_iff.mp hx
    obtain ⟨cs, hcs, hvals⟩ := ih
    exact ⟨c :: cs, .cons hc hcs, by rw [List.map_cons, hval, hvals]⟩

theorem reads_names {vars : List Nat} {cs : List s.Class} (h : v.Reads vars cs) :
    (names v).Reads vars (cs.map Class.val) :=
  List.forall₂_map_right_iff.mpr (h.imp fun _ _ => names_some)

end Names

section Quotient

variable {sig : Signature} {s : Structure} (valid : s.Valid) (hsig : s.signature = sig)

theorem typed_classes {cs : List s.Class} {sorts : List Nat} (h : s.Typed (cs.map Class.val) sorts) :
    cs.map (fun c => (s.sorts[c.val]?).getD 0) = sorts := by
  refine map_eq_of_forall₂ ((List.forall₂_map_left_iff.mp h).imp fun c sort hsort => ?_)
  rw [hsort, Option.getD_some]

/-- The classes of a structure as an interpretation: what the tables say of the representatives. -/
def quotient : Interpretation sig s.Class where
  sort c := (s.sorts[c.val]?).getD 0
  apply op cs := (s.result? op (cs.map Class.val)).bind (Class.of? s)
  holds pred cs := s.HasTuple pred (cs.map Class.val)
  applySorted op cs c h := by
    obtain ⟨x, hx, hc⟩ := Option.bind_eq_some_iff.mp h
    cases Class.of?_eq_some_iff.mp hc
    obtain ⟨operation, hop, hargs, hresult⟩ := valid.rowTyped op _ (hasRow_of_result? hx)
    exact ⟨operation, hsig ▸ hop, typed_classes hargs, by rw [hresult, Option.getD_some]⟩
  holdsSorted pred cs h := by
    obtain ⟨predicate, hpred, hargs⟩ := valid.tupleTyped pred _ h
    exact ⟨predicate, hsig ▸ hpred, typed_classes hargs⟩

theorem quotient_apply {op : Nat} {cs : List s.Class} {c : s.Class} :
    (quotient valid hsig).apply op cs = some c ↔ s.HasRow op ⟨cs.map Class.val, c.val⟩ := by
  rw [← valid.result?_iff]
  refine Option.bind_eq_some_iff.trans ⟨?_, fun h => ⟨_, h, Class.of?_eq_some_iff.mpr rfl⟩⟩
  rintro ⟨x, hx, hc⟩
  exact Class.of?_eq_some_iff.mp hc ▸ hx

/-- The map of the elements to their classes. -/
def roots : List s.Class :=
  List.ofFn fun x : Fin s.size => Class.of valid x x.isLt

theorem image_roots {x : Nat} (hx : x < s.size) :
    image (roots valid) x = some (Class.of valid x hx) := by
  rw [image, roots, List.getElem?_ofFn, dif_pos hx]

theorem reads_roots {xs : List Nat} (hx : ∀ x ∈ xs, x < s.size) :
    ∃ cs, (image (roots valid)).Reads xs cs ∧ cs.map Class.val = xs.map s.equality.root := by
  induction xs with
  | nil => exact ⟨[], .nil, rfl⟩
  | cons x xs ih =>
    obtain ⟨cs, hcs, hvals⟩ := ih fun y hy => hx y (List.mem_cons_of_mem x hy)
    have hlt := hx x List.mem_cons_self
    refine ⟨Class.of valid x hlt :: cs, .cons (image_roots valid hlt) hcs, ?_⟩
    rw [List.map_cons, List.map_cons, hvals]
    rfl

section Clean

variable (clean : s.dirty = false)

include clean

theorem roots_maps : s.Maps (quotient valid hsig) (roots valid) where
  sorts := by
    refine List.ext_getElem? fun x => ?_
    by_cases hx : x < s.size
    · have himage : (roots valid)[x]? = some (Class.of valid x hx) := image_roots valid hx
      have hsort := (Class.of valid x hx).sort_val valid
      rw [List.getElem?_map, himage]
      exact hsort.symm.trans (valid.oneSort _ _ (valid.equal_root hx).symm)
    · rw [List.getElem?_eq_none (Nat.le_of_not_lt hx), List.getElem?_eq_none]
      rw [List.length_map, roots, List.length_ofFn]
      exact Nat.le_of_not_lt hx
  equal x y he := by
    rw [image_roots valid (valid.lt_size he), image_roots valid (valid.lt_size he.symm)]
    exact congrArg some (Class.ext (root_eq he))
  rows op row hrow := by
    obtain ⟨hargs, hresult⟩ := valid.row_lt hrow
    obtain ⟨cs, hcs, hvals⟩ := reads_roots valid hargs
    refine ⟨cs, _, hcs, image_roots valid hresult, (quotient_apply valid hsig).mpr ?_⟩
    have hcanonical : s.HasRow op (s.equality.canonical row) :=
      (valid.rowCanonical clean op row hrow).symm ▸ hrow
    rw [hvals]
    exact hcanonical
  tuples pred tuple ht := by
    obtain ⟨cs, hcs, hvals⟩ := reads_roots valid (valid.tuple_lt ht)
    refine ⟨cs, hcs, ?_⟩
    have hcanonical := valid.tupleCanonical clean pred tuple ht
    show s.HasTuple pred (cs.map Class.val)
    rw [hvals, hcanonical]
    exact ht

theorem applies_classes {op y : Nat} {cs : List s.Class} (h : s.Applies op (cs.map Class.val) y) :
    ∃ c : s.Class, s.Equal y c.val ∧ (quotient valid hsig).apply op cs = some c := by
  obtain ⟨_, hy, hrow⟩ := (valid.applies_iff clean).mp h
  rw [Class.roots_val] at hrow
  exact ⟨.of valid y hy, valid.equal_root hy, (quotient_apply valid hsig).mpr hrow⟩

theorem relates_classes {pred : Nat} {cs : List s.Class} (h : s.Relates pred (cs.map Class.val)) :
    (quotient valid hsig).holds pred cs := by
  obtain ⟨_, htuple⟩ := (valid.relates_iff clean).mp h
  rw [Class.roots_val] at htuple
  exact htuple

/-- Conclusions that are true of the representatives are true in the quotient, when the variables
that they introduce are given the classes of their values. -/
theorem concludes_classes {atoms : List Atom} {v : Valuation s.Class}
    (h : s.Concludes atoms (names v)) :
    ∃ w : Valuation s.Class, (∀ var c, v var = some c → w var = some c) ∧
      ∀ atom ∈ atoms, (quotient valid hsig).Makes w atom := by
  induction atoms generalizing v with
  | nil => exact ⟨v, fun _ _ hc => hc, by simp⟩
  | cons atom atoms ih =>
    cases atom with
    | op op args result =>
      obtain ⟨xs, y, hreads, happ, hrest⟩ := h
      obtain ⟨cs, hcs, rfl⟩ := reads_of_names hreads
      obtain ⟨c, hyc, hvalue⟩ := applies_classes valid hsig clean happ
      cases hv : v result with
      | some d =>
        rw [names_some hv] at hrest
        obtain ⟨w, hw, hmakes⟩ := ih hrest.2
        have he : d = c := Class.ext (Equality.eq_of_same d.fixed c.fixed (hrest.1.trans hyc))
        refine ⟨w, hw, List.forall_mem_cons.mpr ⟨?_, hmakes⟩⟩
        exact ⟨cs, c, hcs.imp fun _ _ => hw _ _, hw result c (he ▸ hv), hvalue⟩
      | none =>
        rw [names_none hv] at hrest
        have hlast := hrest.mono (.refl valid) ((Agrees.refl s _).update hyc result)
        rw [names_update] at hlast
        obtain ⟨w, hw, hmakes⟩ := ih hlast
        have hold : ∀ var d, v var = some d → w var = some d := by
          intro var d hd
          have hne : var ≠ result := by
            rintro rfl
            exact nomatch hv.symm.trans hd
          exact hw var d ((Function.update_of_ne hne ..).trans hd)
        refine ⟨w, hold, List.forall_mem_cons.mpr ⟨?_, hmakes⟩⟩
        exact ⟨cs, c, hcs.imp fun _ _ => hold _ _, hw result c (Function.update_self ..), hvalue⟩
    | pred pred args =>
      obtain ⟨⟨xs, hreads, hrel⟩, hrest⟩ := h
      obtain ⟨cs, hcs, rfl⟩ := reads_of_names hreads
      obtain ⟨w, hw, hmakes⟩ := ih hrest
      refine ⟨w, hw, List.forall_mem_cons.mpr ⟨?_, hmakes⟩⟩
      exact ⟨cs, hcs.imp fun _ _ => hw _ _, relates_classes valid hsig clean hrel⟩
    | eq lhs rhs =>
      obtain ⟨⟨x, y, hl, hr, he⟩, hrest⟩ := h
      obtain ⟨c, hc, rfl⟩ := names_eq_some_iff.mp hl
      obtain ⟨d, hd, rfl⟩ := names_eq_some_iff.mp hr
      obtain ⟨w, hw, hmakes⟩ := ih hrest
      have hcd : c = d := Class.ext (Equality.eq_of_same c.fixed d.fixed he)
      refine ⟨w, hw, List.forall_mem_cons.mpr ⟨?_, hmakes⟩⟩
      exact ⟨c, hw lhs c hc, hw rhs c (hcd ▸ hd)⟩

/-- A sequent that holds in a structure holds in its quotient. -/
theorem quotient_satisfies {seq : Sequent} (h : s.Satisfies seq) :
    (quotient valid hsig).Satisfies seq := by
  intro v assigns hpremises
  refine concludes_classes valid hsig clean (h _ ⟨fun var hvar => ?_, fun var hvar => ?_⟩ ?_)
  · obtain ⟨c, hc, hsort⟩ := assigns.ranged var hvar
    exact ⟨c.val, _, names_some hc, hsort, c.sort_val valid⟩
  · exact names_none (assigns.only var hvar)
  · intro atom hatom
    have hmakes := hpremises atom hatom
    cases atom with
    | op op args result =>
      obtain ⟨cs, c, hcs, hc, hvalue⟩ := hmakes
      have hrow := (quotient_apply valid hsig).mp hvalue
      exact ⟨_, c.val, reads_names hcs, names_some hc, valid.applies_row hrow⟩
    | pred pred args =>
      obtain ⟨cs, hcs, hholds⟩ := hmakes
      exact ⟨_, reads_names hcs, valid.relates_tuple hholds⟩
    | eq lhs rhs =>
      obtain ⟨c, hl, hr⟩ := hmakes
      exact ⟨c.val, c.val, names_some hl, names_some hr, valid.equal_refl (c.val_lt valid)⟩

end Clean

end Quotient

end Structure

end PartialHorn
