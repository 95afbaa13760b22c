import PartialHorn.Proofs.Safety
import PartialHorn.Proofs.Matches

namespace PartialHorn

theorem Rule.value_eq_ok_iff {rule : Rule} {b : Binding} {var x : Nat} :
    rule.value b var = .ok x ↔ b.value var = some x := by
  unfold Rule.value
  cases b.value var with
  | none => simp
  | some y => simp

theorem Rule.values_eq_ok_iff {rule : Rule} {b : Binding} {vars xs : List Nat} :
    rule.values b vars = .ok xs ↔ Valuation.Reads b.value vars xs := by
  simp only [Rule.values, mapM_eq_ok_iff, Valuation.Reads, Rule.value_eq_ok_iff]

namespace Action

open Structure

section Facts

variable {s t : Structure} (valid : s.Valid)

include valid

/-- A value that a definition answers is the value of the operation afterwards. -/
theorem define_returns {op x : Nat} {args : List Nat} (h : (define op args).Returns s x t) :
    t.Applies op args x := by
  rcases define_cases valid op args with ⟨_, hno⟩ | ⟨operation, happ, ⟨y, hrow, hy⟩ | ⟨hnone, hy⟩⟩
  · exact absurd h hno.not_returns
  · obtain ⟨rfl, rfl⟩ := h.unique hy
    have hkey := key_equal valid happ.2.lt_size
    exact ⟨_, hrow, hkey, (renewed_valid valid).equal_refl ((renewed_valid valid).row_lt hrow).2⟩
  · obtain ⟨rfl, rfl⟩ := h.unique hy
    have hdefined := defined_valid valid happ
    have hrow := defined_hasRow valid happ hnone
    refine ⟨_, hrow, ?_, hdefined.equal_refl (hdefined.row_lt hrow).2⟩
    exact (defined_grows valid op operation args).equal_all (key_equal valid happ.2.lt_size)

theorem assert_returns {pred : Nat} {args : List Nat} {flag : Bool}
    (h : (assert pred args).Returns s flag t) : t.Relates pred args := by
  rcases assert_cases valid pred args with ⟨_, hno⟩ | ⟨predicate, hrel, hy⟩
  · exact absurd h hno.not_returns
  · obtain ⟨_, rfl⟩ := h.unique hy
    have hlength : pred < s.renewed.predicates.length := by
      have hsig := (renews_renewed valid).signature
      have harity := (renewed_valid valid).predicateArities.length_eq
      rw [hsig] at harity
      exact harity ▸ (List.getElem?_eq_some_iff.mp hrel.1).1
    exact ⟨_, withTuple_hasTuple_self hlength, key_equal valid hrel.2.lt_size⟩

theorem merge_returns {x y : Nat} {merged : Bool} (h : (merge x y).Returns s merged t) :
    t.Equal x y := by
  rcases merge_cases valid x y with ⟨_, hno⟩ | ⟨sort, flag, equality, _, _, merges, hy⟩
  · exact absurd h hno.not_returns
  · obtain ⟨_, rfl⟩ := h.unique hy
    exact merges.joined

/-- The value that a definition answers is the only element that it may have created. -/
theorem define_covers {op x : Nat} {args : List Nat} (h : (define op args).Returns s x t) {y : Nat}
    (hy : y < t.size) : y < s.size ∨ y = x := by
  have hsize := renewed_size valid
  rcases define_cases valid op args with ⟨_, hno⟩ | ⟨operation, _, ⟨_, _, hyes⟩ | ⟨_, hyes⟩⟩
  · exact absurd h hno.not_returns
  · obtain ⟨_, rfl⟩ := h.unique hyes
    exact Or.inl (hsize ▸ hy)
  · obtain ⟨rfl, rfl⟩ := h.unique hyes
    have hdefined : (s.defined op operation args).size = s.renewed.size + 1 := extended_size _
    omega

theorem assert_size {pred : Nat} {args : List Nat} {flag : Bool}
    (h : (assert pred args).Returns s flag t) : t.size = s.size := by
  rcases assert_cases valid pred args with ⟨_, hno⟩ | ⟨_, _, hyes⟩
  · exact absurd h hno.not_returns
  · obtain ⟨_, rfl⟩ := h.unique hyes
    exact renewed_size valid

theorem merge_size {x y : Nat} {flag : Bool} (h : (merge x y).Returns s flag t) :
    t.size = s.size := by
  rcases merge_cases valid x y with ⟨_, hno⟩ | ⟨_, _, _, _, _, _, hyes⟩
  · exact absurd h hno.not_returns
  · obtain ⟨_, rfl⟩ := h.unique hyes
    rfl

theorem mergeFor_returns {rule : Rule} {x y : Nat} (h : (mergeFor rule x y).Returns s () t) :
    t.Equal x y := by
  obtain ⟨merged, u, hmerge, h⟩ := returns_andThen.mp h
  have hequal := merge_returns valid hmerge
  split at h
  next => exact (returns_report.mp h) ▸ hequal
  next => exact (returns_give.mp h).2 ▸ hequal

end Facts

/-- Under a binding a rule can draw a conclusion from a structure, which leaves another structure and
a binding with the value that the conclusion introduces, if it does. -/
def Draws (rule : Rule) (b : Binding) (s : Structure) (larger : Binding) (t : Structure) :
    Atom → Prop
  | .op op args result => ∃ xs x mid, Valuation.Reads b.value args xs ∧
      (define op xs).Returns s x mid ∧
      match b.value result with
      | some z => (mergeFor rule z x).Returns mid () t ∧ b = larger
      | none => b.assign result x = larger ∧ mid = t
  | .pred pred args => ∃ xs flag, Valuation.Reads b.value args xs ∧
      (assert pred xs).Returns s flag t ∧ b = larger
  | .eq lhs rhs => ∃ x y, b.value lhs = some x ∧ b.value rhs = some y ∧
      (mergeFor rule x y).Returns s () t ∧ b = larger

/-- Everything that drawing a conclusion can do, by the form of the conclusion. -/
theorem conclude_returns_iff {rule : Rule} {b larger : Binding} {s t : Structure} {atom : Atom} :
    (conclude rule b atom).Returns s larger t ↔ Draws rule b s larger t atom := by
  cases atom with
  | op op args result =>
    constructor
    · intro h
      obtain ⟨xs, _, hargs, h⟩ := returns_andThen.mp h
      obtain ⟨hxs, rfl⟩ := returns_ofExcept.mp hargs
      obtain ⟨x, mid, hdefine, h⟩ := returns_andThen.mp h
      refine ⟨xs, x, mid, Rule.values_eq_ok_iff.mp hxs, hdefine, ?_⟩
      cases hv : b.value result with
      | none =>
        simp only [hv] at h
        exact returns_give.mp h
      | some z =>
        simp only [hv] at h
        obtain ⟨_, _, hmerge, h⟩ := returns_andThen.mp h
        obtain ⟨rfl, rfl⟩ := returns_give.mp h
        exact ⟨hmerge, rfl⟩
    · intro h
      obtain ⟨xs, x, mid, hreads, hdefine, h⟩ := h
      refine (ofExcept_returns (Rule.values_eq_ok_iff.mpr hreads) s).andThen (hdefine.andThen ?_)
      cases hv : b.value result with
      | none =>
        rw [hv] at h
        exact returns_give.mpr h
      | some z =>
        rw [hv] at h
        exact h.1.andThen (returns_give.mpr ⟨h.2, rfl⟩)
  | pred pred args =>
    constructor
    · intro h
      obtain ⟨xs, _, hargs, h⟩ := returns_andThen.mp h
      obtain ⟨hxs, rfl⟩ := returns_ofExcept.mp hargs
      obtain ⟨flag, _, hassert, h⟩ := returns_andThen.mp h
      obtain ⟨rfl, rfl⟩ := returns_give.mp h
      exact ⟨xs, flag, Rule.values_eq_ok_iff.mp hxs, hassert, rfl⟩
    · intro h
      obtain ⟨xs, flag, hreads, hassert, rfl⟩ := h
      refine (ofExcept_returns (Rule.values_eq_ok_iff.mpr hreads) s).andThen ?_
      exact hassert.andThen (give_returns _ _)
  | eq lhs rhs =>
    constructor
    · intro h
      obtain ⟨x, _, hx, h⟩ := returns_andThen.mp h
      obtain ⟨hl, rfl⟩ := returns_ofExcept.mp hx
      obtain ⟨y, _, hy, h⟩ := returns_andThen.mp h
      obtain ⟨hr, rfl⟩ := returns_ofExcept.mp hy
      obtain ⟨_, _, hmerge, h⟩ := returns_andThen.mp h
      obtain ⟨rfl, rfl⟩ := returns_give.mp h
      exact ⟨x, y, Rule.value_eq_ok_iff.mp hl, Rule.value_eq_ok_iff.mp hr, hmerge, rfl⟩
    · intro h
      obtain ⟨x, y, hl, hr, hmerge, rfl⟩ := h
      refine (ofExcept_returns (Rule.value_eq_ok_iff.mpr hl) s).andThen ?_
      refine (ofExcept_returns (Rule.value_eq_ok_iff.mpr hr) s).andThen ?_
      exact hmerge.andThen (give_returns _ _)

/-- The results of conclusions are variables of a binding. -/
def Fitting (atoms : List Atom) (b : Binding) : Prop :=
  ∀ atom ∈ atoms, ∀ result, atom.result? = some result → result < b.length

theorem Fitting.head {atom : Atom} {atoms : List Atom} {b : Binding} (h : Fitting (atom :: atoms) b) :
    Fitting [atom] b :=
  fun other ho => h other (List.mem_cons.mpr (Or.inl (List.mem_singleton.mp ho)))

theorem Fitting.tail {atom : Atom} {atoms : List Atom} {b : Binding} (h : Fitting (atom :: atoms) b) :
    Fitting atoms b :=
  fun other ho => h other (List.mem_cons_of_mem atom ho)

theorem Fitting.of_length {atoms : List Atom} {b c : Binding} (h : Fitting atoms b)
    (hlen : c.length = b.length) : Fitting atoms c :=
  fun atom hatom result hresult => hlen ▸ h atom hatom result hresult

/-- Conclusions that have been drawn are true. -/
theorem concludeAll_returns {s t : Structure} (valid : s.Valid) {rule : Rule} {atoms : List Atom}
    {b : Binding} (fitting : Fitting atoms b) (h : (concludeAll rule atoms b).Returns s () t) :
    t.Concludes atoms b.value := by
  induction atoms generalizing s b with
  | nil => trivial
  | cons atom atoms ih =>
    have fitting' := fitting.tail
    obtain ⟨larger, u, hfirst, hrest⟩ := returns_andThen.mp h
    have hkept := hfirst.kept (conclude_keeps rule b atom) valid
    have grows := (hrest.kept (concludeAll_keeps rule atoms larger) hkept.1).2
    have hdraws := conclude_returns_iff.mp hfirst
    cases atom with
    | op op args result =>
      obtain ⟨xs, y, mid, hreads, hdefine, hlast⟩ := hdraws
      have happ := define_returns valid hdefine
      have hkept₁ := hdefine.kept (define_keeps op xs) valid
      refine ⟨xs, y, hreads, ?_⟩
      cases hv : b.value result with
      | none =>
        rw [hv] at hlast
        obtain ⟨rfl, rfl⟩ := hlast
        have hlt : result < b.length := fitting (.op op args result) (by simp) result rfl
        refine ⟨grows.applies happ, ?_⟩
        have hconcludes := ih hkept.1 (fitting'.of_length (Binding.assign_length b result y)) hrest
        rwa [Binding.assign_value hlt] at hconcludes
      | some z =>
        rw [hv] at hlast
        obtain ⟨hmerge, rfl⟩ := hlast
        have hequal := mergeFor_returns hkept₁.1 hmerge
        have grows₁ := (hmerge.kept (mergeFor_keeps rule z y) hkept₁.1).2
        exact ⟨grows.applies (grows₁.applies happ), grows.equal _ _ hequal, ih hkept.1 fitting' hrest⟩
    | pred pred args =>
      obtain ⟨xs, flag, hreads, hassert, rfl⟩ := hdraws
      have hrel := assert_returns valid hassert
      exact ⟨⟨xs, hreads, grows.relates hrel⟩, ih hkept.1 fitting' hrest⟩
    | eq lhs rhs =>
      obtain ⟨x, y, hl, hr, hmerge, rfl⟩ := hdraws
      have hequal := mergeFor_returns valid hmerge
      exact ⟨⟨x, y, hl, hr, grows.equal _ _ hequal⟩, ih hkept.1 fitting' hrest⟩

section Settled

variable {s : Structure} (valid : s.Valid)

include valid

/-- A definition of a value that is there already does nothing but rebuild. -/
theorem define_settled {op y : Nat} {args : List Nat} (h : s.Applies op args y) :
    ∃ x, (define op args).Returns s x s.renewed ∧ s.renewed.Equal y x := by
  have valid' := renewed_valid valid
  have clean' := renewed_dirty valid
  have happlies : s.renewed.Applies op args y := (grows_renewed valid).applies h
  obtain ⟨row, hrow, hargs, hy⟩ := h
  obtain ⟨operation, hop, htyped, _⟩ := valid.rowTyped op row hrow
  have happ : s.Applicable op args operation :=
    ⟨hop, valid.typed_equal (equal_all_symm hargs) htyped⟩
  rcases define_cases valid op args with ⟨hno, _⟩ | ⟨_, _, ⟨x, hx, hret⟩ | ⟨hnone, _⟩⟩
  · exact absurd happ (hno operation)
  · refine ⟨x, hret, valid'.applies_unique clean' happlies ?_⟩
    exact ⟨_, hx, key_equal valid happ.2.lt_size, valid'.equal_refl (valid'.row_lt hx).2⟩
  · obtain ⟨_, _, hcanonical⟩ := (valid'.applies_iff clean').mp happlies
    exact absurd hcanonical (result?_eq_none hnone)

theorem assert_settled {pred : Nat} {args : List Nat} (h : s.Relates pred args) :
    ∃ flag, (assert pred args).Returns s flag s.renewed := by
  have hrelates : s.renewed.Relates pred args := (grows_renewed valid).relates h
  obtain ⟨tuple, htuple, hargs⟩ := h
  obtain ⟨predicate, hpred, htyped⟩ := valid.tupleTyped pred tuple htuple
  have hrel : s.Relatable pred args predicate :=
    ⟨hpred, valid.typed_equal (equal_all_symm hargs) htyped⟩
  obtain ⟨_, hcanonical⟩ := ((renewed_valid valid).relates_iff (renewed_dirty valid)).mp hrelates
  rcases assert_cases valid pred args with ⟨hno, _⟩ | ⟨_, _, hret⟩
  · exact absurd hrel (hno predicate)
  · have hsame : s.renewed.withTuple pred (s.key args) = s.renewed := withTuple_of_hasTuple hcanonical
    rw [hsame] at hret
    exact ⟨_, hret⟩

theorem mergeFor_settled {rule : Rule} {x y : Nat} (h : s.Equal x y) :
    (mergeFor rule x y).Returns s () s := by
  have hsort := valid.oneSort x y h
  have hx := List.getElem?_eq_getElem (valid.lt_size h)
  rcases merge_cases valid x y with ⟨hno, _⟩ | ⟨_, merged, equality, _, _, merges, hret⟩
  · exact absurd ⟨_, hx, hsort ▸ hx⟩ hno
  · have hfalse : merged = false := by
      cases merged with
      | false => rfl
      | true => exact absurd h (merges.flagged.mp rfl)
    subst hfalse
    have hcount := merges.counted
    rw [Bool.toNat_false, Nat.add_zero] at hcount
    rw [joined_of_unchanged merges hcount] at hret
    exact hret.andThen (give_returns _ _)

/-- A conclusion that is true can be drawn again, with a rebuild at most. A value that it introduces
is then the representative of the one that makes it true. -/
theorem conclude_settled {rule : Rule} {atom : Atom} {atoms : List Atom} {b : Binding}
    (fitting : Fitting (atom :: atoms) b) (h : s.Concludes (atom :: atoms) b.value) :
    ∃ larger t, (conclude rule b atom).Returns s larger t ∧ (t = s ∨ t = s.renewed) ∧
      Fitting atoms larger ∧ t.Concludes atoms larger.value := by
  have grows := grows_renewed valid
  have fitting' := fitting.tail
  cases atom with
  | op op args result =>
    obtain ⟨xs, y, hreads, happ, hrest⟩ := h
    obtain ⟨x, hdefine, hyx⟩ := define_settled valid happ
    cases hv : b.value result with
    | none =>
      rw [hv] at hrest
      have hlt : result < b.length := fitting (.op op args result) (by simp) result rfl
      have hdraws : Draws rule b s (b.assign result x) s.renewed (.op op args result) := by
        refine ⟨xs, x, s.renewed, hreads, hdefine, ?_⟩
        rw [hv]
        exact ⟨rfl, rfl⟩
      have fitting'' := fitting'.of_length (Binding.assign_length b result x)
      refine ⟨_, _, conclude_returns_iff.mpr hdraws, Or.inr rfl, fitting'', ?_⟩
      rw [Binding.assign_value hlt]
      exact hrest.mono grows ((Agrees.refl s.renewed b.value).update hyx result)
    | some z =>
      rw [hv] at hrest
      have hzx : s.renewed.Equal z x := (grows.equal z y hrest.1).trans hyx
      have hdraws : Draws rule b s b s.renewed (.op op args result) := by
        refine ⟨xs, x, s.renewed, hreads, hdefine, ?_⟩
        rw [hv]
        exact ⟨mergeFor_settled (renewed_valid valid) hzx, rfl⟩
      exact ⟨b, _, conclude_returns_iff.mpr hdraws, Or.inr rfl, fitting',
        hrest.2.mono grows (.refl _ _)⟩
  | pred pred args =>
    obtain ⟨⟨xs, hreads, hrel⟩, hrest⟩ := h
    obtain ⟨flag, hassert⟩ := assert_settled valid hrel
    have hdraws : Draws rule b s b s.renewed (.pred pred args) := ⟨xs, flag, hreads, hassert, rfl⟩
    exact ⟨b, _, conclude_returns_iff.mpr hdraws, Or.inr rfl, fitting', hrest.mono grows (.refl _ _)⟩
  | eq lhs rhs =>
    obtain ⟨⟨x, y, hl, hr, he⟩, hrest⟩ := h
    have hdraws : Draws rule b s b s (.eq lhs rhs) := ⟨x, y, hl, hr, mergeFor_settled valid he, rfl⟩
    exact ⟨b, s, conclude_returns_iff.mpr hdraws, Or.inl rfl, fitting', hrest⟩

/-- Conclusions that are true can be drawn again without a change but a rebuild. -/
theorem concludeAll_settled {rule : Rule} {atoms : List Atom} {b : Binding}
    (fitting : Fitting atoms b) (h : s.Concludes atoms b.value) :
    ∃ t, (concludeAll rule atoms b).Returns s () t ∧ (t = s ∨ t = s.renewed) := by
  induction atoms generalizing s b with
  | nil => exact ⟨s, give_returns _ _, Or.inl rfl⟩
  | cons atom atoms ih =>
    obtain ⟨larger, mid, hfirst, hmid, fitting', hrest⟩ := conclude_settled valid fitting h
    have valid' : mid.Valid := hmid.elim (fun he => he ▸ valid) fun he => he ▸ renewed_valid valid
    obtain ⟨t, hlast, ht⟩ := ih valid' fitting' hrest
    refine ⟨t, hfirst.andThen hlast, ?_⟩
    rcases hmid with rfl | rfl
    · exact ht
    · exact Or.inr (ht.elim id fun he => he.trans (renewed_clean (renewed_dirty valid)).2)

end Settled

end Action

end PartialHorn
