import PartialHorn.Proofs.Solutions

namespace PartialHorn

theorem Atom.joinVars_eq_vars {atom : Atom} {step : Step} (h : atom.join? = some step) :
    atom.joinVars = step.vars := by
  cases atom with
  | op op args result =>
    cases Option.some.inj h
    rfl
  | pred pred args =>
    cases Option.some.inj h
    rfl
  | eq lhs rhs => exact nomatch h

theorem Atom.not_scan_of_join? {atom : Atom} {var sort : Nat} : atom.join? ≠ some (.scan var sort) := by
  cases atom with
  | op op args result => simp [join?]
  | pred pred args => simp [join?]
  | eq lhs rhs => simp [join?]

theorem Atom.filter?_eq_some {atom : Atom} {step : Step} (h : atom.filter? = some step) :
    ∃ lhs rhs, atom = .eq lhs rhs ∧ step = .eq lhs rhs := by
  cases atom with
  | op op args result => exact nomatch h
  | pred pred args => exact nomatch h
  | eq lhs rhs => exact ⟨lhs, rhs, rfl, (Option.some.inj h).symm⟩

theorem scans_apart {seq : Sequent} {vars : List Nat} {scans : List Step} (nodup : vars.Nodup)
    (h : List.Forall₂ (fun var step => ∃ sort, seq.sort? var = some sort ∧
      step = Step.scan var sort) vars scans) :
    scans.Pairwise fun earlier later => ∀ var sort, later = .scan var sort → var ∉ earlier.vars := by
  induction h with
  | nil => exact .nil
  | @cons v step vars scans hstep hrest ih =>
    obtain ⟨hv, nodup'⟩ := List.nodup_cons.mp nodup
    refine List.pairwise_cons.mpr ⟨fun later hl var sort he => ?_, ih nodup'⟩
    obtain ⟨w, hw, sort', _, rfl⟩ := forall₂_left_of_mem hrest hl
    obtain ⟨sort'', _, rfl⟩ := hstep
    cases he
    rw [Step.vars, List.mem_singleton]
    rintro rfl
    exact hv hw

namespace Structure

/-- The values of a binding are least members of their classes. -/
def Canonical (s : Structure) (b : Binding) : Prop :=
  ∀ var x, b.value var = some x → s.equality.reps[x]? = some x

theorem Valid.carrier_pairwise {s : Structure} (valid : s.Valid) (sort : Nat) :
    (s.carrier sort).Pairwise (· < ·) := by
  by_cases h : sort < s.signature.sorts.length
  · rw [valid.carrier_eq h]
    exact positions_pairwise _ s.sorts
  · rw [valid.carrier_eq_nil (Nat.le_of_not_lt h)]
    exact List.Pairwise.nil

theorem Valid.mem_canonicalCarrier {s : Structure} (valid : s.Valid) {x sort : Nat}
    (h : sort < s.signature.sorts.length) :
    x ∈ s.canonicalCarrier sort ↔ s.sorts[x]? = some sort ∧ s.equality.reps[x]? = some x := by
  rw [canonicalCarrier, List.mem_filter, valid.mem_carrier h, Equality.isRepresentative_iff]

theorem lookup_domains {s : Structure} {sorts : List Nat} {sort : Nat} (h : sort ∈ sorts) :
    Domains.elements (sorts.map fun sort => (sort, s.canonicalCarrier sort)) sort =
      s.canonicalCarrier sort := by
  unfold Domains.elements
  induction sorts with
  | nil => simp at h
  | cons first sorts ih =>
    rw [List.map_cons, List.lookup_cons]
    by_cases he : sort = first
    · subst he
      simp
    · have hne : (sort == first) = false := beq_eq_false_iff_ne.mpr he
      rw [hne]
      exact ih ((List.mem_cons.mp h).resolve_left he)

/-- The elements that a rule scans are the representatives of the sort. -/
theorem elements_domains {s : Structure} {rule : Rule} {var sort : Nat}
    (hread : rule.sortsScanned = ascending (rule.plan.filterMap Step.scannedSort?))
    (h : .scan var sort ∈ rule.plan) :
    (s.domains rule).elements sort = s.canonicalCarrier sort := by
  refine lookup_domains ?_
  rw [hread, mem_ascending]
  exact List.mem_filterMap.mpr ⟨_, h, rfl⟩

section Compiled

variable {s : Structure} (valid : s.Valid) {sig : Signature} (hsig : s.signature = sig)
  {seq : Sequent} {rule : Rule} (compiles : Rule.Compiles sig seq rule)

theorem mem_plan_cases (compiles : Rule.Compiles sig seq rule) {step : Step}
    (h : step ∈ rule.plan) :
    (∃ atom ∈ seq.premises, atom.join? = some step) ∨
      (∃ var sort, var ∈ seq.scope.scanned ∧ seq.sort? var = some sort ∧ step = .scan var sort) ∨
      ∃ lhs rhs, .eq lhs rhs ∈ seq.premises ∧ step = .eq lhs rhs := by
  obtain ⟨scans, hscans, hplan⟩ := compiles.plan
  rw [hplan, List.mem_append, List.mem_append] at h
  rcases h with (h | h) | h
  · exact Or.inl (List.mem_filterMap.mp h)
  · obtain ⟨var, hvar, sort, hsort, he⟩ := forall₂_left_of_mem hscans h
    exact Or.inr (Or.inl ⟨var, sort, hvar, hsort, he⟩)
  · obtain ⟨atom, hatom, hf⟩ := List.mem_filterMap.mp h
    obtain ⟨lhs, rhs, rfl, rfl⟩ := Atom.filter?_eq_some hf
    exact Or.inr (Or.inr ⟨lhs, rhs, hatom, rfl⟩)

include compiles in
theorem join_mem_plan {atom : Atom} (hatom : atom ∈ seq.premises) {step : Step}
    (h : atom.join? = some step) : step ∈ rule.plan := by
  obtain ⟨scans, _, hplan⟩ := compiles.plan
  rw [hplan]
  exact List.mem_append_left _ (List.mem_append_left _ (List.mem_filterMap.mpr ⟨atom, hatom, h⟩))

include compiles in
theorem scan_mem_plan {var sort : Nat} (hvar : var ∈ seq.scope.scanned)
    (h : seq.sort? var = some sort) : .scan var sort ∈ rule.plan := by
  obtain ⟨scans, hscans, hplan⟩ := compiles.plan
  obtain ⟨step, hstep, sort', hsort, rfl⟩ := forall₂_right_of_mem hscans hvar
  cases Option.some.inj (h.symm.trans hsort)
  rw [hplan]
  exact List.mem_append_left _ (List.mem_append_right _ hstep)

include compiles in
theorem filter_mem_plan {lhs rhs : Nat} (hatom : .eq lhs rhs ∈ seq.premises) :
    .eq lhs rhs ∈ rule.plan := by
  obtain ⟨scans, _, hplan⟩ := compiles.plan
  rw [hplan]
  exact List.mem_append_right _ (List.mem_filterMap.mpr ⟨_, hatom, rfl⟩)

include compiles in
theorem mem_plan_vars {var : Nat} : var ∈ rule.plan.flatMap Step.vars ↔ var ∈ seq.ranged := by
  rw [Sequent.mem_ranged, List.mem_flatMap]
  constructor
  · rintro ⟨step, hstep, hvar⟩
    rcases mem_plan_cases compiles hstep with ⟨atom, hatom, hj⟩ | ⟨v, sort, hv, _, rfl⟩ |
      ⟨lhs, rhs, _, rfl⟩
    · exact Or.inl (List.mem_flatMap.mpr ⟨atom, hatom, Atom.joinVars_eq_vars hj ▸ hvar⟩)
    · exact Or.inr (List.mem_singleton.mp hvar ▸ hv)
    · simp [Step.vars] at hvar
  · rintro (hvar | hvar)
    · obtain ⟨atom, hatom, hv⟩ := List.mem_flatMap.mp hvar
      cases hj : atom.join? with
      | none =>
        cases atom with
        | op op args result => simp [Atom.join?] at hj
        | pred pred args => simp [Atom.join?] at hj
        | eq lhs rhs => simp [Atom.joinVars] at hv
      | some step =>
        exact ⟨step, join_mem_plan compiles hatom hj, Atom.joinVars_eq_vars hj ▸ hv⟩
    · have hr := Sequent.mem_ranged.mpr (Or.inr hvar)
      obtain ⟨sort, hsort⟩ := compiles.ranged_sort hr
      exact ⟨_, scan_mem_plan compiles hvar hsort, List.mem_singleton.mpr rfl⟩

/-- In a plan every scan is of a variable that no step before it touches. -/
theorem plan_apart (compiles : Rule.Compiles sig seq rule) :
    rule.plan.Pairwise fun earlier later => ∀ var sort, later = .scan var sort →
      var ∉ earlier.vars := by
  obtain ⟨scans, hscans, hplan⟩ := compiles.plan
  have hjoin : ∀ step ∈ seq.premises.filterMap Atom.join?, ∀ var sort, step ≠ .scan var sort := by
    rintro step hstep var sort rfl
    obtain ⟨atom, _, hj⟩ := List.mem_filterMap.mp hstep
    exact Atom.not_scan_of_join? hj
  have hfilter : ∀ step ∈ seq.premises.filterMap Atom.filter?, ∀ var sort,
      step ≠ .scan var sort := by
    rintro step hstep var sort rfl
    obtain ⟨atom, _, hf⟩ := List.mem_filterMap.mp hstep
    obtain ⟨lhs, rhs, _, he⟩ := Atom.filter?_eq_some hf
    exact nomatch he
  rw [hplan]
  refine List.pairwise_append.mpr ⟨List.pairwise_append.mpr ⟨?_, ?_, ?_⟩, ?_, ?_⟩
  · exact List.pairwise_of_forall_mem_list fun _ _ later hl var sort he =>
      absurd he (hjoin later hl var sort)
  · exact scans_apart Sequent.scanned_nodup hscans
  · intro earlier he later hl var sort heq hvar
    obtain ⟨atom, hatom, hj⟩ := List.mem_filterMap.mp he
    obtain ⟨v, hv, sort', _, rfl⟩ := forall₂_left_of_mem hscans hl
    cases heq
    refine (Sequent.mem_scanned.mp hv).1 (List.mem_flatMap.mpr ⟨atom, hatom, ?_⟩)
    exact Atom.joinVars_eq_vars hj ▸ hvar
  · exact List.pairwise_of_forall_mem_list fun _ _ later hl var sort he =>
      absurd he (hfilter later hl var sort)
  · exact fun _ _ later hl var sort he => absurd he (hfilter later hl var sort)

include valid hsig compiles

theorem plan_admits {step : Step} (h : step ∈ rule.plan) : s.Admits rule.varCount step := by
  have hsorted : ∀ vars sorts, seq.Sorted vars sorts → ∀ var ∈ vars, var < rule.varCount := by
    intro vars sorts hvars var hvar
    obtain ⟨sort, _, hsort⟩ := forall₂_right_of_mem hvars hvar
    rw [compiles.varCount]
    exact Sequent.lt_length_of_sort? hsort
  rcases mem_plan_cases compiles h with ⟨atom, hatom, hj⟩ | ⟨v, sort, hv, _, rfl⟩ |
    ⟨lhs, rhs, _, rfl⟩
  · have hfits := compiles.fits atom (List.mem_append_left _ hatom)
    cases atom with
    | op op args result =>
      cases Option.some.inj hj
      obtain ⟨operation, hop, hargs, hresult⟩ := hfits
      refine ⟨hsorted _ _ hargs, ?_, fun row hrow => ?_⟩
      · rw [compiles.varCount]
        exact Sequent.lt_length_of_sort? hresult
      · obtain ⟨operation', hop', htyped, _⟩ := valid.rowTyped op row hrow
        cases Option.some.inj (hop.symm.trans (hsig ▸ hop'))
        exact htyped.length_eq.trans hargs.length_eq.symm
    | pred pred args =>
      cases Option.some.inj hj
      obtain ⟨predicate, hpred, hargs⟩ := hfits
      refine ⟨hsorted _ _ hargs, fun tuple htuple => ?_⟩
      obtain ⟨predicate', hpred', htyped⟩ := valid.tupleTyped pred tuple htuple
      cases Option.some.inj (hpred.symm.trans (hsig ▸ hpred'))
      exact htyped.length_eq.trans hargs.length_eq.symm
    | eq lhs rhs => exact nomatch hj
  · exact compiles.ranged_lt (Sequent.mem_ranged.mpr (Or.inr hv))
  · trivial

omit valid hsig compiles in
theorem reads_sorted {b : Binding} {vars xs sorts : List Nat} (hvars : seq.Sorted vars sorts)
    (hxs : s.Typed xs sorts) (hreads : Valuation.Reads b.value vars xs) : ∀ v ∈ vars, ∃ x ∈ xs,
      ∃ sort, b.value v = some x ∧ seq.sort? v = some sort ∧ s.sorts[x]? = some sort := by
  intro v hv
  have htyped : List.Forall₂ (fun v x => ∃ sort, seq.sort? v = some sort ∧
      s.sorts[x]? = some sort) vars xs :=
    forall₂_trans (fun _ sort _ hs hx => ⟨sort, hs, hx⟩) hvars (forall₂_swap (fun _ _ h => h) hxs)
  obtain ⟨x, hx, hvx, sort, hs, hxs⟩ := forall₂_right_of_mem (forall₂_and hreads htyped) hv
  exact ⟨x, hx, sort, hvx, hs, hxs⟩

/-- A value that a join or a scan gives to a variable is canonical and of the sort of the variable. -/
theorem value_of_fulfils (clean : s.dirty = false) {b : Binding}
    (h : ∀ step ∈ rule.plan, s.Fulfils (s.domains rule) b step) {var : Nat}
    (hvar : var ∈ seq.ranged) : ∃ x sort, b.value var = some x ∧ seq.sort? var = some sort ∧
      s.sorts[x]? = some sort ∧ s.equality.reps[x]? = some x := by
  rcases Sequent.mem_ranged.mp hvar with hj | hscan
  · obtain ⟨atom, hatom, hv⟩ := List.mem_flatMap.mp hj
    have hfits := compiles.fits atom (List.mem_append_left _ hatom)
    cases atom with
    | op op args result =>
      obtain ⟨operation, hop, hargs, hresult⟩ := hfits
      obtain ⟨row, hrow, hreads, hres⟩ := h _ (join_mem_plan compiles hatom rfl)
      obtain ⟨operation', hop', htyped, hrtyped⟩ := valid.rowTyped op row hrow
      cases Option.some.inj (hop.symm.trans (hsig ▸ hop'))
      obtain ⟨hrowargs, hrowresult⟩ := Row.mk.inj (valid.rowCanonical clean op row hrow)
      have hlt := valid.row_lt hrow
      rcases List.mem_append.mp hv with hv | hv
      · obtain ⟨x, hx, sort, hvx, hs, hxs⟩ := reads_sorted hargs htyped hreads var hv
        exact ⟨x, sort, hvx, hs, hxs, valid.fixed_of_roots hlt.1 hrowargs x hx⟩
      · cases List.mem_singleton.mp hv
        refine ⟨row.result, _, hres, hresult, hrtyped, ?_⟩
        have hrep := Equality.getElem?_root (valid.tracked ▸ hlt.2)
        rwa [hrowresult] at hrep
    | pred pred args =>
      obtain ⟨predicate, hpred, hargs⟩ := hfits
      obtain ⟨tuple, htuple, hreads⟩ := h _ (join_mem_plan compiles hatom rfl)
      obtain ⟨predicate', hpred', htyped⟩ := valid.tupleTyped pred tuple htuple
      cases Option.some.inj (hpred.symm.trans (hsig ▸ hpred'))
      obtain ⟨x, hx, sort, hvx, hs, hxs⟩ := reads_sorted hargs htyped hreads var hv
      have hmap := valid.tupleCanonical clean pred tuple htuple
      exact ⟨x, sort, hvx, hs, hxs, valid.fixed_of_roots (valid.tuple_lt htuple) hmap x hx⟩
    | eq lhs rhs => simp [Atom.joinVars] at hv
  · obtain ⟨sort, hsort⟩ := compiles.ranged_sort hvar
    have hplan := scan_mem_plan compiles hscan hsort
    obtain ⟨x, hx, hvx⟩ := h _ hplan
    rw [elements_domains compiles.sortsScanned hplan] at hx
    have hdeclared := compiles.declared var sort hsort
    obtain ⟨hxs, hrep⟩ := (valid.mem_canonicalCarrier (hsig ▸ hdeclared)).mp hx
    exact ⟨x, sort, hvx, hsort, hxs, hrep⟩

/-- Canonical values that make the premises true fulfil every step of the plan. -/
theorem fulfils_of_makes (clean : s.dirty = false) {b : Binding} (assigns : s.Assigns seq b.value)
    (canonical : s.Canonical b) (h : ∀ atom ∈ seq.premises, s.Makes b.value atom) {step : Step}
    (hstep : step ∈ rule.plan) : s.Fulfils (s.domains rule) b step := by
  have hroot : ∀ var x, b.value var = some x → s.equality.root x = x := fun var x hx =>
    Equality.root_eq_of_getElem? (canonical var x hx)
  have hroots : ∀ vars xs, Valuation.Reads b.value vars xs → xs.map s.equality.root = xs := by
    intro vars xs hreads
    refine map_eq_self_iff.mpr fun x hx => ?_
    obtain ⟨var, _, hvar⟩ := forall₂_left_of_mem hreads hx
    exact hroot var x hvar
  rcases mem_plan_cases compiles hstep with ⟨atom, hatom, hj⟩ | ⟨v, sort, hv, hsort, rfl⟩ |
    ⟨lhs, rhs, hatom, rfl⟩
  · have hmakes := h atom hatom
    cases atom with
    | op op args result =>
      cases Option.some.inj hj
      obtain ⟨xs, x, hreads, hresult, happ⟩ := hmakes
      obtain ⟨_, _, hrow⟩ := (valid.applies_iff clean).mp happ
      rw [hroots _ _ hreads, hroot _ _ hresult] at hrow
      exact ⟨_, hrow, hreads, hresult⟩
    | pred pred args =>
      cases Option.some.inj hj
      obtain ⟨xs, hreads, hrel⟩ := hmakes
      obtain ⟨_, htuple⟩ := (valid.relates_iff clean).mp hrel
      rw [hroots _ _ hreads] at htuple
      exact ⟨_, htuple, hreads⟩
    | eq lhs rhs => exact nomatch hj
  · obtain ⟨x, sort', hx, hsort', hxs⟩ := assigns.ranged v (Sequent.mem_ranged.mpr (Or.inr hv))
    cases Option.some.inj (hsort.symm.trans hsort')
    refine ⟨x, ?_, hx⟩
    rw [elements_domains compiles.sortsScanned hstep]
    have hdeclared := compiles.declared v sort hsort
    exact (valid.mem_canonicalCarrier (hsig ▸ hdeclared)).mpr ⟨hxs, canonical v x hx⟩
  · obtain ⟨x, y, hx, hy, he⟩ := h _ hatom
    have hxy := Equality.eq_of_same (canonical _ _ hx) (canonical _ _ hy) he
    exact ⟨x, hx, hxy ▸ hy⟩

omit valid hsig in
/-- The equalities of a plan come last, after the joins and the scans. -/
theorem plan_split : ∃ opening filters, rule.plan = opening ++ filters ∧
    (∀ lhs rhs, .eq lhs rhs ∉ opening) ∧
    ∀ step ∈ filters, ∃ lhs rhs, .eq lhs rhs ∈ seq.premises ∧ step = .eq lhs rhs := by
  obtain ⟨scans, hscans, hplan⟩ := compiles.plan
  refine ⟨_, _, hplan, fun lhs rhs hmem => ?_, fun step hstep => ?_⟩
  · rcases List.mem_append.mp hmem with hmem | hmem
    · obtain ⟨atom, _, hj⟩ := List.mem_filterMap.mp hmem
      cases atom with
      | op op args result => simp [Atom.join?] at hj
      | pred pred args => simp [Atom.join?] at hj
      | eq l r => simp [Atom.join?] at hj
    · obtain ⟨var, _, sort, _, he⟩ := forall₂_left_of_mem hscans hmem
      cases he
  · obtain ⟨atom, hatom, hf⟩ := List.mem_filterMap.mp hstep
    obtain ⟨lhs, rhs, rfl, rfl⟩ := Atom.filter?_eq_some hf
    exact ⟨lhs, rhs, hatom, rfl⟩

/-- The plan finds every binding that fulfils its steps, up to variables that need no value. -/
theorem plan_complete {domains : Domains} {b : Binding} (hlen : b.length = rule.varCount)
    (h : ∀ step ∈ rule.plan, s.Fulfils domains b step) :
    ∃ m ∈ s.extensionsAlong domains rule.plan (.blank rule.varCount), b.Extends m := by
  have hlength := Binding.blank_length rule.varCount
  have hblank : ∀ var, ¬(Binding.blank rule.varCount).Binds var := Binding.blank_not_binds _
  have hadmits : ∀ step ∈ rule.plan, s.Admits (Binding.blank rule.varCount).length step :=
    fun step hstep => hlength.symm ▸ plan_admits valid hsig compiles hstep
  have hstart : b.Extends (.blank rule.varCount) :=
    ⟨hlen.trans hlength.symm, fun var x hx => absurd ⟨x, hx⟩ (hblank var)⟩
  obtain ⟨opening, filters, hplan, hopening, hfilters⟩ := plan_split compiles
  have apart := plan_apart compiles
  have hvars : ∀ var, var ∈ rule.plan.flatMap Step.vars ↔ var ∈ seq.ranged :=
    fun var => mem_plan_vars compiles
  rw [hplan] at h hadmits apart hvars ⊢
  rw [extensionsAlong_append]
  have hleft : ∀ step ∈ opening, step ∈ opening ++ filters := fun _ => List.mem_append_left _
  have hright : ∀ step ∈ filters, step ∈ opening ++ filters := fun _ => List.mem_append_right _
  obtain ⟨mid, hmid, hext⟩ := extensionsAlong_complete valid hstart
    (fun step hstep => h step (hleft step hstep)) (fun lhs rhs he => absurd he (hopening lhs rhs))
    (fun step hstep => hadmits step (hleft step hstep))
  obtain ⟨hfirst, hbinds, _⟩ := extensionsAlong_sound
    (fun step hstep => hadmits step (hleft step hstep)) (fun var _ _ => hblank var)
    (List.pairwise_append.mp apart).1 hmid
  -- The equalities come last, when every variable has its value.
  have hbound : ∀ var ∈ seq.ranged, mid.Binds var := by
    intro var hvar
    have hmem := (hvars var).mpr hvar
    rw [List.flatMap_append] at hmem
    refine (hbinds var).mpr (Or.inr ((List.mem_append.mp hmem).elim id fun hf => ?_))
    obtain ⟨step, hstep, hv⟩ := List.mem_flatMap.mp hf
    obtain ⟨lhs, rhs, _, rfl⟩ := hfilters step hstep
    simp [Step.vars] at hv
  have hsides : ∀ lhs rhs, .eq lhs rhs ∈ filters → mid.Binds lhs ∧ mid.Binds rhs := by
    intro lhs rhs he
    obtain ⟨l, r, hatom, heq⟩ := hfilters _ he
    cases heq
    have hranged : ∀ var ∈ [lhs, rhs], var ∈ seq.ranged := fun var hv =>
      List.mem_append_left _ (List.mem_flatMap.mpr ⟨_, hatom, hv⟩)
    exact ⟨hbound lhs (hranged lhs (by simp)), hbound rhs (hranged rhs (by simp))⟩
  obtain ⟨m, hm, hlast⟩ := extensionsAlong_complete valid hext
    (fun step hstep => h step (hright step hstep)) hsides
    (fun step hstep => hfirst.length.symm ▸ hadmits step (hright step hstep))
  exact ⟨m, List.mem_flatMap.mpr ⟨mid, hmid, hm⟩, hlast⟩

/-- What the plan of a rule makes of the binding without values. -/
theorem plan_sound {b : Binding}
    (h : b ∈ s.extensionsAlong (s.domains rule) rule.plan (.blank rule.varCount)) :
    b.length = rule.varCount ∧ (∀ var, b.Binds var ↔ var ∈ seq.ranged) ∧
      ∀ step ∈ rule.plan, s.Fulfils (s.domains rule) b step := by
  have hlength := Binding.blank_length rule.varCount
  have hnone : ∀ var, ¬(Binding.blank rule.varCount).Binds var := Binding.blank_not_binds _
  have hadmits : ∀ step ∈ rule.plan, s.Admits (Binding.blank rule.varCount).length step :=
    fun step hstep => hlength.symm ▸ plan_admits valid hsig compiles hstep
  obtain ⟨hext, hbinds, hfulfils⟩ := extensionsAlong_sound hadmits (fun var _ _ => hnone var)
    (plan_apart compiles) h
  refine ⟨hext.length.trans hlength, fun var => ?_, hfulfils⟩
  rw [hbinds, mem_plan_vars compiles]
  exact ⟨fun hb => hb.resolve_left (hnone var), Or.inr⟩

theorem makes_of_fulfils (clean : s.dirty = false) {b : Binding}
    (hbinds : ∀ var, b.Binds var ↔ var ∈ seq.ranged)
    (h : ∀ step ∈ rule.plan, s.Fulfils (s.domains rule) b step) {atom : Atom}
    (hatom : atom ∈ seq.premises) : s.Makes b.value atom := by
  cases atom with
  | op op args result =>
    obtain ⟨row, hrow, hreads, hres⟩ := h _ (join_mem_plan compiles hatom rfl)
    exact ⟨_, _, hreads, hres, valid.applies_row hrow⟩
  | pred pred args =>
    obtain ⟨tuple, htuple, hreads⟩ := h _ (join_mem_plan compiles hatom rfl)
    exact ⟨_, hreads, valid.relates_tuple htuple⟩
  | eq lhs rhs =>
    obtain ⟨x, hl, hr⟩ := h _ (filter_mem_plan compiles hatom)
    have hvar := (hbinds lhs).mp ⟨x, hl⟩
    obtain ⟨y, sort, hy, _, hys, _⟩ := value_of_fulfils valid hsig compiles clean h hvar
    cases Option.some.inj (hl.symm.trans hy)
    exact ⟨x, x, hl, hr, valid.equal_refl (List.getElem?_eq_some_iff.mp hys).1⟩

/-- The matches of a rule are the canonical values, for exactly the variables that need one, that
make the premises of its sequent true. -/
theorem mem_solutions (clean : s.dirty = false) {b : Binding} : b ∈ s.solutions rule ↔
    b.length = rule.varCount ∧ s.Assigns seq b.value ∧ s.Canonical b ∧
      ∀ atom ∈ seq.premises, s.Makes b.value atom := by
  rw [solutions, bindings, mem_ascending]
  change b ∈ s.extensionsAlong (s.domains rule) rule.plan (.blank rule.varCount) ↔ _
  constructor
  · intro hb
    obtain ⟨hlen, hbinds, hfulfils⟩ := plan_sound valid hsig compiles hb
    have hvalue : ∀ var ∈ seq.ranged, _ := fun var hvar =>
      value_of_fulfils valid hsig compiles clean hfulfils hvar
    refine ⟨hlen, ⟨fun var hvar => ?_, fun var hvar => ?_⟩, fun var x hx => ?_, fun atom hatom => ?_⟩
    · obtain ⟨x, sort, hx, hs, hxs, _⟩ := hvalue var hvar
      exact ⟨x, sort, hx, hs, hxs⟩
    · cases hv : b.value var with
      | none => rfl
      | some x => exact absurd ((hbinds var).mp ⟨x, hv⟩) hvar
    · obtain ⟨y, _, hy, _, _, hrep⟩ := hvalue var ((hbinds var).mp ⟨x, hx⟩)
      exact Option.some.inj (hx.symm.trans hy) ▸ hrep
    · exact makes_of_fulfils valid hsig compiles clean hbinds hfulfils hatom
  · rintro ⟨hlen, assigns, canonical, hmakes⟩
    have hbinds : ∀ var, b.Binds var → var ∈ seq.ranged := by
      rintro var ⟨x, hx⟩
      by_contra hvar
      exact nomatch hx.symm.trans (assigns.only var hvar)
    have hfulfils : ∀ step ∈ rule.plan, s.Fulfils (s.domains rule) b step := fun step hstep =>
      fulfils_of_makes valid hsig compiles clean assigns canonical hmakes hstep
    obtain ⟨m, hm, hext⟩ := plan_complete valid hsig compiles hlen hfulfils
    obtain ⟨_, hm', _⟩ := plan_sound valid hsig compiles hm
    rwa [hext.eq_of_binds fun var hb => (hm' var).mpr (hbinds var hb)]

end Compiled

end Structure

end PartialHorn
