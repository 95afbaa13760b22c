import PartialHorn.Proofs.ChaseModel

namespace PartialHorn

namespace Structure

/-- A binding suits some conclusions: it has room for their results, a value for every variable that
they read before they introduce it, and only values of the sorts that a sequent gives to their
variables. -/
structure Suits (s : Structure) (seq : Sequent) (atoms : List Atom) (b : Binding) : Prop where
  room : Action.Fitting atoms b
  bound : ∀ var ∈ Atom.readFirst atoms, b.Binds var
  typed : ∀ var x, b.value var = some x → ∃ sort, seq.sort? var = some sort ∧ s.sorts[x]? = some sort

section Suits

variable {s t : Structure} {seq : Sequent} {atom : Atom} {atoms : List Atom} {b : Binding}

theorem Suits.grows (suits : s.Suits seq atoms b) (grows : s.Grows t) : t.Suits seq atoms b where
  room := suits.room
  bound := suits.bound
  typed var x hx := by
    obtain ⟨sort, hsort, hxs⟩ := suits.typed var x hx
    exact ⟨sort, hsort, grows.sort hxs⟩

theorem Suits.value (suits : s.Suits seq (atom :: atoms) b) {var sort : Nat}
    (hvar : var ∈ atom.inputs) (hsort : seq.sort? var = some sort) :
    ∃ x, b.value var = some x ∧ s.sorts[x]? = some sort := by
  obtain ⟨x, hx⟩ := suits.bound var (List.mem_append_left _ hvar)
  obtain ⟨sort', hsort', hxs⟩ := suits.typed var x hx
  have he : sort' = sort := Option.some.inj (hsort'.symm.trans hsort)
  exact ⟨x, hx, he ▸ hxs⟩

/-- The variables that a conclusion reads have values, which have the sorts of its symbol. -/
theorem Suits.values (suits : s.Suits seq (atom :: atoms) b) {vars domain : List Nat}
    (hvars : ∀ var ∈ vars, var ∈ atom.inputs) (hsorted : seq.Sorted vars domain) :
    ∃ xs, Valuation.Reads b.value vars xs ∧ s.Typed xs domain := by
  induction hsorted with
  | nil => exact ⟨[], .nil, .nil⟩
  | @cons var sort vars domain hsort _ ih =>
    obtain ⟨x, hx, hxs⟩ := suits.value (hvars var (by simp)) hsort
    obtain ⟨xs, hreads, htyped⟩ := ih fun other ho => hvars other (List.mem_cons_of_mem var ho)
    exact ⟨x :: xs, .cons hx hreads, .cons hxs htyped⟩

/-- After a conclusion that introduces nothing, the binding suits those that follow. -/
theorem Suits.tail (suits : s.Suits seq (atom :: atoms) b)
    (hresult : ∀ var, atom.result? = some var → b.Binds var) : s.Suits seq atoms b where
  room other ho := suits.room other (List.mem_cons_of_mem atom ho)
  bound var hvar := by
    by_cases he : atom.result? = some var
    · exact hresult var he
    · have hmem : var ∈ Atom.readFirst (atom :: atoms) :=
        List.mem_append_right _ (List.mem_filter.mpr ⟨hvar, decide_eq_true he⟩)
      exact suits.bound var hmem
  typed := suits.typed

/-- A conclusion that introduces its result hands it on as a value of the right sort. -/
theorem Suits.introduce {op result x sort : Nat} {args : List Nat}
    (suits : s.Suits seq (.op op args result :: atoms) b) (hsort : seq.sort? result = some sort)
    (hx : s.sorts[x]? = some sort) : s.Suits seq atoms (b.assign result x) := by
  have hlt : result < b.length := suits.room (.op op args result) (by simp) result rfl
  have hvalue := Binding.assign_value hlt x
  refine ⟨fun other ho r hr => ?_, fun var hvar => ?_, fun var y hy => ?_⟩
  · rw [Binding.assign_length]
    exact suits.room other (List.mem_cons_of_mem _ ho) r hr
  · refine (Binding.assign_binds hlt x var).mpr ?_
    by_cases he : var = result
    · exact Or.inr he
    · have hne : Atom.result? (.op op args result) ≠ some var := fun h =>
        he (Option.some.inj h).symm
      have hmem : var ∈ Atom.readFirst (.op op args result :: atoms) :=
        List.mem_append_right _ (List.mem_filter.mpr ⟨hvar, decide_eq_true hne⟩)
      exact Or.inl (suits.bound var hmem)
  · rw [hvalue] at hy
    by_cases he : var = result
    · subst he
      rw [Function.update_self] at hy
      exact ⟨sort, hsort, Option.some.inj hy ▸ hx⟩
    · rw [Function.update_of_ne he] at hy
      exact suits.typed var y hy

/-- A match suits the conclusions of its rule. -/
theorem solution_suits (valid : s.Valid) (clean : s.dirty = false) {rule : Rule}
    (compiles : Rule.Compiles s.signature seq rule) (h : b ∈ s.solutions rule) :
    s.Suits seq rule.head b := by
  obtain ⟨_, assigns, _, _⟩ := (mem_solutions valid rfl compiles clean).mp h
  have hranged : ∀ var x, b.value var = some x → var ∈ seq.ranged := by
    intro var x hx
    by_contra hvar
    exact nomatch hx.symm.trans (assigns.only var hvar)
  refine ⟨solution_fitting valid clean ⟨seq, compiles⟩ h, fun var hvar => ?_, fun var x hx => ?_⟩
  · rw [compiles.head] at hvar
    obtain ⟨x, _, hx, _⟩ := assigns.ranged var (List.mem_append_right _ hvar)
    exact ⟨x, hx⟩
  · obtain ⟨y, sort, hy, hsort, hys⟩ := assigns.ranged var (hranged var x hx)
    have he : y = x := Option.some.inj (hy.symm.trans hx)
    exact ⟨sort, hsort, he ▸ hys⟩

end Suits

theorem Valid.applies_sort {s : Structure} (valid : s.Valid) {op x : Nat} {args : List Nat}
    {operation : Operation} (hop : s.signature.operations[op]? = some operation)
    (h : s.Applies op args x) : s.sorts[x]? = some operation.codomain := by
  obtain ⟨row, hrow, _, hx⟩ := h
  obtain ⟨other, hother, _, hresult⟩ := valid.rowTyped op row hrow
  have he : other = operation := Option.some.inj (hother.symm.trans hop)
  exact valid.equal_sort hx.symm (he ▸ hresult)

end Structure

namespace Action

open Structure

section Facts

variable {s : Structure} (valid : s.Valid)

include valid

/-- An operation that can be applied can be defined, with a value of its codomain. -/
theorem define_progress {op : Nat} {args : List Nat} {operation : Operation}
    (h : s.Applicable op args operation) :
    ∃ x t, (define op args).Returns s x t ∧ t.sorts[x]? = some operation.codomain := by
  have answered : ∃ x t, (define op args).Returns s x t := by
    rcases define_cases valid op args with ⟨hno, _⟩ | ⟨_, _, ⟨x, _, hx⟩ | ⟨_, hx⟩⟩
    · exact absurd h (hno operation)
    · exact ⟨x, _, hx⟩
    · exact ⟨_, _, hx⟩
  obtain ⟨x, t, hx⟩ := answered
  have hkept := hx.kept (define_keeps op args) valid
  have hop : t.signature.operations[op]? = some operation := hkept.2.signature ▸ h.1
  exact ⟨x, t, hx, hkept.1.applies_sort hop (define_returns valid hx)⟩

theorem assert_progress {pred : Nat} {args : List Nat} {predicate : Predicate}
    (h : s.Relatable pred args predicate) : ∃ flag t, (assert pred args).Returns s flag t := by
  rcases assert_cases valid pred args with ⟨hno, _⟩ | ⟨_, _, hreturns⟩
  · exact absurd h (hno predicate)
  · exact ⟨_, _, hreturns⟩

theorem mergeFor_progress (rule : Rule) {x y sort : Nat} (hx : s.sorts[x]? = some sort)
    (hy : s.sorts[y]? = some sort) : ∃ t, (mergeFor rule x y).Returns s () t := by
  rcases merge_cases valid x y with ⟨hno, _⟩ | ⟨_, merged, equality, _, _, _, hreturns⟩
  · exact absurd ⟨sort, hx, hy⟩ hno
  · cases merged with
    | true => exact ⟨_, hreturns.andThen (report_returns _ _)⟩
    | false => exact ⟨_, hreturns.andThen (give_returns _ _)⟩

end Facts

section Conclude

variable {s : Structure} (valid : s.Valid) {sig : Signature} {seq : Sequent} {b : Binding}

include valid

/-- A conclusion under a binding that suits it can be drawn, and the binding that it hands on suits
the conclusions that follow. -/
theorem conclude_progress (hsig : s.signature = sig) (rule : Rule) {atom : Atom} {atoms : List Atom}
    (fits : seq.Fits sig atom) (suits : s.Suits seq (atom :: atoms) b) :
    ∃ larger t, (conclude rule b atom).Returns s larger t ∧ t.Suits seq atoms larger := by
  have grown : ∀ {larger t}, (conclude rule b atom).Returns s larger t → s.Grows t :=
    fun h => (h.kept (conclude_keeps rule b atom) valid).2
  cases atom with
  | op op args result =>
    obtain ⟨operation, hop, hargs, hresult⟩ := fits
    obtain ⟨xs, hreads, htyped⟩ := suits.values (fun _ h => h) hargs
    have happ : s.Applicable op xs operation := ⟨hsig ▸ hop, htyped⟩
    obtain ⟨x, t, hdefine, hx⟩ := define_progress valid happ
    have hkept := hdefine.kept (define_keeps op xs) valid
    cases hv : b.value result with
    | none =>
      have hdraws : Draws rule b s (b.assign result x) t (.op op args result) := by
        refine ⟨xs, x, t, hreads, hdefine, ?_⟩
        rw [hv]
        exact ⟨rfl, rfl⟩
      exact ⟨_, t, conclude_returns_iff.mpr hdraws, (suits.grows hkept.2).introduce hresult hx⟩
    | some z =>
      obtain ⟨sort, hsort, hz⟩ := suits.typed result z hv
      have he : sort = operation.codomain := Option.some.inj (hsort.symm.trans hresult)
      obtain ⟨u, hmerge⟩ := mergeFor_progress hkept.1 rule (hkept.2.sort hz) (he ▸ hx)
      have hdraws : Draws rule b s b u (.op op args result) := by
        refine ⟨xs, x, t, hreads, hdefine, ?_⟩
        rw [hv]
        exact ⟨hmerge, rfl⟩
      have hreturns := conclude_returns_iff.mpr hdraws
      refine ⟨b, u, hreturns, (suits.grows (grown hreturns)).tail fun var hvar => ?_⟩
      exact ⟨z, Option.some.inj hvar ▸ hv⟩
  | pred pred args =>
    obtain ⟨predicate, hpred, hargs⟩ := fits
    obtain ⟨xs, hreads, htyped⟩ := suits.values (fun _ h => h) hargs
    have hrel : s.Relatable pred xs predicate := ⟨hsig ▸ hpred, htyped⟩
    obtain ⟨flag, t, hassert⟩ := assert_progress valid hrel
    have hdraws : Draws rule b s b t (.pred pred args) := ⟨xs, flag, hreads, hassert, rfl⟩
    have hreturns := conclude_returns_iff.mpr hdraws
    exact ⟨b, t, hreturns, (suits.grows (grown hreturns)).tail fun _ h => nomatch h⟩
  | eq lhs rhs =>
    obtain ⟨sort, hl, hr⟩ := fits
    obtain ⟨x, hx, hxs⟩ := suits.value (by simp [Atom.inputs]) hl
    obtain ⟨y, hy, hys⟩ := suits.value (by simp [Atom.inputs]) hr
    obtain ⟨t, hmerge⟩ := mergeFor_progress valid rule hxs hys
    have hdraws : Draws rule b s b t (.eq lhs rhs) := ⟨x, y, hx, hy, hmerge, rfl⟩
    have hreturns := conclude_returns_iff.mpr hdraws
    exact ⟨b, t, hreturns, (suits.grows (grown hreturns)).tail fun _ h => nomatch h⟩

theorem concludeAll_progress (hsig : s.signature = sig) (rule : Rule) {atoms : List Atom}
    (fits : ∀ atom ∈ atoms, seq.Fits sig atom) (suits : s.Suits seq atoms b) :
    ∃ t, (concludeAll rule atoms b).Returns s () t := by
  induction atoms generalizing s b with
  | nil => exact ⟨s, give_returns _ _⟩
  | cons atom atoms ih =>
    obtain ⟨larger, t, hfirst, hsuits⟩ := conclude_progress valid hsig rule (fits atom (by simp)) suits
    have hkept := hfirst.kept (conclude_keeps rule b atom) valid
    have hsig' : t.signature = sig := hkept.2.signature.trans hsig
    obtain ⟨u, hrest⟩ := ih hkept.1 hsig' (fun other ho => fits other (List.mem_cons_of_mem atom ho)) hsuits
    exact ⟨u, hfirst.andThen hrest⟩

end Conclude

section Turns

variable {s : Structure} (valid : s.Valid)

include valid

/-- A rule can fire for a match, although the structure may have grown since it was found. -/
theorem fire_progress {t : Structure} {seq : Sequent} {rule : Rule} {b : Binding}
    (clean : s.dirty = false) (compiles : Rule.Compiles s.signature seq rule)
    (hb : b ∈ s.solutions rule) (valid' : t.Valid) (grows : s.Grows t) :
    ∃ u, (fire rule b).Returns t () u := by
  have fits : ∀ atom ∈ rule.head, seq.Fits s.signature atom := fun atom hatom =>
    compiles.fits atom (List.mem_append_right _ (compiles.head ▸ hatom))
  have suits := (solution_suits valid clean compiles hb).grows grows
  exact concludeAll_progress valid' grows.signature rule fits suits

theorem each_fire_progress {t : Structure} {seq : Sequent} {rule : Rule} {found : List Binding}
    (clean : s.dirty = false) (compiles : Rule.Compiles s.signature seq rule)
    (hfound : ∀ b ∈ found, b ∈ s.solutions rule) (valid' : t.Valid) (grows : s.Grows t) :
    ∃ u, (each (fire rule) found).Returns t () u := by
  induction found generalizing t with
  | nil => exact ⟨t, give_returns _ _⟩
  | cons b found ih =>
    obtain ⟨mid, hfire⟩ := fire_progress valid clean compiles (hfound b (by simp)) valid' grows
    have hkept := hfire.kept (fire_keeps rule b) valid'
    have hrest := fun other ho => hfound other (List.mem_cons_of_mem b ho)
    obtain ⟨u, hmany⟩ := ih hrest hkept.1 (grows.trans hkept.2)
    exact ⟨u, hfire.andThen hmany⟩

theorem turn_progress {rule : Rule} (compiled : rule.Compiled s.signature) (last : Option Readings) :
    ∃ taken t, (turn rule last).Returns s taken t := by
  have valid' := renewed_valid valid
  have clean := renewed_dirty valid
  have hsig : s.renewed.signature = s.signature := (grows_renewed valid).signature
  obtain ⟨seq, compiles⟩ := compiled
  by_cases hlast : last = some (rule.readings s.renewed)
  · exact ⟨_, _, (turn_returns_iff valid).mpr (Or.inl ⟨hlast, rfl, rfl⟩)⟩
  · obtain ⟨t, heach⟩ := each_fire_progress valid' clean (hsig.symm ▸ compiles) (fun _ h => h) valid'
      (.refl valid')
    exact ⟨_, t, (turn_returns_iff valid).mpr (Or.inr ⟨hlast, rfl, heach⟩)⟩

theorem turns_progress {rules : List Rule} (compiled : ∀ rule ∈ rules, rule.Compiled s.signature)
    (seen : List (Option Readings)) : ∃ taken t, (turns rules seen).Returns s taken t := by
  induction rules generalizing s seen with
  | nil => exact ⟨[], s, give_returns _ _⟩
  | cons rule rules ih =>
    cases seen with
    | nil => exact ⟨[], s, give_returns _ _⟩
    | cons last lasts =>
      obtain ⟨hcompiled, hrest⟩ := List.forall_mem_cons.mp compiled
      obtain ⟨first, mid, hfirst⟩ := turn_progress valid hcompiled last
      have hkept := hfirst.kept (turn_keeps rule last) valid
      obtain ⟨others, t, hothers⟩ := ih hkept.1 (hkept.2.compiled hrest) lasts
      exact ⟨_, t, turns_cons_returns_iff.mpr ⟨first, others, mid, hfirst, hothers, rfl⟩⟩

/-- A pass over compiled rules comes to its end, whichever of them it passes over. -/
theorem pass_progress {rules : List Rule} (compiled : ∀ rule ∈ rules, rule.Compiled s.signature)
    (seen : List (Option Readings)) : ∃ made t, (pass rules seen).Returns s made t := by
  have valid' := renewed_valid valid
  obtain ⟨taken, mid, hturns⟩ := turns_progress valid' ((grows_renewed valid).compiled compiled) seen
  have hkept := hturns.kept (turns_keeps rules seen) valid'
  exact ⟨_, _, (pass_returns_iff valid).mpr ⟨taken, mid, hturns, hkept.1, hkept.2, rfl, rfl⟩⟩

theorem chaseOnce_progress {rules : List Rule}
    (compiled : ∀ rule ∈ rules, rule.Compiled s.signature) :
    ∃ changed t, (chaseOnce rules).Returns s changed t := by
  obtain ⟨made, t, hpass⟩ := pass_progress valid compiled (Progress.initial rules).seen
  exact ⟨made.changed, t, (returns_mapError.mpr hpass).andThen (give_returns _ _)⟩

end Turns

theorem exceeded?_error {budget : Budget} {iterations elements elapsed : Nat} {event : Event}
    {e : ClosureError} (h : budget.exceeded? iterations elements elapsed = some (event, e)) :
    (∃ n, e = .didNotConverge n) ∨ (∃ n, e = .elementLimitExceeded n) ∨ ∃ n, e = .timeout n := by
  rcases Option.or_eq_some_iff.mp h with h | ⟨_, h⟩
  · obtain ⟨_, _, h⟩ := Option.bind_eq_some_iff.mp h
    split at h
    next => exact Or.inl ⟨iterations, (Prod.mk.inj (Option.some.inj h)).2.symm⟩
    next => exact nomatch h
  · rcases Option.or_eq_some_iff.mp h with h | ⟨_, h⟩
    · obtain ⟨_, _, h⟩ := Option.bind_eq_some_iff.mp h
      split at h
      next => exact Or.inr (Or.inl ⟨elements, (Prod.mk.inj (Option.some.inj h)).2.symm⟩)
      next => exact nomatch h
    · obtain ⟨limit, _, h⟩ := Option.bind_eq_some_iff.mp h
      split at h
      next => exact Or.inr (Or.inr ⟨limit, (Prod.mk.inj (Option.some.inj h)).2.symm⟩)
      next => exact nomatch h

/-- A run over compiled rules fails only when its budget is exceeded. -/
theorem saturateFrom_error {s : Structure} (valid : s.Valid) {rules : List Rule}
    (compiled : ∀ rule ∈ rules, rule.Compiled s.signature) {budget : Budget} {clock : Clock}
    {passes : Nat} {progress : Progress} {e : ClosureError}
    (h : (saturateFrom rules budget clock passes progress s).answer = .error e) :
    (∃ n, e = .didNotConverge n) ∨ (∃ n, e = .elementLimitExceeded n) ∨ ∃ n, e = .timeout n := by
  induction passes generalizing s progress with
  | zero => exact nomatch h
  | succ passes ih =>
    obtain ⟨made, t, hpass⟩ := pass_progress valid compiled progress.seen
    have hkept := hpass.kept (pass_keeps rules progress.seen) valid
    have hrun := (congrArg Prod.fst (saturateFrom_result hpass)).symm.trans h
    split at hrun
    next =>
      split at hrun
      next event error hexceeded =>
        have he : error = e := Except.error.inj hrun
        exact he ▸ exceeded?_error hexceeded
      next => exact ih hkept.1 (hkept.2.compiled compiled) hrun
    next => exact nomatch hrun

end Action

open PartialHorn.Action PartialHorn.Structure in
/-- Rules that were made from accepted axioms keep the contract of every structure over their
signature. Whatever their order and number, they find their matches, they can fire for these at any
later time, and their passes come to an end; a run fails only when its budget is exceeded. -/
theorem chase_keeps_contract {sig : Signature} {seqs : List Sequent} {rules : List Rule}
    (hrules : Rule.ofSequents sig seqs = .ok rules) {s : Structure} (reachable : s.Reachable sig)
    {taken : List Rule} (htaken : ∀ rule ∈ taken, rule ∈ rules) :
    (∀ rule ∈ taken, ∃ found, (solve rule s).answer = .ok found ∧ ∀ b ∈ found, ∀ calls,
      (fire rule b ((solve rule s).after.afterCalls calls)).answer = .ok ()) ∧
    (∃ changed, (chaseOnce taken s).answer = .ok changed) ∧
    ∀ budget clock passes,
      (∃ report, (saturate taken budget clock passes s).answer = .ok report) ∨
      (∃ n, (saturate taken budget clock passes s).answer = .error (.didNotConverge n)) ∨
      (∃ n, (saturate taken budget clock passes s).answer = .error (.elementLimitExceeded n)) ∨
      ∃ n, (saturate taken budget clock passes s).answer = .error (.timeout n) := by
  have valid := reachable.valid
  have hsig := reachable.signature_eq
  have hcompiled : ∀ rule ∈ taken, rule.Compiled s.signature := fun rule hrule =>
    hsig ▸ Rule.ofSequents_compiled hrules rule (htaken rule hrule)
  refine ⟨fun rule hrule => ?_, ?_, fun budget clock passes => ?_⟩
  · obtain ⟨seq, compiles⟩ := hcompiled rule hrule
    have hsolve := solve_returns valid rule
    have hrenewed := grows_renewed valid
    refine ⟨_, hsolve.1, fun b hb calls => ?_⟩
    rw [hsolve.2]
    have hkept := afterCalls_keeps calls s.renewed (renewed_valid valid)
    obtain ⟨t, hfire⟩ := fire_progress (renewed_valid valid) (renewed_dirty valid)
      (hrenewed.signature.symm ▸ compiles) hb hkept.1 hkept.2
    exact hfire.1
  · obtain ⟨changed, t, hchase⟩ := chaseOnce_progress valid hcompiled
    exact ⟨changed, hchase.1⟩
  · rw [saturate_answer]
    cases hrun : (saturateFrom taken budget clock passes (Progress.initial taken) s).answer with
    | ok progress => exact Or.inl ⟨_, rfl⟩
    | error e =>
      refine Or.inr ?_
      rcases saturateFrom_error valid hcompiled hrun with ⟨n, rfl⟩ | ⟨n, rfl⟩ | ⟨n, rfl⟩
      · exact Or.inl ⟨n, rfl⟩
      · exact Or.inr (Or.inl ⟨n, rfl⟩)
      · exact Or.inr (Or.inr ⟨n, rfl⟩)

open PartialHorn.Action in
/-- The second conclusion reads what the first one introduces. The value that is bound to the rule's
variable is no longer a representative when the rule fires for it. -/
theorem chase_keeps_contract_image :
    (saturate [imageRule, imageRule] { maxPasses := some 1 } (fun _ => 0) 5 imageStart).answer =
        .error (.didNotConverge 1) ∧
      (solve imageRule imageStart).answer = .ok [[some 0, none]] ∧
      (fire imageRule [some 0, none]
        ((solve imageRule imageStart).after.afterCalls [.add 0, .merge 2 0])).answer = .ok () := by
  have compiled : Rule.ofSequents imageSignature [imageSequent] = .ok [imageRule] := rfl
  have reachable : imageStart.Reachable imageSignature := ⟨_, rfl⟩
  have taken : ∀ rule ∈ [imageRule, imageRule], rule ∈ [imageRule] := by simp
  have hsolve : (solve imageRule imageStart).answer = .ok [[some 0, none]] := rfl
  obtain ⟨hfire, _, hrun⟩ := chase_keeps_contract compiled reachable taken
  obtain ⟨found, hfound, hfires⟩ := hfire imageRule (by simp)
  have he : found = [[some 0, none]] := Except.ok.inj (hfound.symm.trans hsolve)
  exact ⟨rfl, hsolve, hfires [some 0, none] (by simp [he]) [.add 0, .merge 2 0]⟩

end PartialHorn
