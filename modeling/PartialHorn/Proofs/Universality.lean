import PartialHorn.Proofs.Freeness
import PartialHorn.Proofs.ChaseModel

namespace PartialHorn

namespace Structure

/-- Under every map into an interpretation, the values of a binding extend to values that make some
conclusions true there. -/
def Forced {sig : Signature} {C : Type*} (M : Interpretation sig C) (s : Structure) (b : Binding)
    (atoms : List Atom) : Prop :=
  ∀ h, s.Maps M h → ∃ w : Valuation C,
    (∀ var x, b.value var = some x → ∃ m, image h x = some m ∧ w var = some m) ∧
      ∀ atom ∈ atoms, M.Makes w atom

section Forced

variable {sig : Signature} {C : Type*} {M : Interpretation sig C} {s t : Structure} {b : Binding}

theorem Forced.mono (valid : s.Valid) (grows : s.Grows t) {atoms atoms' : List Atom}
    (hsub : ∀ atom ∈ atoms', atom ∈ atoms) (forced : Forced M s b atoms) : Forced M t b atoms' := by
  intro h maps
  obtain ⟨w, hw, hmakes⟩ := forced _ (maps.restrict valid grows)
  refine ⟨w, fun var x hx => ?_, fun atom hatom => hmakes atom (hsub atom hatom)⟩
  obtain ⟨m, hm, hwm⟩ := hw var x hx
  exact ⟨m, image_of_take hm, hwm⟩

/-- Values that are read under a binding have the images that are read under its extension. -/
theorem reads_of_extends {h : List C} {w : Valuation C}
    (hw : ∀ var x, b.value var = some x → ∃ m, image h x = some m ∧ w var = some m)
    {vars xs : List Nat} (hreads : Valuation.Reads b.value vars xs) :
    ∃ ms, (image h).Reads xs ms ∧ w.Reads vars ms := by
  induction hreads with
  | nil => exact ⟨[], .nil, .nil⟩
  | cons hx _ ih =>
    obtain ⟨m, hm, hwm⟩ := hw _ _ hx
    obtain ⟨ms, hms, hwms⟩ := ih
    exact ⟨m :: ms, .cons hm hms, .cons hwm hwms⟩

/-- A value of an operation that a conclusion mentions goes where the conclusion wants it. -/
theorem Forced.result (valid : s.Valid) (grows : s.Grows t) {op result : Nat} {args xs : List Nat}
    {atoms : List Atom} (forced : Forced M s b (.op op args result :: atoms))
    (hreads : Valuation.Reads b.value args xs) {x : Nat} (happ : t.Applies op xs x) {h : List C}
    (maps : t.Maps M h) : ∃ w : Valuation C,
      (∀ var z, b.value var = some z → ∃ m, image h z = some m ∧ w var = some m) ∧
        (∃ m, image h x = some m ∧ w result = some m) ∧ ∀ atom ∈ atoms, M.Makes w atom := by
  obtain ⟨w, hw, hmakes⟩ := forced.mono valid grows (fun _ ha => ha) h maps
  obtain ⟨ms, m, hms, hm, hvalue⟩ := hmakes _ List.mem_cons_self
  obtain ⟨ys, hys, hwys⟩ := reads_of_extends hw hreads
  obtain ⟨zs, z, hzs, hz, hvalue'⟩ := maps.applies happ
  cases reads_unique hms hwys
  cases reads_unique hys hzs
  cases Option.some.inj (hvalue.symm.trans hvalue')
  exact ⟨w, hw, ⟨m, hz, hm⟩, fun atom hatom => hmakes atom (List.mem_cons_of_mem _ hatom)⟩

/-- A match of a rule is forced to have its conclusions by every interpretation in which the sequent
of the rule holds. -/
theorem forced_of_solution (valid : s.Valid) (clean : s.dirty = false) (hsig : s.signature = sig)
    {seq : Sequent} {rule : Rule} (compiles : Rule.Compiles sig seq rule) (hM : M.Satisfies seq)
    (hb : b ∈ s.solutions rule) : Forced M s b rule.head := by
  obtain ⟨_, assigns, _, hpremises⟩ := (mem_solutions valid hsig compiles clean).mp hb
  intro h maps
  have hvalue : ∀ var x, b.value var = some x → ∃ m, image h x = some m := fun var x hx =>
    maps.image_some (assigns.lt_size hx)
  have hbind : ∀ var x m, b.value var = some x → image h x = some m →
      (b.value var).bind (image h) = some m := fun var x m hx hm => by rw [hx, Option.bind_some, hm]
  have hreads : ∀ vars xs ms, Valuation.Reads b.value vars xs → (image h).Reads xs ms →
      Valuation.Reads (fun var => (b.value var).bind (image h)) vars ms := fun _ _ _ hxs hms =>
    forall₂_trans (fun var x m hx hm => hbind var x m hx hm) hxs hms
  have himages : M.Assigns seq fun var => (b.value var).bind (image h) := by
    refine ⟨fun var hvar => ?_, fun var hvar => ?_⟩
    · obtain ⟨x, sort, hx, hsort, hxs⟩ := assigns.ranged var hvar
      obtain ⟨m, hm⟩ := hvalue var x hx
      exact ⟨m, hbind var x m hx hm, hsort.trans (hxs.symm.trans (maps.sort hm))⟩
    · rw [assigns.only var hvar]
      rfl
  have htrue : ∀ atom ∈ seq.premises, M.Makes (fun var => (b.value var).bind (image h)) atom := by
    intro atom hatom
    have hmake := hpremises atom hatom
    cases atom with
    | op op args result =>
      obtain ⟨xs, x, hxs, hx, happ⟩ := hmake
      obtain ⟨ms, m, hms, hm, hop⟩ := maps.applies happ
      exact ⟨ms, m, hreads _ _ _ hxs hms, hbind _ _ _ hx hm, hop⟩
    | pred pred args =>
      obtain ⟨xs, hxs, hrel⟩ := hmake
      obtain ⟨ms, hms, hholds⟩ := maps.relates hrel
      exact ⟨ms, hreads _ _ _ hxs hms, hholds⟩
    | eq lhs rhs =>
      obtain ⟨x, y, hx, hy, he⟩ := hmake
      obtain ⟨m, hm⟩ := hvalue lhs x hx
      exact ⟨m, hbind _ _ _ hx hm, hbind _ _ _ hy ((maps.equal x y he).symm.trans hm)⟩
  obtain ⟨w, hw, hmakes⟩ := hM _ himages htrue
  refine ⟨w, fun var x hx => ?_, compiles.head ▸ hmakes⟩
  obtain ⟨m, hm⟩ := hvalue var x hx
  exact ⟨m, hm, hw var m (hbind var x m hx hm)⟩

end Forced

section Reflect

variable {sig : Signature} {C : Type*} {M : Interpretation sig C} {s t : Structure} (free : Free M s t)
  {h : List C} (maps : s.Maps M h)

include free maps

/-- Old elements have become equal only if their images are equal. -/
theorem Free.reflects_equal {x y : Nat} (hx : x < s.size) (hy : y < s.size) (he : t.Equal x y) :
    image h x = image h y := by
  obtain ⟨_, ⟨⟨rest, rfl⟩, maps'⟩, _⟩ := free.extends_unique h maps
  obtain ⟨m, hm⟩ := maps.image_some hx
  obtain ⟨m', hm'⟩ := maps.image_some hy
  have himage := maps'.equal x y he
  rw [image_append hm, image_append hm'] at himage
  rw [hm, hm', himage]

/-- An operation has come to be defined at old elements only if it is at the images, and it takes
them to an old element only if it takes the images to the image. -/
theorem Free.reflects_applies {op x : Nat} {args : List Nat} (hargs : ∀ y ∈ args, y < s.size)
    (happ : t.Applies op args x) :
    ∃ ys y, (image h).Reads args ys ∧ M.apply op ys = some y ∧ (x < s.size → image h x = some y) := by
  obtain ⟨_, ⟨⟨rest, rfl⟩, maps'⟩, _⟩ := free.extends_unique h maps
  obtain ⟨ys, y, hys, hy, hvalue⟩ := maps'.applies happ
  refine ⟨ys, y, (maps.reads_append_iff hargs).mp hys, hvalue, fun hx => ?_⟩
  obtain ⟨m, hm⟩ := maps.image_some hx
  exact hm.trans ((image_append hm rest).symm.trans hy)

/-- A predicate has come to hold of old elements only if it holds of the images. -/
theorem Free.reflects_relates {pred : Nat} {args : List Nat} (hargs : ∀ y ∈ args, y < s.size)
    (hrel : t.Relates pred args) : ∃ ys, (image h).Reads args ys ∧ M.holds pred ys := by
  obtain ⟨_, ⟨⟨rest, rfl⟩, maps'⟩, _⟩ := free.extends_unique h maps
  obtain ⟨ys, hys, hholds⟩ := maps'.relates hrel
  exact ⟨ys, (maps.reads_append_iff hargs).mp hys, hholds⟩

end Reflect

end Structure

namespace Action

open Structure

section Conclude

variable {sig : Signature} {C : Type*} {M : Interpretation sig C} {s : Structure} (valid : s.Valid)
  (rule : Rule) {b : Binding}

include valid

/-- Drawing a forced conclusion is free, whether it succeeds or not. -/
theorem conclude_free (hsig : s.signature = sig) {atom : Atom} {atoms : List Atom}
    (forced : Forced M s b (atom :: atoms)) : Free M s (conclude rule b atom s).after := by
  cases atom with
  | op op args result =>
    refine free_ofExcept valid fun xs hvalues => ?_
    have hreads := Rule.values_eq_ok_iff.mp hvalues
    have hdefine : Free M s (define op xs s).after := by
      refine define_free valid hsig fun h maps => ?_
      obtain ⟨w, hw, hmakes⟩ := forced h maps
      obtain ⟨ms, m, hms, _, hvalue⟩ := hmakes _ List.mem_cons_self
      obtain ⟨ys, hys, hwys⟩ := reads_of_extends hw hreads
      cases reads_unique hms hwys
      exact ⟨ms, m, hys, hvalue⟩
    refine free_andThen hdefine fun x u hx free => ?_
    cases hv : b.value result with
    | none => exact .refl free.valid
    | some z =>
      refine free_andThen (mergeFor_free free.valid rule fun h maps => ?_) fun _ _ _ last =>
        .refl last.valid
      obtain ⟨w, hw, ⟨m, hm, hwm⟩, _⟩ :=
        forced.result valid free.grows hreads (define_returns valid hx) maps
      obtain ⟨m', hm', hwm'⟩ := hw result z hv
      rw [hm, hm', ← hwm, ← hwm']
  | pred pred args =>
    refine free_ofExcept valid fun xs hvalues => ?_
    refine free_andThen (assert_free valid fun h maps => ?_) fun _ _ _ last => .refl last.valid
    obtain ⟨w, hw, hmakes⟩ := forced h maps
    obtain ⟨ms, hms, hholds⟩ := hmakes _ List.mem_cons_self
    obtain ⟨ys, hys, hwys⟩ := reads_of_extends hw (Rule.values_eq_ok_iff.mp hvalues)
    cases reads_unique hms hwys
    exact ⟨ms, hys, hholds⟩
  | eq lhs rhs =>
    refine free_ofExcept valid fun x hleft => free_ofExcept valid fun y hright => ?_
    refine free_andThen (mergeFor_free valid rule fun h maps => ?_) fun _ _ _ last => .refl last.valid
    obtain ⟨w, hw, hmakes⟩ := forced h maps
    obtain ⟨m, hl, hr⟩ := hmakes _ List.mem_cons_self
    obtain ⟨m₁, hm₁, hw₁⟩ := hw lhs x (Rule.value_eq_ok_iff.mp hleft)
    obtain ⟨m₂, hm₂, hw₂⟩ := hw rhs y (Rule.value_eq_ok_iff.mp hright)
    rw [hm₁, hm₂, ← hw₁, ← hw₂, hl, hr]

/-- The conclusions that are left are forced under the values that are handed on. -/
theorem conclude_forced {t : Structure} {atom : Atom} {atoms : List Atom} {larger : Binding}
    (fitting : Fitting (atom :: atoms) b) (forced : Forced M s b (atom :: atoms))
    (h : (conclude rule b atom).Returns s larger t) :
    Forced M t larger atoms ∧ larger.length = b.length := by
  have hkept := h.kept (conclude_keeps rule b atom) valid
  have hsub : ∀ other ∈ atoms, other ∈ atom :: atoms := fun _ => List.mem_cons_of_mem atom
  have hrest := forced.mono valid hkept.2 hsub
  have hdraws := conclude_returns_iff.mp h
  cases atom with
  | op op args result =>
    obtain ⟨xs, x, u, hreads, hx, hlast⟩ := hdraws
    cases hv : b.value result with
    | none =>
      rw [hv] at hlast
      obtain ⟨rfl, rfl⟩ := hlast
      refine ⟨fun h maps => ?_, Binding.assign_length b result x⟩
      obtain ⟨w, hw, hresult, hmakes⟩ := forced.result valid hkept.2 hreads (define_returns valid hx) maps
      refine ⟨w, fun var z hz => ?_, hmakes⟩
      have hlt : result < b.length := fitting (.op op args result) (by simp) result rfl
      rw [Binding.assign_value hlt] at hz
      by_cases he : var = result
      · subst he
        rw [Function.update_self] at hz
        exact Option.some.inj hz ▸ hresult
      · rw [Function.update_of_ne he] at hz
        exact hw var z hz
    | some z =>
      rw [hv] at hlast
      obtain ⟨_, rfl⟩ := hlast
      exact ⟨hrest, rfl⟩
  | pred pred args =>
    obtain ⟨_, _, _, _, rfl⟩ := hdraws
    exact ⟨hrest, rfl⟩
  | eq lhs rhs =>
    obtain ⟨_, _, _, _, _, rfl⟩ := hdraws
    exact ⟨hrest, rfl⟩

/-- Drawing forced conclusions in order is free, wherever it stops. -/
theorem concludeAll_free (hsig : s.signature = sig) {atoms : List Atom} (fitting : Fitting atoms b)
    (forced : Forced M s b atoms) : Free M s (concludeAll rule atoms b s).after := by
  induction atoms generalizing s b with
  | nil => exact .refl valid
  | cons atom atoms ih =>
    refine free_andThen (conclude_free valid rule hsig forced) fun larger t hreturns free => ?_
    obtain ⟨hforced, hlen⟩ := conclude_forced valid rule fitting forced hreturns
    have fitting' : Fitting atoms larger := fun other ho r hr =>
      hlen.symm ▸ fitting other (List.mem_cons_of_mem atom ho) r hr
    exact ih free.valid (free.grows.signature.trans hsig) fitting' hforced

/-- What is forced for the matches of a rule stays forced while the rule fires for them in turn, so
that a binding may be used although the structure has changed since it was found. -/
theorem each_fire_free (hsig : s.signature = sig) {found : List Binding}
    (fitting : ∀ b ∈ found, Fitting rule.head b) (forced : ∀ b ∈ found, Forced M s b rule.head) :
    Free M s (each (fire rule) found s).after := by
  induction found generalizing s with
  | nil => exact .refl valid
  | cons b found ih =>
    have hfire : Free M s (fire rule b s).after :=
      concludeAll_free valid rule hsig (fitting b (by simp)) (forced b (by simp))
    refine free_andThen hfire fun _ t _ free => ?_
    refine ih free.valid (free.grows.signature.trans hsig) (fun other ho => ?_) fun other ho => ?_
    · exact fitting other (List.mem_cons_of_mem b ho)
    · exact (forced other (List.mem_cons_of_mem b ho)).mono valid free.grows fun _ h => h

/-- A turn of a rule whose sequent holds in an interpretation is free. -/
theorem turn_free (hsig : s.signature = sig) {seq : Sequent} {rule : Rule}
    (compiles : Rule.Compiles sig seq rule) (hM : M.Satisfies seq) (last : Option Readings) :
    Free M s (turn rule last s).after := by
  refine free_andThen (renewed_free valid) fun _ t hrebuild free => ?_
  obtain ⟨_, hrenewed⟩ := returns_rebuild valid
  obtain ⟨_, rfl⟩ := hrenewed.unique hrebuild
  have clean := renewed_dirty valid
  have hsig' : s.renewed.signature = sig := free.grows.signature.trans hsig
  refine free_andThen (.refl free.valid) fun _ _ hcurrent _ => ?_
  obtain ⟨rfl, rfl⟩ := returns_current.mp hcurrent
  split
  next => exact .refl free.valid
  next =>
    -- The structure is clean by now, so the matches are those of the structure that fires.
    have hsolve := solve_returns free.valid rule
    rw [(renewed_clean clean).2] at hsolve
    refine free_andThen (hsolve.2.symm ▸ .refl free.valid) fun found _ hfound _ => ?_
    obtain ⟨rfl, rfl⟩ := hsolve.unique hfound
    refine free_andThen (.refl free.valid) fun _ _ hreport _ => ?_
    cases returns_report.mp hreport
    refine free_andThen (each_fire_free free.valid rule hsig' (fun b hb => ?_) fun b hb => ?_)
      fun _ _ _ last => .refl last.valid
    · exact solution_fitting free.valid clean ⟨seq, hsig' ▸ compiles⟩ hb
    · exact forced_of_solution free.valid clean hsig' compiles hM hb

end Conclude

/-- The relation between a structure and what runs make of it, in view of an interpretation. -/
def Frees {sig : Signature} {C : Type*} (M : Interpretation sig C) (s t : Structure) : Prop :=
  s.Valid → s.signature = sig → Free M s t

section Runs

variable {sig : Signature} {C : Type*} {M : Interpretation sig C}

theorem Frees.refl (s : Structure) : Frees M s s :=
  fun valid _ => .refl valid

theorem Frees.trans (s t u : Structure) (h : Frees M s t) (h' : Frees M t u) : Frees M s u := by
  intro valid hsig
  have hst := h valid hsig
  exact hst.trans (h' hst.valid (hst.grows.signature.trans hsig))

theorem rebuild_frees : (rebuild : Action Structure ContractError Nat).Obeys (Frees M) :=
  fun _ valid _ => renewed_free valid

variable {rules : List Rule}
  (satisfied : ∀ rule ∈ rules, ∃ seq, Rule.Compiles sig seq rule ∧ M.Satisfies seq)

include satisfied

theorem turn_frees (rule : Rule) (hrule : rule ∈ rules) (last : Option Readings) :
    (turn rule last).Obeys (Frees M) := by
  obtain ⟨seq, compiles, hM⟩ := satisfied rule hrule
  exact fun _ valid hsig => turn_free valid hsig compiles hM last

theorem chaseOnce_frees : (chaseOnce rules).Obeys (Frees M) :=
  chaseOnce_obeys Frees.refl Frees.trans rebuild_frees (turn_frees satisfied)

theorem saturate_frees (budget : Budget) (clock : Clock) (passes : Nat) :
    (saturate rules budget clock passes).Obeys (Frees M) :=
  saturate_obeys Frees.refl Frees.trans rebuild_frees (turn_frees satisfied) budget clock passes

end Runs

/-- What a run of the chase can make of a structure: a single pass, or passes under any budget,
whether they come to an end, exceed the budget or fail. -/
inductive Chased (rules : List Rule) (s : Structure) : Structure → Prop
  | once : Chased rules s (chaseOnce rules s).after
  | saturate (budget : Budget) (clock : Clock) (passes : Nat) :
      Chased rules s (saturate rules budget clock passes s).after

theorem Chased.of_returns {rules : List Rule} {s t : Structure} {budget : Budget} {clock : Clock}
    {passes : Nat} {answer : Option ChaseReport}
    (h : (Action.saturate rules budget clock passes).Returns s answer t) : Chased rules s t :=
  h.2 ▸ .saturate budget clock passes

theorem Chased.free {sig : Signature} {C : Type*} {M : Interpretation sig C} {rules : List Rule}
    (satisfied : ∀ rule ∈ rules, ∃ seq, Rule.Compiles sig seq rule ∧ M.Satisfies seq)
    {s t : Structure} (valid : s.Valid) (hsig : s.signature = sig) (run : Chased rules s t) :
    Free M s t := by
  cases run with
  | once => exact chaseOnce_frees satisfied s valid hsig
  | saturate budget clock passes => exact saturate_frees satisfied budget clock passes s valid hsig

/-- A run over the rules of some sequents, in any order, is free in view of an interpretation in
which the sequents hold. -/
theorem Chased.free_of_satisfies {sig : Signature} {seqs : List Sequent} {rules taken : List Rule}
    (hrules : Rule.ofSequents sig seqs = .ok rules) (htaken : ∀ rule ∈ taken, rule ∈ rules)
    {C : Type*} {M : Interpretation sig C} (hM : ∀ seq ∈ seqs, M.Satisfies seq) {s t : Structure}
    (valid : s.Valid) (hsig : s.signature = sig) (run : Chased taken s t) : Free M s t := by
  refine run.free (fun rule hrule => ?_) valid hsig
  obtain ⟨seq, hseq, compiles⟩ :=
    forall₂_left_of_mem (Rule.ofSequents_compiles hrules) (htaken rule hrule)
  exact ⟨seq, compiles, hM seq hseq⟩

end Action

open PartialHorn.Action PartialHorn.Structure in
/-- The chase adds only what the axioms force: a map into an interpretation in which the axioms
hold extends in exactly one way to whatever a run leaves. So a run makes nothing true of the old
elements, equalities included, that is not true of their images. -/
theorem chase_universal {sig : Signature} {seqs : List Sequent} {rules : List Rule}
    (hrules : Rule.ofSequents sig seqs = .ok rules) {s : Structure} (reachable : s.Reachable sig)
    {C : Type*} {M : Interpretation sig C} (hM : ∀ seq ∈ seqs, M.Satisfies seq) {h : List C}
    (maps : s.Maps M h) {t : Structure} (run : Chased rules s t) :
    (∃! h', h <+: h' ∧ t.Maps M h') ∧
      (∀ x y, x < s.size → y < s.size → t.Equal x y → image h x = image h y) ∧
      (∀ op args x, (∀ y ∈ args, y < s.size) → t.Applies op args x → ∃ ys y,
        (image h).Reads args ys ∧ M.apply op ys = some y ∧ (x < s.size → image h x = some y)) ∧
      ∀ pred args, (∀ y ∈ args, y < s.size) → t.Relates pred args →
        ∃ ys, (image h).Reads args ys ∧ M.holds pred ys := by
  have free : Free M s t :=
    run.free_of_satisfies hrules (fun _ hrule => hrule) hM reachable.valid reachable.signature_eq
  refine ⟨free.extends_unique h maps, fun x y hx hy => free.reflects_equal maps hx hy, ?_, ?_⟩
  · exact fun op args x hargs => free.reflects_applies maps hargs
  · exact fun pred args hargs => free.reflects_relates maps hargs

/-- The numbers with the successor as the operation; the predicates hold of the even and of the odd
ones. -/
def parity : Interpretation imageSignature Nat where
  sort _ := 0
  apply
    | 0, [n] => some (n + 1)
    | _, _ => none
  holds
    | 0, [n] => n % 2 = 0
    | 1, [n] => n % 2 = 1
    | _, _ => False
  applySorted op xs x h := by
    split at h
    next => exact ⟨_, rfl, rfl, rfl⟩
    next => exact nomatch h
  holdsSorted pred xs h := by
    split at h
    next => exact ⟨_, rfl, rfl⟩
    next => exact ⟨_, rfl, rfl⟩
    next => exact h.elim

theorem parity_satisfies : parity.Satisfies imageSequent := by
  intro v assigns hpremises
  obtain ⟨xs, hxs, heven⟩ := hpremises (.pred 0 [0]) (by simp [imageSequent])
  obtain ⟨n, _, hn, hnil, rfl⟩ := List.forall₂_cons_left_iff.mp hxs
  cases hnil
  have hfree : v 1 = none := assigns.only 1 (by decide)
  refine ⟨Function.update v 1 (some (n + 1)), fun var x hx => ?_, ?_⟩
  · by_cases he : var = 1
    · subst he
      exact nomatch hfree.symm.trans hx
    · rw [Function.update_of_ne he, hx]
  · have hresult : Function.update v 1 (some (n + 1)) 1 = some (n + 1) := Function.update_self ..
    have harg : Function.update v 1 (some (n + 1)) 0 = some n :=
      (Function.update_of_ne (by decide) ..).trans hn
    intro atom hatom
    rcases List.mem_pair.mp hatom with rfl | rfl
    · exact ⟨[n], n + 1, .cons harg .nil, hresult, rfl⟩
    · refine ⟨[n + 1], .cons hresult .nil, ?_⟩
      have heven : n % 2 = 0 := heven
      show (n + 1) % 2 = 1
      omega

theorem parity_maps : imageStart.Maps parity [4, 7] where
  sorts := rfl
  equal x y he := by
    obtain ⟨r, hx, hy⟩ := he
    have hreps : imageStart.equality.reps = [0, 1] := rfl
    rw [hreps] at hx hy
    match x, y with
    | 0, 0 => rfl
    | 1, 1 => rfl
    | 0, 1 => exact nomatch (Option.some.inj (hx.trans hy.symm) : 0 = 1)
    | 1, 0 => exact nomatch (Option.some.inj (hx.trans hy.symm) : 1 = 0)
    | x + 2, _ => exact nomatch hx
    | 0, y + 2 => exact nomatch hy
    | 1, y + 2 => exact nomatch hy
  rows op row h := by
    obtain ⟨table, ht, hrow⟩ := h
    match op with
    | 0 =>
      cases Option.some.inj ht
      exact nomatch hrow
    | op + 1 => exact nomatch ht
  tuples pred tuple h := by
    obtain ⟨table, ht, htuple⟩ := h
    match pred with
    | 0 =>
      cases Option.some.inj ht
      cases List.mem_singleton.mp htuple
      exact ⟨[4], .cons rfl .nil, rfl⟩
    | 1 =>
      cases Option.some.inj ht
      exact nomatch htuple
    | pred + 2 => exact nomatch ht

open PartialHorn.Action in
theorem chase_universal_parity :
    (saturate [imageRule] {} (fun _ => 0) 5 imageStart).answer = .ok (some ⟨2, 1, 1, 1, 0⟩) ∧
      ∃! h, [4, 7] <+: h ∧ (saturate [imageRule] {} (fun _ => 0) 5 imageStart).after.Maps parity h :=
  have compiled : Rule.ofSequents imageSignature [imageSequent] = .ok [imageRule] := rfl
  have satisfied : ∀ seq ∈ [imageSequent], parity.Satisfies seq :=
    List.forall_mem_singleton.mpr parity_satisfies
  have universal := chase_universal compiled ⟨_, rfl⟩ satisfied parity_maps (.saturate {} (fun _ => 0) 5)
  ⟨rfl, universal.1⟩

end PartialHorn
