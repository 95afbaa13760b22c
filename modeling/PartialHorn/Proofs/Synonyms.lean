import PartialHorn.Proofs.Permanence
import PartialHorn.Proofs.Contract

namespace PartialHorn

namespace Structure

/-- Two lists of elements that name the same arguments, which a rebuild brings to light. -/
def Synonyms (s : Structure) (xs ys : List Nat) : Prop :=
  List.Forall₂ s.renewed.Equal xs ys

section Synonyms

variable {s : Structure} (valid : s.Valid) {xs ys : List Nat}

theorem renewed_renewed (valid : s.Valid) : s.renewed.renewed = s.renewed :=
  (renewed_clean (renewed_dirty valid)).2

theorem Synonyms.key (h : s.Synonyms xs ys) : s.key ys = s.key xs :=
  (roots_eq h).symm

/-- Equal names stay equal in a structure that has grown and is clean. -/
theorem Synonyms.grows {t : Structure} (h : s.Synonyms xs ys) (grows : s.renewed.Grows t)
    (clean : t.dirty = false) : t.Synonyms xs ys := by
  unfold Synonyms
  rw [(renewed_clean clean).2]
  exact grows.equal_all h

include valid

theorem Synonyms.applicable {op : Nat} {operation : Operation} (h : s.Synonyms xs ys)
    (happ : s.Applicable op xs operation) : s.Applicable op ys operation := by
  have happ' := (applicable_renewed valid).mpr happ
  exact (applicable_renewed valid).mp ⟨happ'.1, (renewed_valid valid).typed_equal h happ'.2⟩

theorem Synonyms.relatable {pred : Nat} {predicate : Predicate} (h : s.Synonyms xs ys)
    (hrel : s.Relatable pred xs predicate) : s.Relatable pred ys predicate := by
  have hrel' := (relatable_renewed valid).mpr hrel
  exact (relatable_renewed valid).mp ⟨hrel'.1, (renewed_valid valid).typed_equal h hrel'.2⟩

theorem renewed_key (xs : List Nat) : s.renewed.key xs = s.key xs := by
  rw [Structure.key, renewed_renewed valid, Structure.key]

end Synonyms

/-- A tuple makes a predicate hold at the equals of the tuple and nowhere else. -/
theorem withTuple_relates {s : Structure} {pred other : Nat} {tuple zs : List Nat}
    (apart : other = pred → ¬List.Forall₂ s.Equal zs tuple) :
    (s.withTuple pred tuple).Relates other zs ↔ s.Relates other zs := by
  constructor
  · rintro ⟨old, hold, hargs⟩
    rcases withTuple_hasTuple_cases hold with hold | ⟨rfl, rfl⟩
    · exact ⟨old, hold, hargs⟩
    · exact absurd hargs (apart rfl)
  · rintro ⟨old, hold, hargs⟩
    exact ⟨old, withTuple_hasTuple hold, hargs⟩

theorem asserted_renewed {s : Structure} (valid : s.Valid) (pred : Nat) (xs : List Nat) :
    (s.asserted pred xs).renewed = s.asserted pred xs := by
  have clean : (s.asserted pred xs).dirty = false := renewed_dirty valid
  exact (renewed_clean clean).2

theorem asserted_relates {s : Structure} (valid : s.Valid) {pred other : Nat} {xs zs : List Nat}
    (hxs : ∀ x ∈ xs, x < s.size) (apart : other = pred → ¬s.Synonyms xs zs) :
    (s.asserted pred xs).Relates other zs ↔ s.renewed.Relates other zs := by
  refine withTuple_relates fun he hargs => apart he ?_
  exact equal_all_trans (key_equal valid hxs) (equal_all_symm hargs)

end Structure

namespace Action

open Structure

section Synonyms

variable {s : Structure} (valid : s.Valid) {xs ys : List Nat}

include valid

/-- Before they act, calls turn the arguments into the same key, however these are named and whether
the structure has been rebuilt or not. -/
theorem applied_synonym {op : Nat} {operation : Operation} (happ : s.Applicable op xs operation)
    (h : s.Synonyms xs ys) : (applied op ys).Returns s (operation, s.key xs) s.renewed ∧
      (applied op ys).Returns s.renewed (operation, s.key xs) s.renewed := by
  have happ' := h.applicable valid happ
  have hfirst := applied_returns valid happ'
  have hagain := applied_returns (renewed_valid valid) ((applicable_renewed valid).mpr happ')
  rw [renewed_key valid, renewed_renewed valid] at hagain
  rw [h.key] at hfirst hagain
  exact ⟨hfirst, hagain⟩

theorem related_synonym {pred : Nat} {predicate : Predicate} (hrel : s.Relatable pred xs predicate)
    (h : s.Synonyms xs ys) : (related pred ys).Returns s (s.key xs) s.renewed ∧
      (related pred ys).Returns s.renewed (s.key xs) s.renewed := by
  have hrel' := h.relatable valid hrel
  have hfirst := related_returns valid hrel'
  have hagain := related_returns (renewed_valid valid) ((relatable_renewed valid).mpr hrel')
  rw [renewed_key valid, renewed_renewed valid] at hagain
  rw [h.key] at hfirst hagain
  exact ⟨hfirst, hagain⟩

/-- Calls on an operation end alike under all names of the arguments, before a rebuild and after. -/
theorem applied_alike {β : Type} {op : Nat} {operation : Operation}
    (happ : s.Applicable op xs operation) (h : s.Synonyms xs ys)
    (next : Operation × List Nat → Action Structure ContractError β) :
    (andThen (applied op ys) next).result s = (andThen (applied op xs) next).result s ∧
      (andThen (applied op ys) next).result s.renewed = (andThen (applied op xs) next).result s := by
  obtain ⟨hfirst, hagain⟩ := applied_synonym valid happ h
  have own := applied_returns valid happ
  exact ⟨hfirst.result_andThen_eq own next, hagain.result_andThen_eq own next⟩

theorem related_alike {β : Type} {pred : Nat} {predicate : Predicate}
    (hrel : s.Relatable pred xs predicate) (h : s.Synonyms xs ys)
    (next : List Nat → Action Structure ContractError β) :
    (andThen (related pred ys) next).result s = (andThen (related pred xs) next).result s ∧
      (andThen (related pred ys) next).result s.renewed = (andThen (related pred xs) next).result s := by
  obtain ⟨hfirst, hagain⟩ := related_synonym valid hrel h
  have own := related_returns valid hrel
  exact ⟨hfirst.result_andThen_eq own next, hagain.result_andThen_eq own next⟩

end Synonyms

section Values

variable {s t : Structure} (valid : s.Valid) {op r : Nat} {xs : List Nat}

include valid

/-- A definition leaves a clean structure that has the value, under its own name, in a row. -/
theorem define_leaves (h : (define op xs).Returns s r t) :
    t.Valid ∧ t.dirty = false ∧ s.renewed.Grows t ∧ t.equality.reps[r]? = some r := by
  have settled : ∀ {u : Structure} {args}, u.Valid → u.dirty = false → u.HasRow op ⟨args, r⟩ →
      u.equality.reps[r]? = some r := fun hu clean hrow => by
    have hroot := congrArg Row.result (hu.rowCanonical clean _ _ hrow)
    have hrep := Equality.getElem?_root (hu.tracked ▸ (hu.row_lt hrow).2)
    exact hrep.trans (congrArg some hroot)
  have clean := renewed_dirty valid
  rcases define_cases valid op xs with ⟨_, hno⟩ | ⟨operation, happ, ⟨x, hrow, hy⟩ | ⟨hnone, hy⟩⟩
  · exact absurd h hno.not_returns
  · obtain ⟨rfl, rfl⟩ := h.unique hy
    have hv := renewed_valid valid
    exact ⟨hv, clean, .refl hv, settled hv clean hrow⟩
  · obtain ⟨rfl, rfl⟩ := h.unique hy
    have hv := defined_valid valid happ
    exact ⟨hv, clean, defined_grows valid op operation xs,
      settled hv clean (defined_hasRow valid happ hnone)⟩

/-- What has been defined is found. -/
theorem lookup_defined (h : (define op xs).Returns s r t) : (lookup op xs).Returns t (some r) t := by
  obtain ⟨valid', clean, _, hrep⟩ := define_leaves valid h
  have hrenewed := (renewed_clean clean).2
  have hanswer : (lookup op xs t).answer = .ok (some r) := by
    rw [lookup_answers valid', hrenewed]
    exact ⟨define_returns valid h, hrep⟩
  exact ⟨hanswer, (lookup_after valid' hanswer).trans hrenewed⟩

/-- A definition answers what a lookup finds, and does no more than the lookup. -/
theorem define_found (h : (lookup op xs).Returns s (some r) t) : (define op xs).Returns s r t := by
  rcases define_cases valid op xs with ⟨hnot, _⟩ | ⟨operation, happ, hcases⟩
  · rcases lookup_cases valid op xs with ⟨_, hno⟩ | ⟨operation, happ, _⟩
    · exact absurd h hno.not_returns
    · exact absurd happ (hnot operation)
  · have found := lookup_returns valid happ
    obtain ⟨hvalue, rfl⟩ := h.unique found
    have hrow := (renewed_valid valid).result?_iff.mp hvalue.symm
    rcases hcases with ⟨x, hrow', hx⟩ | ⟨hnone, _⟩
    · have hunique := (renewed_valid valid).row_unique hrow hrow' rfl
      rwa [(Row.mk.inj hunique).2]
    · exact absurd hrow (result?_eq_none hnone)

/-- Where a lookup finds nothing, a definition creates one element, which is newer than its
arguments. -/
theorem define_absent {operation : Operation} (happ : s.Applicable op xs operation)
    (h : (lookup op xs).Returns s none t) :
    (define op xs).Returns s s.size (s.defined op operation xs) := by
  have found := lookup_returns valid happ
  obtain ⟨hvalue, _⟩ := h.unique found
  rcases define_cases valid op xs with ⟨hnot, _⟩ | ⟨other, hother, ⟨x, hrow, _⟩ | ⟨_, hx⟩⟩
  · exact absurd happ (hnot operation)
  · exact absurd hrow (result?_eq_none hvalue.symm)
  · cases Option.some.inj (happ.1.symm.trans hother.1)
    exact hx

end Values

section Facts

variable {s : Structure} (valid : s.Valid) {pred : Nat} {xs : List Nat} {predicate : Predicate}
  (hrel : s.Relatable pred xs predicate)

include valid hrel

theorem asserted_valid : (s.asserted pred xs).Valid := by
  have hkeeps := (assert_keeps pred xs s valid).1
  rwa [(returns_asserted valid hrel).2] at hkeeps

/-- What has been asserted holds. -/
theorem holds_asserted :
    (holds pred xs).Returns (s.asserted pred xs) true (s.asserted pred xs) := by
  have valid' := asserted_valid valid hrel
  have hrenewed := asserted_renewed valid pred xs
  have hrel' : (s.asserted pred xs).Relatable pred xs predicate := (relatable_renewed valid).mpr hrel
  refine ⟨?_, (holds_returns valid' hrel').2.trans hrenewed⟩
  rw [holds_answers valid', hrenewed]
  exact assert_returns valid (returns_asserted valid hrel)

/-- An assertion changes no answer but at the arguments that it names. Where the arguments break the
contract, they break it in the same way as before. -/
theorem holds_elsewhere {other : Nat} {zs : List Nat} (apart : other = pred → ¬s.Synonyms xs zs) :
    (holds other zs (s.asserted pred xs)).answer = (holds other zs s).answer := by
  have renews := renews_renewed valid
  by_cases misused : ∃ e, s.MisusesPredicate other zs e
  · obtain ⟨e, misuses⟩ := misused
    have misuses' : (s.asserted pred xs).MisusesPredicate other zs e :=
      misuses.congr renews.signature renews.sorts
    have hbefore : (holds other zs).result s = (.error e, s) :=
      result_andThen_of_error (related_misused misuses)
    have hafter : (holds other zs).result (s.asserted pred xs) = (.error e, s.asserted pred xs) :=
      result_andThen_of_error (related_misused misuses')
    exact (congrArg Prod.fst hafter).trans (congrArg Prod.fst hbefore).symm
  · obtain ⟨predicate', hother⟩ := relatable_of_not_misused (not_exists.mp misused)
    have hother' : (s.asserted pred xs).Relatable other zs predicate' :=
      (relatable_renewed valid).mpr hother
    have valid' := asserted_valid valid hrel
    have hbefore := (holds_returns valid hother).1
    have hafter := (holds_returns valid' hother').1
    have hsame : (holds other zs (s.asserted pred xs)).answer = .ok true ↔
        (holds other zs s).answer = .ok true := by
      rw [holds_answers valid', holds_answers valid, asserted_renewed valid pred xs]
      exact asserted_relates valid hrel.2.lt_size apart
    rw [hbefore, hafter, Except.ok.injEq, Except.ok.injEq] at hsame
    rw [hbefore, hafter, Bool.eq_iff_iff.mpr hsame]

end Facts

end Action

/-- How an operation is looked up and defined at some arguments, whatever these are called. A lookup
finds `value`, a definition answers `r` and leaves `t`, and there it is found and defined already. -/
structure Structure.Evaluates (s : Structure) (op : Nat) (xs : List Nat) (sort : Nat)
    (value : Option Nat) (r : Nat) (t : Structure) : Prop where
  lookup : ∀ ys, s.Synonyms xs ys → (Action.lookup op ys).Returns s value s.renewed
  define : ∀ ys, s.Synonyms xs ys →
    (Action.define op ys).Returns s r t ∧ (Action.define op ys).Returns s.renewed r t
  found : ∀ x, value = some x → r = x ∧ t = s.renewed
  created : value = none → r = s.size ∧ t.sorts = s.sorts ++ [sort] ∧
    ∀ ys, s.Synonyms xs ys → ∀ y ∈ ys, y < r
  lookupAgain : ∀ ys, s.Synonyms xs ys → (Action.lookup op ys).Returns t (some r) t
  defineAgain : ∀ ys, s.Synonyms xs ys → (Action.define op ys).Returns t r t

/-- How a predicate is asked and asserted at some arguments, whatever these are called. It is `known`
to hold or not, an assertion leaves `t`, and there it holds, and holds nowhere else than before. -/
structure Structure.Records (s : Structure) (pred : Nat) (xs : List Nat) (known : Bool)
    (t : Structure) : Prop where
  holds : ∀ ys, s.Synonyms xs ys → (Action.holds pred ys).Returns s known s.renewed
  assert : ∀ ys, s.Synonyms xs ys →
    (Action.assert pred ys).Returns s (!known) t ∧
      (Action.assert pred ys).Returns s.renewed (!known) t
  sorts : t.sorts = s.sorts
  unchanged : known = true → t = s.renewed
  holdsAgain : ∀ ys, s.Synonyms xs ys → (Action.holds pred ys).Returns t true t
  elsewhere : ∀ other zs, (other = pred → ¬s.Synonyms xs zs) →
    (Action.holds other zs t).answer = (Action.holds other zs s).answer

namespace Action

open Structure

section Agreement

variable {s : Structure} (valid : s.Valid) {xs : List Nat}

include valid

theorem evaluates_of_define {op r : Nat} {operation : Operation} {value : Option Nat} {t : Structure}
    (happ : s.Applicable op xs operation) (hlookup : (lookup op xs).Returns s value s.renewed)
    (hdefine : (define op xs).Returns s r t)
    (found : ∀ x, value = some x → r = x ∧ t = s.renewed)
    (created : value = none → r = s.size ∧ t.sorts = s.sorts ++ [operation.codomain]) :
    s.Evaluates op xs operation.codomain value r t := by
  obtain ⟨valid', clean, grows, _⟩ := define_leaves valid hdefine
  have happ' : t.Applicable op xs operation := by
    have hop := (applicable_renewed valid).mpr happ
    exact ⟨grows.signature.symm ▸ hop.1, grows.typed hop.2⟩
  have hlookup' := lookup_defined valid hdefine
  have hdefine' := define_found valid' hlookup'
  have again : ∀ ys, s.Synonyms xs ys → t.Synonyms xs ys := fun ys h => h.grows grows clean
  refine
    { lookup := fun ys h => hlookup.of_result_eq (applied_alike valid happ h _).1
      define := fun ys h => ?_
      found := found
      created := fun hnone => ?_
      lookupAgain := fun ys h => hlookup'.of_result_eq (applied_alike valid' happ' (again ys h) _).1
      defineAgain := fun ys h => hdefine'.of_result_eq (applied_alike valid' happ' (again ys h) _).1 }
  · obtain ⟨hfirst, hafter⟩ := applied_alike valid happ h _
    exact ⟨hdefine.of_result_eq hfirst, hdefine.of_result_eq hafter⟩
  · obtain ⟨rfl, hsorts⟩ := created hnone
    exact ⟨rfl, hsorts, fun ys h => (h.applicable valid happ).2.lt_size⟩

theorem evaluates {op : Nat} {operation : Operation} (happ : s.Applicable op xs operation) :
    ∃ value r t, s.Evaluates op xs operation.codomain value r t := by
  have hlookup := lookup_returns valid happ
  cases hvalue : s.renewed.result? op (s.key xs) with
  | some x =>
    rw [hvalue] at hlookup
    refine ⟨some x, x, s.renewed, evaluates_of_define valid happ hlookup (define_found valid hlookup) ?_ ?_⟩
    · exact fun y hy => ⟨Option.some.inj hy, rfl⟩
    · exact fun h => nomatch h
  | none =>
    rw [hvalue] at hlookup
    refine ⟨none, s.size, s.defined op operation xs, evaluates_of_define valid happ hlookup
      (define_absent valid happ hlookup) (fun x hx => nomatch hx) fun _ => ⟨rfl, ?_⟩⟩
    exact congrArg (· ++ [operation.codomain]) (renews_renewed valid).sorts

theorem records {pred : Nat} {predicate : Predicate} (hrel : s.Relatable pred xs predicate) :
    ∃ known t, s.Records pred xs known t := by
  have hholds := holds_returns valid hrel
  have hassert := returns_asserted valid hrel
  have hholds' := holds_asserted valid hrel
  have valid' := asserted_valid valid hrel
  have hrel' : (s.asserted pred xs).Relatable pred xs predicate := (relatable_renewed valid).mpr hrel
  have grows : s.renewed.Grows (s.asserted pred xs) := withTuple_grows (renewed_valid valid)
  have again : ∀ ys, s.Synonyms xs ys → (s.asserted pred xs).Synonyms xs ys :=
    fun ys h => h.grows grows (renewed_dirty valid)
  refine ⟨s.renewed.hasTuple pred (s.key xs), s.asserted pred xs, ?_⟩
  refine
    { holds := fun ys h => hholds.of_result_eq (related_alike valid hrel h _).1
      assert := fun ys h => ?_
      sorts := (renews_renewed valid).sorts
      unchanged := fun hknown => withTuple_of_hasTuple (hasTuple_iff.mp hknown)
      holdsAgain := fun ys h => hholds'.of_result_eq (related_alike valid' hrel' (again ys h) _).1
      elsewhere := fun other zs apart => holds_elsewhere valid hrel apart }
  obtain ⟨hfirst, hafter⟩ := related_alike valid hrel h _
  exact ⟨hassert.of_result_eq hfirst, hassert.of_result_eq hafter⟩

end Agreement

end Action

/-- Reads and writes agree up to equality. At arguments that a rebuild makes equal all calls answer
alike and leave the same structure. What a lookup finds, a definition answers; where it finds nothing,
a definition creates the one element that is found from then on. An assertion is new exactly where
the predicate did not hold. Before they answer the calls rebuild, which adds neither elements nor
facts. -/
theorem reads_and_writes_agree {sig : Signature} {s : Structure} (reachable : s.Reachable sig) :
    s.Renews s.renewed ∧
    (∀ op xs operation, s.Applicable op xs operation →
      ∃ value r t, s.Evaluates op xs operation.codomain value r t) ∧
    ∀ pred xs predicate, s.Relatable pred xs predicate → ∃ known t, s.Records pred xs known t := by
  have valid := reachable.valid
  refine ⟨Structure.renews_renewed valid, ?_, ?_⟩
  · exact fun op xs operation happ => Action.evaluates valid happ
  · exact fun pred xs predicate hrel => Action.records valid hrel

/-- Two elements and their images, before a rebuild has made the images equal too. -/
def mirrorMerged : Structure :=
  mirrorStart.afterCalls [.merge 0 1]

open PartialHorn.Action in
/-- The merge waits in the beginning. The images have two names, and neither has an image yet. -/
theorem reads_and_writes_agree_mirror :
    mirrorMerged.dirty = true ∧
      (lookup 0 [3]).Returns mirrorMerged none mirrorMerged.renewed ∧
      (∃ t, (define 0 [2]).Returns mirrorMerged 4 t ∧ (lookup 0 [3]).Returns t (some 4) t ∧
        (define 0 [3]).Returns t 4 t) ∧
      ∃ t, (assert 0 [1]).Returns mirrorMerged true t ∧ (holds 0 [0]).Returns t true t ∧
        (holds 0 [2] t).answer = .ok true := by
  have reachable : mirrorMerged.Reachable mirrorSignature :=
    ⟨[.add 0, .add 0, .define 0 [0], .define 0 [1], .assert 0 [3], .merge 0 1], rfl⟩
  obtain ⟨_, operations, predicates⟩ := reads_and_writes_agree reachable
  have images : mirrorMerged.Synonyms [2] [3] := .cons ⟨2, rfl, rfl⟩ .nil
  have image : mirrorMerged.Synonyms [2] [2] := .cons ⟨2, rfl, rfl⟩ .nil
  have origins : mirrorMerged.Synonyms [1] [0] := .cons ⟨0, rfl, rfl⟩ .nil
  have origin : mirrorMerged.Synonyms [1] [1] := .cons ⟨0, rfl, rfl⟩ .nil
  have apart : ¬mirrorMerged.Synonyms [1] [2] := by
    rintro (_ | ⟨⟨r, hone, htwo⟩, _⟩)
    exact nomatch hone.trans htwo.symm
  obtain ⟨value, r, t, evaluates⟩ := operations 0 [2] ⟨"f", [0], 0⟩ ⟨rfl, .cons rfl .nil⟩
  obtain ⟨known, u, records⟩ := predicates 0 [1] ⟨"P", [0]⟩ ⟨rfl, .cons rfl .nil⟩
  have absent : (lookup 0 [3]).Returns mirrorMerged none mirrorMerged.renewed := ⟨rfl, rfl⟩
  have unknown : (holds 0 [1]).Returns mirrorMerged false mirrorMerged.renewed := ⟨rfl, rfl⟩
  obtain ⟨rfl, _⟩ := (evaluates.lookup [3] images).unique absent
  obtain ⟨rfl, _⟩ := (records.holds [1] origin).unique unknown
  obtain ⟨rfl, _⟩ := evaluates.created rfl
  refine ⟨rfl, absent, ⟨t, (evaluates.define [2] image).1, evaluates.lookupAgain [3] images,
    evaluates.defineAgain [3] images⟩, u, (records.assert [1] origin).1,
    records.holdsAgain [0] origins, ?_⟩
  exact records.elsewhere 0 [2] fun _ => apart

end PartialHorn
