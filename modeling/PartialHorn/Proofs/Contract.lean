import PartialHorn.Proofs.CongruenceClosure

namespace PartialHorn

namespace Structure

/-- What is wrong with an argument in whose place an element of some sort is expected. -/
inductive Misplaces (s : Structure) (symbol : String) (position x expected : Nat) :
    ContractError → Prop
  | missing (unallocated : s.size ≤ x) :
      Misplaces s symbol position x expected (.forwardReference x s.size)
  | illSorted {actual : Nat} (sort : s.sorts[x]? = some actual) (other : actual ≠ expected) :
      Misplaces s symbol position x expected (.sortMismatch symbol position x expected actual)

/-- How the arguments of a symbol break its contract: by their number, and else by the first of them
that is misplaced. -/
inductive Misapplies (s : Structure) (symbol : String) (domain args : List Nat) :
    ContractError → Prop
  | number (other : args.length ≠ domain.length) :
      Misapplies s symbol domain args (.arityMismatch symbol domain.length args.length)
  | argument {position x expected : Nat} {e : ContractError} (number : args.length = domain.length)
      (first : FirstApart (fun x sort => s.sorts[x]? = some sort) args domain position x expected)
      (misplaces : s.Misplaces symbol position x expected e) : Misapplies s symbol domain args e

/-- How the use of a symbol breaks the contract. A symbol that is not declared comes before its
arguments. -/
def Misuses (s : Structure) (unknown : ContractError) (args : List Nat) (e : ContractError) :
    Option (String × List Nat) → Prop
  | none => e = unknown
  | some (symbol, domain) => s.Misapplies symbol domain args e

def MisusesOperation (s : Structure) (op : Nat) (args : List Nat) (e : ContractError) : Prop :=
  s.Misuses (.unknownOperation op) args e
    (s.signature.operations[op]?.map fun operation => (operation.name, operation.domain))

def MisusesPredicate (s : Structure) (pred : Nat) (args : List Nat) (e : ContractError) : Prop :=
  s.Misuses (.unknownPredicate pred) args e
    (s.signature.predicates[pred]?.map fun predicate => (predicate.name, predicate.domain))

/-- The first of some elements that does not exist breaks the contract. -/
def Misses (s : Structure) (e : ContractError) : List Nat → Prop
  | [] => False
  | x :: xs => (s.size ≤ x ∧ e = .unknownElement x s.size) ∨ (x < s.size ∧ s.Misses e xs)

def MismatchesSorts (s : Structure) (x y : Nat) (e : ContractError) : Prop :=
  ∃ xSort ySort, s.sorts[x]? = some xSort ∧ s.sorts[y]? = some ySort ∧ xSort ≠ ySort ∧
    e = .mergeSortMismatch x xSort y ySort

end Structure

/-- The ways in which a host breaks the contract of a structure by a call. -/
def Call.Breaches (s : Structure) (e : ContractError) : Call → Prop
  | .add sort => s.signature.sorts.length ≤ sort ∧ e = .unknownSort sort
  | .define op args | .lookup op args => s.MisusesOperation op args e
  | .assert pred args | .holds pred args => s.MisusesPredicate pred args e
  | .merge x y => s.Misses e [x, y] ∨ s.MismatchesSorts x y e
  | .areEqual x y => s.Misses e [x, y]
  | .find x | .sortOf x => s.Misses e [x]
  | _ => False

namespace Structure

section Arguments

variable {s : Structure} {symbol : String} {domain args : List Nat} {e : ContractError}

theorem Misplaces.apart {position x expected : Nat}
    (h : s.Misplaces symbol position x expected e) : s.sorts[x]? ≠ some expected := by
  cases h with
  | missing unallocated =>
    rw [List.getElem?_eq_none unallocated]
    exact nofun
  | illSorted sort other =>
    rw [sort]
    exact fun h => other (Option.some.inj h)

/-- The check of one argument: what it says of the argument, or else of the ones behind it. -/
theorem argumentError?_cons_iff {position x expected : Nat} :
    s.argumentError? symbol position (expected :: domain) (x :: args) = some e ↔
      s.Misplaces symbol position x expected e ∨ (s.sorts[x]? = some expected ∧
        s.argumentError? symbol (position + 1) domain args = some e) := by
  rw [argumentError?]
  cases hx : s.sorts[x]? with
  | none =>
    have unallocated : s.size ≤ x := List.getElem?_eq_none_iff.mp hx
    simp only [Option.some.injEq, reduceCtorEq, false_and, or_false]
    constructor
    · rintro rfl
      exact .missing unallocated
    · rintro (_ | ⟨sort, _⟩)
      · rfl
      · cases hx.symm.trans sort
  | some actual =>
    by_cases he : actual = expected
    · have fits : ¬s.Misplaces symbol position x expected e := fun h => h.apart (he ▸ hx)
      simp [he, fits]
    · simp only [he, ↓reduceIte, Option.some.injEq, false_and, or_false]
      constructor
      · rintro rfl
        exact .illSorted hx he
      · rintro (unallocated | ⟨sort, _⟩)
        · exact absurd (List.getElem?_eq_some_iff.mp hx).1 (Nat.not_lt.mpr unallocated)
        · rw [Option.some.inj (hx.symm.trans sort)]

theorem argumentError?_eq_some_iff (h : args.length = domain.length) (position : Nat) :
    s.argumentError? symbol position domain args = some e ↔
      ∃ i x expected, FirstApart (fun x sort => s.sorts[x]? = some sort) args domain i x expected ∧
        s.Misplaces symbol (position + i) x expected e :=
  @scan_eq_some_iff _ _ _ (s.argumentError? symbol) _ (s.Misplaces symbol) (fun _ => rfl)
    (fun _ _ _ _ _ _ => argumentError?_cons_iff) (fun _ _ _ _ misplaces => misplaces.apart) _ _ h
    position e

theorem applicationError?_eq_some_iff :
    s.applicationError? symbol domain args = some e ↔ s.Misapplies symbol domain args e := by
  unfold applicationError?
  split
  next h =>
    rw [argumentError?_eq_some_iff h]
    constructor
    · rintro ⟨i, x, expected, first, misplaces⟩
      exact .argument h first (Nat.zero_add i ▸ misplaces)
    · rintro (other | ⟨_, first, misplaces⟩)
      · exact absurd h other
      · exact ⟨_, _, _, first, (Nat.zero_add _).symm ▸ misplaces⟩
  next h =>
    rw [Option.some.injEq]
    constructor
    · rintro rfl
      exact .number h
    · rintro (_ | ⟨number, _, _⟩)
      · rfl
      · exact absurd number h

/-- What is wrong with some arguments depends on the sorts of the elements alone. -/
theorem Misapplies.congr {t : Structure} (h : s.Misapplies symbol domain args e)
    (hsorts : t.sorts = s.sorts) : t.Misapplies symbol domain args e := by
  have hsize : s.size = t.size := congrArg List.length hsorts.symm
  cases h with
  | number other => exact .number other
  | argument number first misplaces =>
    refine .argument number (hsorts ▸ first) ?_
    cases misplaces with
    | missing unallocated =>
      rw [hsize]
      exact .missing (hsize ▸ unallocated)
    | illSorted sort other => exact .illSorted (hsorts ▸ sort) other

theorem MisusesPredicate.congr {t : Structure} {pred : Nat} (h : s.MisusesPredicate pred args e)
    (hsignature : t.signature = s.signature) (hsorts : t.sorts = s.sorts) :
    t.MisusesPredicate pred args e := by
  have step : ∀ declared, s.Misuses (.unknownPredicate pred) args e declared →
      t.Misuses (.unknownPredicate pred) args e declared := fun declared h => by
    cases declared with
    | none => exact h
    | some profile => exact Misapplies.congr h hsorts
  unfold MisusesPredicate at h ⊢
  rw [hsignature]
  exact step _ h

theorem typed_of_not_misapplied (h : ∀ e, ¬s.Misapplies symbol domain args e) : s.Typed args domain := by
  cases herr : s.applicationError? symbol domain args with
  | none => exact applicationError?_eq_none.mp herr
  | some e => exact absurd (applicationError?_eq_some_iff.mp herr) (h e)

end Arguments

section Elements

variable {s : Structure} {x y : Nat} {e : ContractError}

theorem lt_size_of_not_missed {xs : List Nat} (h : ∀ e, ¬s.Misses e xs) : ∀ x ∈ xs, x < s.size := by
  induction xs with
  | nil => exact fun x hx => nomatch hx
  | cons y xs ih =>
    have hy : y < s.size := Nat.lt_of_not_le fun hle => h _ (Or.inl ⟨hle, rfl⟩)
    have hrest := ih fun e misses => h e (Or.inr ⟨hy, misses⟩)
    exact fun x hx => (List.mem_cons.mp hx).elim (fun he => he ▸ hy) (hrest x)

theorem sortOf_eq_error_iff : s.sortOf x = .error e ↔ s.Misses e [x] := by
  unfold sortOf
  cases hx : s.sorts[x]? with
  | none =>
    have hle : s.size ≤ x := List.getElem?_eq_none_iff.mp hx
    simp [Misses, hle, eq_comm]
  | some sort =>
    have hlt : x < s.size := (List.getElem?_eq_some_iff.mp hx).1
    simp [Misses, Nat.not_le.mpr hlt]

theorem Valid.find_eq_error_iff (valid : s.Valid) :
    s.equality.find x = .error e ↔ s.Misses e [x] := by
  rw [Equality.find, valid.tracked]
  cases hx : s.equality.reps[x]? with
  | none =>
    have hle : s.size ≤ x := valid.tracked ▸ List.getElem?_eq_none_iff.mp hx
    simp [Misses, hle, eq_comm]
  | some r =>
    have hlt : x < s.size := valid.tracked ▸ Equality.lt_size_of_getElem? hx
    simp [Misses, Nat.not_le.mpr hlt]

theorem Valid.areEqual_eq_error_iff (valid : s.Valid) :
    s.equality.areEqual x y = .error e ↔ s.Misses e [x, y] := by
  rw [Equality.areEqual, except_bind_eq_error, valid.find_eq_error_iff]
  simp only [Misses, and_false, or_false]
  refine or_congr_right ⟨?_, fun ⟨hx, hy⟩ => ?_⟩
  · rintro ⟨r, hx, h⟩
    rcases except_bind_eq_error.mp h with hy | ⟨r', _, h⟩
    · exact ⟨valid.tracked ▸ Equality.lt_size_of_getElem? (Equality.find_eq_ok_iff.mp hx),
        by simpa [Misses] using valid.find_eq_error_iff.mp hy⟩
    · exact nomatch h
  · refine ⟨_, valid.find_root hx, except_bind_eq_error.mpr (Or.inl ?_)⟩
    exact valid.find_eq_error_iff.mpr (Or.inl hy)

end Elements

end Structure

namespace Action

open Structure

section Breaches

variable {s t : Structure} {e : ContractError}

/-- A question changes nothing and fails when its answer is an error. -/
theorem ask_eq_error_iff {ε α : Type} {e : ε} (question : Structure → Except ε α) :
    (ask question).result s = (.error e, t) ↔ question s = .error e ∧ t = s := by
  have hresult : (ask question).result s = (question s, s) := rfl
  rw [hresult, Prod.mk.injEq, eq_comm (a := s)]

/-- The check of a symbol and of its arguments fails for what is wrong with them. -/
theorem check_misused {α β : Type} {unknown : ContractError} {args : List Nat} {declared : Option α}
    {profile : α → String × List Nat} {next : α → Unit → Action Structure ContractError β}
    (h : s.Misuses unknown args e (declared.map profile)) :
    (andThen (ofOption unknown declared) fun a =>
      andThen (refuse (s.applicationError? (profile a).1 (profile a).2 args)) (next a)).result s =
        (.error e, s) := by
  cases declared with
  | none =>
    cases h
    exact result_andThen_of_error rfl
  | some a =>
    have refused : s.applicationError? (profile a).1 (profile a).2 args = some e :=
      applicationError?_eq_some_iff.mpr h
    refine (give_returns a s).result_andThen.trans (result_andThen_of_error ?_)
    rw [refused]
    rfl

theorem applied_misused {op : Nat} {args : List Nat} (h : s.MisusesOperation op args e) :
    (applied op args).result s = (.error e, s) :=
  (current_returns s).result_andThen.trans (check_misused h)

theorem related_misused {pred : Nat} {args : List Nat} (h : s.MisusesPredicate pred args e) :
    (related pred args).result s = (.error e, s) :=
  (current_returns s).result_andThen.trans (check_misused h)

theorem typed_of_not_misused {α : Type} {unknown : ContractError} {args : List Nat}
    {declared : Option α} {profile : α → String × List Nat}
    (h : ∀ e, ¬s.Misuses unknown args e (declared.map profile)) :
    ∃ a, declared = some a ∧ s.Typed args (profile a).2 := by
  cases declared with
  | none => exact absurd rfl (h unknown)
  | some a => exact ⟨a, rfl, typed_of_not_misapplied h⟩

theorem applicable_of_not_misused {op : Nat} {args : List Nat}
    (h : ∀ e, ¬s.MisusesOperation op args e) : ∃ operation, s.Applicable op args operation :=
  typed_of_not_misused h

theorem relatable_of_not_misused {pred : Nat} {args : List Nat}
    (h : ∀ e, ¬s.MisusesPredicate pred args e) : ∃ predicate, s.Relatable pred args predicate :=
  typed_of_not_misused h

/-- A call on an operation that answers whenever the operation can be applied fails for misuses only. -/
theorem applied_eq_error_iff {α : Type} {op : Nat} {args : List Nat}
    {next : Operation × List Nat → Action Structure ContractError α}
    (answers : ∀ operation, s.Applicable op args operation →
      ∃ a t, (andThen (applied op args) next).Returns s a t) :
    (andThen (applied op args) next).result s = (.error e, t) ↔
      s.MisusesOperation op args e ∧ t = s := by
  refine result_eq_error_iff (fun e misuses => result_andThen_of_error (applied_misused misuses)) ?_
  intro sound
  obtain ⟨operation, happ⟩ := applicable_of_not_misused sound
  exact answers operation happ

theorem related_eq_error_iff {α : Type} {pred : Nat} {args : List Nat}
    {next : List Nat → Action Structure ContractError α}
    (answers : ∀ predicate, s.Relatable pred args predicate →
      ∃ a t, (andThen (related pred args) next).Returns s a t) :
    (andThen (related pred args) next).result s = (.error e, t) ↔
      s.MisusesPredicate pred args e ∧ t = s := by
  refine result_eq_error_iff (fun e misuses => result_andThen_of_error (related_misused misuses)) ?_
  intro sound
  obtain ⟨predicate, hrel⟩ := relatable_of_not_misused sound
  exact answers predicate hrel

/-- An action that answers does not fail. -/
theorem Returns.eq_error_iff {α : Type} {action : Action Structure ContractError α} {a : α} {u : Structure}
    (h : action.Returns s a t) : action.result s = (.error e, u) ↔ False ∧ u = s :=
  result_eq_error_iff (fun _ => False.elim) fun _ => ⟨a, t, h⟩

/-- A call fails as the action behind it does. -/
theorem asked_eq_error_iff {α : Type} {action : Action Structure ContractError α} {failure : Failure}
    (wrap : α → Answer) : (asked wrap action).result s = (.error failure, t) ↔
      ∃ e, action.result s = (.error e, t) ∧ failure = .structure e := by
  cases hanswer : (action s).answer with
  | error e =>
    have renamed : (mapError Failure.structure action).result s =
        (.error (.structure e), (action s).after) := by
      rw [result, mapError, hanswer]
      rfl
    have hasked : (asked wrap action).result s = (.error (.structure e), (action s).after) :=
      result_andThen_of_error renamed
    rw [hasked, result, hanswer]
    simp [eq_comm, and_comm]
  | ok a =>
    have returns : action.Returns s a (action s).after := ⟨hanswer, rfl⟩
    rw [returns_iff_result.mp returns, returns_iff_result.mp (returns.asked wrap)]
    simp

theorem asked_breaks_iff {α : Type} {action : Action Structure ContractError α}
    {breach : ContractError → Prop} {failure : Failure} (wrap : α → Answer)
    (h : ∀ e, action.result s = (.error e, t) ↔ breach e ∧ t = s) :
    (asked wrap action).result s = (.error failure, t) ↔
      (∃ e, breach e ∧ failure = .structure e) ∧ t = s := by
  rw [asked_eq_error_iff]
  constructor
  · rintro ⟨e, hresult, rfl⟩
    obtain ⟨hbreach, ht⟩ := (h e).mp hresult
    exact ⟨⟨e, hbreach, rfl⟩, ht⟩
  · rintro ⟨⟨e, hbreach, rfl⟩, ht⟩
    exact ⟨e, (h e).mpr ⟨hbreach, ht⟩, rfl⟩

theorem ask_breaks_iff {α : Type} {question : Structure → Except ContractError α} {xs : List Nat}
    (h : ∀ e, question s = .error e ↔ s.Misses e xs) (e : ContractError) :
    (ask question).result s = (.error e, t) ↔ s.Misses e xs ∧ t = s :=
  (ask_eq_error_iff question).trans (and_congr_left' (h e))

section Valid

variable (valid : s.Valid)

include valid

theorem add_eq_error_iff (sort : Nat) : (add sort).result s = (.error e, t) ↔
    (s.signature.sorts.length ≤ sort ∧ e = .unknownSort sort) ∧ t = s := by
  apply result_eq_error_iff
  · rintro e ⟨hle, rfl⟩
    refine (current_returns s).result_andThen.trans ?_
    rw [if_neg (Nat.not_lt.mpr (valid.carriers_length ▸ hle))]
    rfl
  · intro sound
    rcases add_cases valid sort with ⟨hle, _⟩ | ⟨_, h⟩
    · exact absurd ⟨Nat.not_lt.mp hle, rfl⟩ (sound _)
    · exact ⟨_, _, h⟩

theorem define_eq_error_iff (op : Nat) (args : List Nat) :
    (define op args).result s = (.error e, t) ↔ s.MisusesOperation op args e ∧ t = s := by
  refine applied_eq_error_iff fun operation happ => ?_
  rcases define_cases valid op args with ⟨hnot, _⟩ | ⟨_, _, ⟨x, _, h⟩ | ⟨_, h⟩⟩
  · exact absurd happ (hnot operation)
  · exact ⟨_, _, h⟩
  · exact ⟨_, _, h⟩

theorem lookup_eq_error_iff (op : Nat) (args : List Nat) :
    (lookup op args).result s = (.error e, t) ↔ s.MisusesOperation op args e ∧ t = s :=
  applied_eq_error_iff fun _ happ => ⟨_, _, lookup_returns valid happ⟩

theorem assert_eq_error_iff (pred : Nat) (args : List Nat) :
    (assert pred args).result s = (.error e, t) ↔ s.MisusesPredicate pred args e ∧ t = s :=
  related_eq_error_iff fun _ hrel => ⟨_, _, returns_asserted valid hrel⟩

theorem holds_eq_error_iff (pred : Nat) (args : List Nat) :
    (holds pred args).result s = (.error e, t) ↔ s.MisusesPredicate pred args e ∧ t = s :=
  related_eq_error_iff fun _ hrel => ⟨_, _, holds_returns valid hrel⟩

theorem merge_eq_error_iff (x y : Nat) : (merge x y).result s = (.error e, t) ↔
    (s.Misses e [x, y] ∨ s.MismatchesSorts x y e) ∧ t = s := by
  have start := current_returns (ε := ContractError) s
  have known : ∀ z, z < s.size → ∃ sort, s.sorts[z]? = some sort := fun z hz =>
    ⟨_, List.getElem?_eq_getElem hz⟩
  apply result_eq_error_iff
  · rintro e ((⟨hx, rfl⟩ | ⟨hx, hy⟩) | ⟨xSort, ySort, hx, hy, hne, rfl⟩)
    · have hfail := sortOf_eq_error_iff.mpr (Or.inl ⟨hx, rfl⟩)
      exact start.result_andThen.trans (result_andThen_of_error (congrArg (·, s) hfail))
    · obtain ⟨sort, hsort⟩ := known x hx
      have first := ofExcept_returns (sortOf_eq_ok_iff.mpr hsort) s
      have hfail := sortOf_eq_error_iff.mpr hy
      refine start.result_andThen.trans (first.result_andThen.trans ?_)
      exact result_andThen_of_error (congrArg (·, s) hfail)
    · have first := ofExcept_returns (sortOf_eq_ok_iff.mpr hx) s
      have second := ofExcept_returns (sortOf_eq_ok_iff.mpr hy) s
      refine start.result_andThen.trans (first.result_andThen.trans (second.result_andThen.trans ?_))
      rw [if_neg hne]
      rfl
  · intro sound
    have hlt := lt_size_of_not_missed fun e misses => sound e (Or.inl misses)
    obtain ⟨xSort, hx⟩ := known x (hlt x (by simp))
    obtain ⟨ySort, hy⟩ := known y (hlt y (by simp))
    rcases merge_cases valid x y with ⟨hnot, _⟩ | ⟨_, _, _, _, _, _, h⟩
    · have hne : xSort ≠ ySort := fun he => hnot ⟨xSort, hx, he ▸ hy⟩
      exact absurd (Or.inr ⟨xSort, ySort, hx, hy, hne, rfl⟩) (sound _)
    · exact ⟨_, _, h⟩

end Valid

end Breaches

end Action

/-- A call that is not a run of the chase fails exactly on the breaches of its contract, with the
error of the breach and without a change. -/
theorem Call.perform_eq_error_iff {s : Structure} (valid : s.Valid) {call : Call}
    (hosted : call.Hosted) (failure : Failure) (t : Structure) :
    call.perform.result s = (.error failure, t) ↔
      (∃ e, call.Breaches s e ∧ failure = .structure e) ∧ t = s := by
  cases call with
  | add sort => exact Action.asked_breaks_iff _ fun _ => Action.add_eq_error_iff valid sort
  | define op args => exact Action.asked_breaks_iff _ fun _ => Action.define_eq_error_iff valid op args
  | lookup op args => exact Action.asked_breaks_iff _ fun _ => Action.lookup_eq_error_iff valid op args
  | assert pred args =>
    exact Action.asked_breaks_iff _ fun _ => Action.assert_eq_error_iff valid pred args
  | holds pred args =>
    exact Action.asked_breaks_iff _ fun _ => Action.holds_eq_error_iff valid pred args
  | merge x y => exact Action.asked_breaks_iff _ fun _ => Action.merge_eq_error_iff valid x y
  | areEqual x y =>
    exact Action.asked_breaks_iff _ (Action.ask_breaks_iff fun _ => valid.areEqual_eq_error_iff)
  | find x => exact Action.asked_breaks_iff _ (Action.ask_breaks_iff fun _ => valid.find_eq_error_iff)
  | sortOf x =>
    exact Action.asked_breaks_iff _ (Action.ask_breaks_iff fun _ => Structure.sortOf_eq_error_iff)
  | rebuild =>
    obtain ⟨_, h⟩ := Action.returns_rebuild valid
    exact Action.asked_breaks_iff _ fun _ => h.eq_error_iff
  | classes =>
    have h : Action.classes.Returns s s.equality.classes s := Action.ask_returns rfl
    exact Action.asked_breaks_iff _ fun _ => h.eq_error_iff
  | solve rule =>
    exact Action.asked_breaks_iff _ fun _ => (Action.solve_returns valid rule).eq_error_iff
  | chaseOnce rules => exact hosted.elim
  | chase rules budget clock passes => exact hosted.elim

/-- A host call fails exactly when it breaks the contract of the structure, with the error of the
first breach, and then leaves the structure as it was: merges that wait to reach the tables still
wait. The rebuild inside a call never fails, and neither does a lookup of a representative for an
element that exists. -/
theorem host_calls_fail_on_breach {sig : Signature} {s : Structure} (reachable : s.Reachable sig) :
    (∀ call : Call, call.Hosted → ∀ failure t,
      call.perform.result s = (.error failure, t) ↔
        (∃ e, call.Breaches s e ∧ failure = .structure e) ∧ t = s) ∧
    ∀ x e, s.equality.find x = .error e ↔ s.size ≤ x ∧ e = .unknownElement x s.size := by
  have valid := reachable.valid
  refine ⟨fun call hosted => Call.perform_eq_error_iff valid hosted, fun x e => ?_⟩
  rw [valid.find_eq_error_iff]
  simp [Structure.Misses]

/-- Two sorts with an operation and a predicate on both. -/
def pairSignature : Signature where
  sorts := ["S", "T"]
  operations := [⟨"f", [0, 1], 0⟩]
  predicates := [⟨"P", [0, 1]⟩]

/-- Two values of `f` that a rebuild will merge, since their arguments have been merged. -/
def pairStart : Structure :=
  (Structure.empty pairSignature).afterCalls
    [.add 0, .add 1, .add 0, .define 0 [0, 1], .define 0 [2, 1], .merge 0 2]

/-- An argument of the wrong sort is reported before a later one that does not exist, and the merge
still waits afterwards. -/
theorem host_calls_fail_on_breach_pair :
    pairStart.dirty = true ∧
      (Call.define 0 [1, 9]).perform.result pairStart =
        (.error (.structure (.sortMismatch "f" 0 1 0 1)), pairStart) ∧
      (Call.holds 0 [2, 9]).perform.result pairStart =
        (.error (.structure (.forwardReference 9 5)), pairStart) ∧
      ∀ failure t, (Call.define 0 [2, 1]).perform.result pairStart ≠ (.error failure, t) := by
  have reachable : pairStart.Reachable pairSignature := ⟨_, rfl⟩
  obtain ⟨fails, _⟩ := host_calls_fail_on_breach reachable
  have misplaced : (Call.define 0 [1, 9]).Breaches pairStart (.sortMismatch "f" 0 1 0 1) :=
    .argument rfl ⟨.nil, rfl, rfl, by decide⟩ (.illSorted rfl (by decide))
  have second : FirstApart (fun x sort => pairStart.sorts[x]? = some sort) [2, 9] [0, 1] 1 9 1 :=
    ⟨.cons rfl .nil, rfl, rfl, by decide⟩
  have missing : (Call.holds 0 [2, 9]).Breaches pairStart (.forwardReference 9 5) :=
    .argument rfl second (.missing (by decide))
  refine ⟨rfl, ?_, ?_, fun failure t h => ?_⟩
  · exact (fails (.define 0 [1, 9]) trivial _ _).mpr ⟨⟨_, misplaced, rfl⟩, rfl⟩
  · exact (fails (.holds 0 [2, 9]) trivial _ _).mpr ⟨⟨_, missing, rfl⟩, rfl⟩
  · obtain ⟨⟨e, misapplies, _⟩, _⟩ := (fails (.define 0 [2, 1]) trivial failure t).mp h
    exact nomatch Structure.applicationError?_eq_some_iff.mpr misapplies

end PartialHorn
