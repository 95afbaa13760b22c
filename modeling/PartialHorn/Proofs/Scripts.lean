import PartialHorn.Proofs.TypedFiring
import PartialHorn.Proofs.Freeness

namespace PartialHorn

/-- A call of a script that builds a structure. It names an element by its place among the elements
that the earlier calls of the script have answered. -/
inductive Command
  | add (sort : Nat)
  | define (op : Nat) (args : List Nat)
  | assert (pred : Nat) (args : List Nat)
  | merge (x y : Nat)

/-- The element that a script has got at a place. -/
def resultAt (results : List Nat) (place : Nat) : Except ContractError Nat :=
  match results[place]? with
  | some x => .ok x
  | none => .error (.unknownElement place results.length)

namespace Action

/-- Carries out a call of a script and answers the elements that the script has got by then. -/
def issue (results : List Nat) : Command → Action Structure ContractError (List Nat)
  | .add sort => do
    let x ← add sort
    return results ++ [x]
  | .define op args => do
    let args ← ofExcept (args.mapM (resultAt results))
    let x ← define op args
    return results ++ [x]
  | .assert pred args => do
    let args ← ofExcept (args.mapM (resultAt results))
    let _ ← assert pred args
    return results
  | .merge x y => do
    let x ← ofExcept (resultAt results x)
    let y ← ofExcept (resultAt results y)
    let _ ← merge x y
    return results

def execute : List Command → List Nat → Action Structure ContractError (List Nat)
  | [], results => give results
  | command :: commands, results => do
    let more ← issue results command
    execute commands more

end Action

open PartialHorn.Structure PartialHorn.Action

theorem resultAt_eq_ok_iff {results : List Nat} {place x : Nat} :
    resultAt results place = .ok x ↔ image results place = some x := by
  unfold resultAt image
  cases results[place]? with
  | none => simp
  | some y => simp

theorem resultsAt_eq_ok_iff {results places xs : List Nat} :
    places.mapM (resultAt results) = .ok xs ↔ (image results).Reads places xs := by
  simp only [mapM_eq_ok_iff, resultAt_eq_ok_iff, Valuation.Reads]

namespace Command

/-- What a call that succeeds does, and the elements that the script has got then. -/
def Makes (s : Structure) (results : List Nat) (results' : List Nat) (t : Structure) :
    Command → Prop
  | .add sort => ∃ x, (Action.add sort).Returns s x t ∧ results' = results ++ [x]
  | .define op args => ∃ xs x, (image results).Reads args xs ∧
      (Action.define op xs).Returns s x t ∧ results' = results ++ [x]
  | .assert pred args => ∃ xs flag, (image results).Reads args xs ∧
      (Action.assert pred xs).Returns s flag t ∧ results' = results
  | .merge x y => ∃ a b flag, image results x = some a ∧ image results y = some b ∧
      (Action.merge a b).Returns s flag t ∧ results' = results

/-- A call fits the sorts of the elements that a script has got so far, and leaves those that it has
got then. -/
def Fits (sig : Signature) (sorts sorts' : List Nat) : Command → Prop
  | .add sort => sort < sig.sorts.length ∧ sorts' = sorts ++ [sort]
  | .define op args => ∃ operation, sig.operations[op]? = some operation ∧
      (image sorts).Reads args operation.domain ∧ sorts' = sorts ++ [operation.codomain]
  | .assert pred args => ∃ predicate, sig.predicates[pred]? = some predicate ∧
      (image sorts).Reads args predicate.domain ∧ sorts' = sorts
  | .merge x y => ∃ sort, image sorts x = some sort ∧ image sorts y = some sort ∧ sorts' = sorts

def FitAll (sig : Signature) : List Command → List Nat → List Nat → Prop
  | [], sorts, sorts' => sorts' = sorts
  | command :: commands, sorts, sorts' =>
    ∃ mid, command.Fits sig sorts mid ∧ FitAll sig commands mid sorts'

theorem fitAll_append {sig : Signature} {first second : List Command} {sorts sorts' : List Nat} :
    FitAll sig (first ++ second) sorts sorts' ↔
      ∃ mid, FitAll sig first sorts mid ∧ FitAll sig second mid sorts' := by
  induction first generalizing sorts with
  | nil => simp [FitAll]
  | cons command first ih =>
    simp only [List.cons_append, FitAll, ih]
    constructor
    · intro ⟨mid, hfits, last, hfirst, hsecond⟩
      exact ⟨last, ⟨mid, hfits, hfirst⟩, hsecond⟩
    · intro ⟨last, ⟨mid, hfits, hfirst⟩, hsecond⟩
      exact ⟨mid, hfits, last, hfirst, hsecond⟩

end Command

namespace Action

variable {s t : Structure} {results results' : List Nat}

theorem issue_returns_iff {command : Command} :
    (issue results command).Returns s results' t ↔ command.Makes s results results' t := by
  cases command with
  | add sort =>
    constructor
    · intro h
      obtain ⟨x, _, hadd, h⟩ := returns_andThen.mp h
      obtain ⟨rfl, rfl⟩ := returns_give.mp h
      exact ⟨x, hadd, rfl⟩
    · intro ⟨x, hadd, he⟩
      exact hadd.andThen (returns_give.mpr ⟨he.symm, rfl⟩)
  | define op args =>
    constructor
    · intro h
      obtain ⟨xs, _, hargs, h⟩ := returns_andThen.mp h
      obtain ⟨hxs, rfl⟩ := returns_ofExcept.mp hargs
      obtain ⟨x, _, hdefine, h⟩ := returns_andThen.mp h
      obtain ⟨rfl, rfl⟩ := returns_give.mp h
      exact ⟨xs, x, resultsAt_eq_ok_iff.mp hxs, hdefine, rfl⟩
    · intro ⟨xs, x, hxs, hdefine, he⟩
      have hargs := ofExcept_returns (resultsAt_eq_ok_iff.mpr hxs) s
      exact hargs.andThen (hdefine.andThen (returns_give.mpr ⟨he.symm, rfl⟩))
  | assert pred args =>
    constructor
    · intro h
      obtain ⟨xs, _, hargs, h⟩ := returns_andThen.mp h
      obtain ⟨hxs, rfl⟩ := returns_ofExcept.mp hargs
      obtain ⟨flag, _, hassert, h⟩ := returns_andThen.mp h
      obtain ⟨rfl, rfl⟩ := returns_give.mp h
      exact ⟨xs, flag, resultsAt_eq_ok_iff.mp hxs, hassert, rfl⟩
    · intro ⟨xs, flag, hxs, hassert, he⟩
      have hargs := ofExcept_returns (resultsAt_eq_ok_iff.mpr hxs) s
      exact hargs.andThen (hassert.andThen (returns_give.mpr ⟨he.symm, rfl⟩))
  | merge x y =>
    constructor
    · intro h
      obtain ⟨a, _, hx, h⟩ := returns_andThen.mp h
      obtain ⟨ha, rfl⟩ := returns_ofExcept.mp hx
      obtain ⟨b, _, hy, h⟩ := returns_andThen.mp h
      obtain ⟨hb, rfl⟩ := returns_ofExcept.mp hy
      obtain ⟨flag, _, hmerge, h⟩ := returns_andThen.mp h
      obtain ⟨rfl, rfl⟩ := returns_give.mp h
      exact ⟨a, b, flag, resultAt_eq_ok_iff.mp ha, resultAt_eq_ok_iff.mp hb, hmerge, rfl⟩
    · intro ⟨a, b, flag, ha, hb, hmerge, he⟩
      have hx := ofExcept_returns (resultAt_eq_ok_iff.mpr ha) s
      have hy := ofExcept_returns (resultAt_eq_ok_iff.mpr hb) s
      exact hx.andThen (hy.andThen (hmerge.andThen (returns_give.mpr ⟨he.symm, rfl⟩)))

theorem issue_keeps (results : List Nat) (command : Command) :
    (issue results command).Obeys Keeps := by
  have last := fun more : List Nat => keeps_lasting.give (ε := ContractError) more
  have args := fun args : List Nat => keeps_lasting.ofExcept (args.mapM (resultAt results))
  have one := fun x : Nat => keeps_lasting.ofExcept (resultAt results x)
  cases command with
  | add sort => exact keeps_lasting.andThen (add_keeps sort) fun _ => last _
  | define op places =>
    refine keeps_lasting.andThen (args places) fun xs => ?_
    exact keeps_lasting.andThen (define_keeps op xs) fun _ => last _
  | assert pred places =>
    refine keeps_lasting.andThen (args places) fun xs => ?_
    exact keeps_lasting.andThen (assert_keeps pred xs) fun _ => last _
  | merge x y =>
    refine keeps_lasting.andThen (one x) fun a => keeps_lasting.andThen (one y) fun b => ?_
    exact keeps_lasting.andThen (merge_keeps a b) fun _ => last _

section Through

variable {C : Type*} {h ms : List C} (hreads : (image h).Reads results ms)

include hreads

/-- The element that a script has got at a place goes where that place goes. -/
theorem image_through {place x : Nat} (hx : image results place = some x) :
    image ms place = image h x := by
  obtain ⟨m, hm, hxm⟩ := forall₂_getElem? hreads hx
  exact hm.trans hxm.symm

theorem reads_through {places xs : List Nat} (hxs : (image results).Reads places xs) {ys : List C} :
    (image h).Reads xs ys ↔ (image ms).Reads places ys := by
  have himages : List.Forall₂ (fun place x => image ms place = image h x) places xs :=
    hxs.imp fun _ _ hx => image_through hreads hx
  constructor
  · intro hys
    exact forall₂_trans (fun _ _ _ he hy => he.trans hy) himages hys
  · intro hys
    exact forall₂_trans (fun _ _ _ he hy => he.trans hy) (forall₂_swap (fun _ _ => Eq.symm) himages) hys

end Through

section Typed

variable {sorts places xs : List Nat} (typed : s.Typed results sorts)

include typed

/-- Elements that a script has got have the sorts that are noted at their places. -/
theorem reads_typed (hxs : (image results).Reads places xs) {domain : List Nat} :
    s.Typed xs domain ↔ (image sorts).Reads places domain :=
  reads_through (h := s.sorts) typed hxs

theorem image_of_sorts {place sort : Nat} (h : image sorts place = some sort) :
    ∃ x, image results place = some x ∧ s.sorts[x]? = some sort :=
  forall₂_getElem? (forall₂_swap (fun _ _ h => h) typed) h

theorem reads_of_sorts {domain : List Nat} (h : (image sorts).Reads places domain) :
    ∃ xs, (image results).Reads places xs := by
  refine forall₂_exists fun place hplace => ?_
  obtain ⟨sort, _, hsort⟩ := forall₂_right_of_mem h hplace
  obtain ⟨x, hx, _⟩ := image_of_sorts typed hsort
  exact ⟨x, hx⟩

theorem typed_append {sort x : Nat} (grows : s.Grows t) (hx : t.sorts[x]? = some sort) :
    t.Typed (results ++ [x]) (sorts ++ [sort]) :=
  List.rel_append (grows.typed typed) (.cons hx .nil)

variable (valid : s.Valid)

include valid

/-- A call that succeeds has arguments of the right sorts. -/
theorem issue_fits {command : Command} (h : (issue results command).Returns s results' t) :
    ∃ sorts', command.Fits s.signature sorts sorts' ∧ t.Typed results' sorts' := by
  have hkept := h.kept (issue_keeps results command) valid
  have hmakes := issue_returns_iff.mp h
  cases command with
  | add sort =>
    obtain ⟨x, hadd, rfl⟩ := hmakes
    rcases add_cases valid sort with ⟨_, hno⟩ | ⟨hsort, hyes⟩
    · exact absurd hadd hno.not_returns
    · obtain ⟨rfl, rfl⟩ := hadd.unique hyes
      exact ⟨_, ⟨hsort, rfl⟩, typed_append typed hkept.2 (extended_sort_size sort)⟩
  | define op places =>
    obtain ⟨xs, x, hxs, hdefine, rfl⟩ := hmakes
    rcases define_cases valid op xs with ⟨_, hno⟩ | ⟨operation, happ, _⟩
    · exact absurd hdefine hno.not_returns
    · have hop : t.signature.operations[op]? = some operation := hkept.2.signature ▸ happ.1
      have hsort := hkept.1.applies_sort hop (define_returns valid hdefine)
      refine ⟨_, ⟨operation, happ.1, (reads_typed typed hxs).mp happ.2, rfl⟩, ?_⟩
      exact typed_append typed hkept.2 hsort
  | assert pred places =>
    obtain ⟨xs, flag, hxs, hassert, rfl⟩ := hmakes
    rcases assert_cases valid pred xs with ⟨_, hno⟩ | ⟨predicate, hrel, _⟩
    · exact absurd hassert hno.not_returns
    · exact ⟨_, ⟨predicate, hrel.1, (reads_typed typed hxs).mp hrel.2, rfl⟩, hkept.2.typed typed⟩
  | merge x y =>
    obtain ⟨a, b, flag, ha, hb, hmerge, rfl⟩ := hmakes
    rcases merge_cases valid a b with ⟨_, hno⟩ | ⟨sort, _, _, hsa, hsb, _⟩
    · exact absurd hmerge hno.not_returns
    · have hx := (image_through (h := s.sorts) typed ha).trans hsa
      have hy := (image_through (h := s.sorts) typed hb).trans hsb
      exact ⟨_, ⟨sort, hx, hy, rfl⟩, hkept.2.typed typed⟩

/-- A call whose arguments have the right sorts succeeds. -/
theorem issue_progress {command : Command} {sorts' : List Nat}
    (fits : command.Fits s.signature sorts sorts') :
    ∃ results' t, (issue results command).Returns s results' t ∧ t.Typed results' sorts' := by
  cases command with
  | add sort =>
    obtain ⟨hsort, rfl⟩ := fits
    rcases add_cases valid sort with ⟨hno, _⟩ | ⟨_, hyes⟩
    · exact absurd hsort hno
    · refine ⟨_, _, issue_returns_iff.mpr ⟨_, hyes, rfl⟩, ?_⟩
      exact typed_append typed (extended_grows sort valid) (extended_sort_size sort)
  | define op places =>
    obtain ⟨operation, hop, hreads, rfl⟩ := fits
    obtain ⟨xs, hxs⟩ := reads_of_sorts typed hreads
    obtain ⟨x, t, hdefine, hsort⟩ :=
      define_progress valid ⟨hop, (reads_typed typed hxs).mpr hreads⟩
    have hkept := hdefine.kept (define_keeps op xs) valid
    exact ⟨_, t, issue_returns_iff.mpr ⟨xs, x, hxs, hdefine, rfl⟩,
      typed_append typed hkept.2 hsort⟩
  | assert pred places =>
    obtain ⟨predicate, hpred, hreads, rfl⟩ := fits
    obtain ⟨xs, hxs⟩ := reads_of_sorts typed hreads
    obtain ⟨flag, t, hassert⟩ := assert_progress valid ⟨hpred, (reads_typed typed hxs).mpr hreads⟩
    have hkept := hassert.kept (assert_keeps pred xs) valid
    exact ⟨_, t, issue_returns_iff.mpr ⟨xs, flag, hxs, hassert, rfl⟩, hkept.2.typed typed⟩
  | merge x y =>
    obtain ⟨sort, hx, hy, rfl⟩ := fits
    obtain ⟨a, ha, hsa⟩ := image_of_sorts typed hx
    obtain ⟨b, hb, hsb⟩ := image_of_sorts typed hy
    rcases merge_cases valid a b with ⟨hno, _⟩ | ⟨_, flag, _, _, _, _, hmerge⟩
    · exact absurd ⟨sort, hsa, hsb⟩ hno
    · have hkept := hmerge.kept (merge_keeps a b) valid
      exact ⟨_, _, issue_returns_iff.mpr ⟨a, b, flag, ha, hb, hmerge, rfl⟩, hkept.2.typed typed⟩

end Typed

theorem execute_keeps (commands : List Command) (results : List Nat) :
    (execute commands results).Obeys Keeps := by
  induction commands generalizing results with
  | nil => exact keeps_lasting.give _
  | cons command commands ih =>
    exact keeps_lasting.andThen (issue_keeps results command) fun more => ih more

/-- A script that succeeds is well-sorted. -/
theorem execute_fits {sig : Signature} (valid : s.Valid) (hsig : s.signature = sig)
    {commands : List Command} {sorts : List Nat} (typed : s.Typed results sorts)
    (h : (execute commands results).Returns s results' t) :
    ∃ sorts', Command.FitAll sig commands sorts sorts' ∧ t.Typed results' sorts' := by
  induction commands generalizing s results sorts with
  | nil =>
    obtain ⟨rfl, rfl⟩ := returns_give.mp h
    exact ⟨sorts, rfl, typed⟩
  | cons command commands ih =>
    obtain ⟨more, u, hissue, h⟩ := returns_andThen.mp h
    have hkept := hissue.kept (issue_keeps results command) valid
    obtain ⟨mid, hfits, htyped⟩ := issue_fits typed valid hissue
    obtain ⟨sorts', hfit, htyped'⟩ := ih hkept.1 (hkept.2.signature.trans hsig) htyped h
    exact ⟨sorts', ⟨mid, hsig ▸ hfits, hfit⟩, htyped'⟩

/-- A well-sorted script succeeds on every structure where it starts with elements of the same
sorts. -/
theorem execute_progress {sig : Signature} (valid : s.Valid) (hsig : s.signature = sig)
    {commands : List Command} {sorts sorts' : List Nat} (typed : s.Typed results sorts)
    (fits : Command.FitAll sig commands sorts sorts') :
    ∃ results' t, (execute commands results).Returns s results' t ∧ t.Typed results' sorts' := by
  induction commands generalizing s results sorts with
  | nil => exact ⟨results, s, give_returns _ _, fits ▸ typed⟩
  | cons command commands ih =>
    obtain ⟨mid, hfits, hfit⟩ := fits
    obtain ⟨more, u, hissue, htyped⟩ := issue_progress typed valid (hsig.symm ▸ hfits)
    have hkept := hissue.kept (issue_keeps results command) valid
    obtain ⟨results', t, hrest, htyped'⟩ :=
      ih hkept.1 (hkept.2.signature.trans hsig) htyped hfit
    exact ⟨results', t, hissue.andThen hrest, htyped'⟩

end Action

end PartialHorn
