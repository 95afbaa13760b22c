import PartialHorn.Proofs.Compilation

namespace PartialHorn

namespace Sequent

/-- Variables with different names and declared sorts. -/
structure Context (sig : Signature) (vars : List Variable) : Prop where
  distinct : (vars.map Variable.name).Nodup
  declared : ∀ v ∈ vars, v.sort < sig.sorts.length

/-- A sequent over a signature: its context is one, and its atoms agree with the signature. -/
structure WellFormed (sig : Signature) (seq : Sequent) : Prop where
  context : Context sig seq.vars
  fits : ∀ atom ∈ seq.premises ++ seq.conclusions, seq.Fits sig atom

/-- What is wrong with a variable behind some names. A name that is taken comes before a sort that is
not declared. -/
inductive VariableFault (sig : Signature) (names : List String) (v : Variable) : Fault → Prop
  | repeated (taken : v.name ∈ names) : VariableFault sig names v (.duplicateVariable v.name)
  | undeclared (free : v.name ∉ names) (unknown : sig.sorts.length ≤ v.sort) :
      VariableFault sig names v (.unknownSort v.sort)

/-- What is wrong with a variable in whose place a variable of some sort is expected. -/
inductive ArgumentFault (seq : Sequent) (symbol : String) (var expected : Nat) : Fault → Prop
  | missing (outside : seq.vars.length ≤ var) :
      ArgumentFault seq symbol var expected (.variableOutOfRange var)
  | illSorted {v : Variable} (here : seq.vars[var]? = some v) (other : v.sort ≠ expected) :
      ArgumentFault seq symbol var expected (.sortMismatch symbol v.name expected v.sort)

/-- What is wrong with the arguments of a symbol: their number, and else the first bad one. -/
inductive ApplicationFault (seq : Sequent) (symbol : String) (domain vars : List Nat) :
    Fault → Prop
  | number (other : vars.length ≠ domain.length) :
      ApplicationFault seq symbol domain vars (.arityMismatch symbol domain.length vars.length)
  | argument {position var expected : Nat} {fault : Fault} (number : vars.length = domain.length)
      (first : FirstApart (fun var sort => seq.sort? var = some sort) vars domain position var expected)
      (wrong : seq.ArgumentFault symbol var expected fault) :
      ApplicationFault seq symbol domain vars fault

/-- What is wrong with an atom: its symbol, else its arguments, else its result. Of an equality the
left side comes before the right one, which needs the sort of the left one. -/
inductive AtomFault (sig : Signature) (seq : Sequent) : Atom → Fault → Prop
  | unknownOperation {op result : Nat} {args : List Nat} (unknown : sig.operations[op]? = none) :
      AtomFault sig seq (.op op args result) (.unknownOperation op)
  | arguments {op result : Nat} {args : List Nat} {operation : Operation} {fault : Fault}
      (known : sig.operations[op]? = some operation)
      (wrong : seq.ApplicationFault operation.name operation.domain args fault) :
      AtomFault sig seq (.op op args result) fault
  | result {op result : Nat} {args : List Nat} {operation : Operation} {fault : Fault}
      (known : sig.operations[op]? = some operation) (sorted : seq.Sorted args operation.domain)
      (wrong : seq.ArgumentFault operation.name result operation.codomain fault) :
      AtomFault sig seq (.op op args result) fault
  | unknownPredicate {pred : Nat} {args : List Nat} (unknown : sig.predicates[pred]? = none) :
      AtomFault sig seq (.pred pred args) (.unknownPredicate pred)
  | tuple {pred : Nat} {args : List Nat} {predicate : Predicate} {fault : Fault}
      (known : sig.predicates[pred]? = some predicate)
      (wrong : seq.ApplicationFault predicate.name predicate.domain args fault) :
      AtomFault sig seq (.pred pred args) fault
  | left {lhs rhs : Nat} (outside : seq.vars.length ≤ lhs) :
      AtomFault sig seq (.eq lhs rhs) (.variableOutOfRange lhs)
  | right {lhs rhs : Nat} {v : Variable} {fault : Fault} (here : seq.vars[lhs]? = some v)
      (wrong : seq.ArgumentFault "=" rhs v.sort fault) : AtomFault sig seq (.eq lhs rhs) fault

/-- The first thing that is wrong with a sequent: a variable behind a context, or else an atom behind
atoms that agree with the signature, the premises coming before the conclusions. -/
inductive FirstFault (sig : Signature) (seq : Sequent) : Fault → Prop
  | inContext {before after : List Variable} {v : Variable} {fault : Fault}
      (place : seq.vars = before ++ v :: after) (context : Context sig before)
      (wrong : VariableFault sig (before.map Variable.name) v fault) : FirstFault sig seq fault
  | inAtoms {before after : List Atom} {atom : Atom} {fault : Fault} (context : Context sig seq.vars)
      (place : seq.premises ++ seq.conclusions = before ++ atom :: after)
      (fits : ∀ other ∈ before, seq.Fits sig other) (wrong : AtomFault sig seq atom fault) :
      FirstFault sig seq fault

section Variables

variable {sig : Signature} {names : List String} {fault : Fault}

theorem contextFault?_cons_iff {v : Variable} {vars : List Variable} :
    contextFault? sig names (v :: vars) = some fault ↔ VariableFault sig names v fault ∨
      (v.name ∉ names ∧ v.sort < sig.sorts.length ∧
        contextFault? sig (v.name :: names) vars = some fault) := by
  rw [contextFault?]
  split
  next taken =>
    simp only [Option.some.injEq, taken, not_true_eq_false, false_and, or_false]
    constructor
    · rintro rfl
      exact .repeated taken
    · rintro (_ | ⟨free, _⟩)
      · rfl
      · exact absurd taken free
  next free =>
    split
    next known =>
      have fine : ¬VariableFault sig names v fault := by
        rintro (taken | ⟨_, unknown⟩)
        · exact free taken
        · exact Nat.not_lt.mpr unknown known
      simp [fine, free, known]
    next unknown =>
      simp only [Option.some.injEq, free, unknown, false_and, and_false, or_false]
      constructor
      · rintro rfl
        exact .undeclared free (Nat.not_lt.mp unknown)
      · rintro (taken | _)
        · exact absurd taken free
        · rfl

/-- The names are collected in reverse, so this is the order in which a fault finds them. -/
theorem contextFault?_split {vars : List Variable} : contextFault? sig names vars = some fault ↔
    ∃ before v after, vars = before ++ v :: after ∧ contextFault? sig names before = none ∧
      VariableFault sig ((before.map Variable.name).reverse ++ names) v fault := by
  induction vars generalizing names with
  | nil => simp [contextFault?]
  | cons v vars ih =>
    rw [contextFault?_cons_iff, exists_place_cons_iff, ih]
    refine or_congr ⟨fun h => ⟨rfl, h⟩, And.right⟩ ?_
    simp only [contextFault?_cons_eq_none, List.map_cons, List.reverse_cons, List.append_assoc,
      List.singleton_append]
    constructor
    · rintro ⟨free, known, before, w, after, place, hnone, wrong⟩
      exact ⟨before, w, after, place, ⟨free, known, hnone⟩, wrong⟩
    · rintro ⟨before, w, after, place, ⟨free, known, hnone⟩, wrong⟩
      exact ⟨free, known, before, w, after, place, hnone, wrong⟩

theorem contextFault?_eq_none_iff {vars : List Variable} :
    contextFault? sig [] vars = none ↔ Context sig vars := by
  rw [contextFault?_eq_none]
  constructor
  · rintro ⟨distinct, declared⟩
    exact ⟨distinct, fun v hv => (declared v hv).2⟩
  · rintro ⟨distinct, declared⟩
    exact ⟨distinct, fun v hv => ⟨List.not_mem_nil, declared v hv⟩⟩

theorem VariableFault.congr {names' : List String} {v : Variable}
    (h : VariableFault sig names v fault) (hnames : ∀ name, name ∈ names ↔ name ∈ names') :
    VariableFault sig names' v fault := by
  cases h with
  | repeated taken => exact .repeated ((hnames _).mp taken)
  | undeclared free unknown => exact .undeclared (fun h => free ((hnames _).mpr h)) unknown

theorem contextFault?_eq_some_iff {vars : List Variable} :
    contextFault? sig [] vars = some fault ↔
      ∃ before v after, vars = before ++ v :: after ∧ Context sig before ∧
        VariableFault sig (before.map Variable.name) v fault := by
  simp only [contextFault?_split, List.append_nil, contextFault?_eq_none_iff]
  have hnames : ∀ (before : List Variable) name, name ∈ (before.map Variable.name).reverse ↔
      name ∈ before.map Variable.name := fun _ _ => List.mem_reverse
  constructor
  · rintro ⟨before, v, after, place, context, wrong⟩
    exact ⟨before, v, after, place, context, wrong.congr (hnames before)⟩
  · rintro ⟨before, v, after, place, context, wrong⟩
    exact ⟨before, v, after, place, context, wrong.congr fun name => (hnames before name).symm⟩

end Variables

section Atoms

variable {seq : Sequent} {sig : Signature} {symbol : String} {fault : Fault}

theorem ArgumentFault.apart {var expected : Nat} (h : seq.ArgumentFault symbol var expected fault) :
    seq.sort? var ≠ some expected := by
  cases h with
  | missing outside =>
    rw [sort?, List.getElem?_eq_none outside]
    exact nofun
  | illSorted here other =>
    rw [sort?, here]
    exact fun h => other (Option.some.inj h)

theorem argumentFault?_cons_iff {var expected : Nat} {vars domain : List Nat} :
    seq.argumentFault? symbol (expected :: domain) (var :: vars) = some fault ↔
      seq.ArgumentFault symbol var expected fault ∨
        (seq.sort? var = some expected ∧ seq.argumentFault? symbol domain vars = some fault) := by
  rw [argumentFault?, sortOf, sort?]
  cases hvar : seq.vars[var]? with
  | none =>
    have outside : seq.vars.length ≤ var := List.getElem?_eq_none_iff.mp hvar
    simp only [Option.some.injEq, Option.map_none, reduceCtorEq, false_and, or_false]
    constructor
    · rintro rfl
      exact .missing outside
    · rintro (_ | ⟨here, _⟩)
      · rfl
      · cases hvar.symm.trans here
  | some v =>
    by_cases he : v.sort = expected
    · have fits : ¬seq.ArgumentFault symbol var expected fault := fun h =>
        h.apart (by rw [sort?, hvar, Option.map_some, he])
      simp [he, fits]
    · simp only [he, ↓reduceIte, nameOf, hvar, Option.some.injEq, Option.map_some, false_and, or_false]
      constructor
      · rintro rfl
        exact .illSorted hvar he
      · rintro (outside | ⟨here, _⟩)
        · exact absurd (List.getElem?_eq_some_iff.mp hvar).1 (Nat.not_lt.mpr outside)
        · rw [Option.some.inj (hvar.symm.trans here)]

theorem argumentFault?_eq_some_iff {vars domain : List Nat} (h : vars.length = domain.length) :
    seq.argumentFault? symbol domain vars = some fault ↔ ∃ i var expected,
      FirstApart (fun var sort => seq.sort? var = some sort) vars domain i var expected ∧
        seq.ArgumentFault symbol var expected fault :=
  @scan_eq_some_iff _ _ _ (fun _ => seq.argumentFault? symbol) _
    (fun _ => seq.ArgumentFault symbol) (fun _ => rfl)
    (fun _ _ _ _ _ _ => argumentFault?_cons_iff) (fun _ _ _ _ wrong => wrong.apart) _ _ h 0 fault

theorem argumentFault?_one_iff {var sort : Nat} :
    seq.argumentFault? symbol [sort] [var] = some fault ↔ seq.ArgumentFault symbol var sort fault := by
  rw [argumentFault?_cons_iff]
  exact or_iff_left fun h => nomatch h.2

theorem applicationFault?_eq_some_iff {vars domain : List Nat} :
    seq.applicationFault? symbol domain vars = some fault ↔
      seq.ApplicationFault symbol domain vars fault := by
  unfold applicationFault?
  split
  next h =>
    rw [argumentFault?_eq_some_iff h]
    constructor
    · rintro ⟨i, var, expected, first, wrong⟩
      exact .argument h first wrong
    · rintro (other | ⟨_, first, wrong⟩)
      · exact absurd h other
      · exact ⟨_, _, _, first, wrong⟩
  next h =>
    rw [Option.some.injEq]
    constructor
    · rintro rfl
      exact .number h
    · rintro (_ | ⟨number, _, _⟩)
      · rfl
      · exact absurd number h

theorem atomFault?_eq_some_iff {atom : Atom} :
    seq.atomFault? sig atom = some fault ↔ AtomFault sig seq atom fault := by
  cases atom with
  | op op args result =>
    rw [atomFault?]
    cases hop : sig.operations[op]? with
    | none =>
      rw [Option.some.injEq]
      refine ⟨fun h => h ▸ .unknownOperation hop, fun h => ?_⟩
      cases h with
      | unknownOperation => rfl
      | arguments known => cases hop.symm.trans known
      | result known => cases hop.symm.trans known
    | some operation =>
      rw [Option.or_eq_some_iff, applicationFault?_eq_some_iff, applicationFault?_eq_none,
        argumentFault?_one_iff]
      refine ⟨?_, fun h => ?_⟩
      · rintro (wrong | ⟨sorted, wrong⟩)
        · exact .arguments hop wrong
        · exact .result hop sorted wrong
      · cases h with
        | unknownOperation unknown => cases hop.symm.trans unknown
        | arguments known wrong =>
          cases Option.some.inj (hop.symm.trans known)
          exact Or.inl wrong
        | result known sorted wrong =>
          cases Option.some.inj (hop.symm.trans known)
          exact Or.inr ⟨sorted, wrong⟩
  | pred pred args =>
    rw [atomFault?]
    cases hpred : sig.predicates[pred]? with
    | none =>
      rw [Option.some.injEq]
      refine ⟨fun h => h ▸ .unknownPredicate hpred, fun h => ?_⟩
      cases h with
      | unknownPredicate => rfl
      | tuple known => cases hpred.symm.trans known
    | some predicate =>
      rw [applicationFault?_eq_some_iff]
      refine ⟨fun wrong => .tuple hpred wrong, fun h => ?_⟩
      cases h with
      | unknownPredicate unknown => cases hpred.symm.trans unknown
      | tuple known wrong =>
        cases Option.some.inj (hpred.symm.trans known)
        exact wrong
  | eq lhs rhs =>
    rw [atomFault?, sortOf]
    cases hl : seq.vars[lhs]? with
    | none =>
      have outside : seq.vars.length ≤ lhs := List.getElem?_eq_none_iff.mp hl
      rw [Option.some.injEq]
      refine ⟨fun h => h ▸ .left outside, fun h => ?_⟩
      cases h with
      | left => rfl
      | right here => cases hl.symm.trans here
    | some v =>
      rw [argumentFault?_one_iff]
      refine ⟨fun wrong => .right hl wrong, fun h => ?_⟩
      cases h with
      | left outside => cases (List.getElem?_eq_none outside).symm.trans hl
      | right here wrong =>
        cases Option.some.inj (hl.symm.trans here)
        exact wrong

theorem fault?_eq_none : seq.fault? sig = none ↔ seq.WellFormed sig := by
  rw [fault?, Option.or_eq_none_iff, contextFault?_eq_none_iff, List.findSome?_eq_none_iff]
  simp only [atomFault?_eq_none]
  exact ⟨fun ⟨context, fits⟩ => ⟨context, fits⟩, fun ⟨context, fits⟩ => ⟨context, fits⟩⟩

/-- The fault that is reported is the first one. -/
theorem fault?_eq_some_iff : seq.fault? sig = some fault ↔ seq.FirstFault sig fault := by
  rw [fault?, Option.or_eq_some_iff, contextFault?_eq_some_iff, contextFault?_eq_none_iff,
    List.findSome?_eq_some_iff]
  simp only [atomFault?_eq_some_iff, atomFault?_eq_none]
  constructor
  · rintro (⟨before, v, after, place, context, wrong⟩ | ⟨context, before, atom, after, place, wrong, fits⟩)
    · exact .inContext place context wrong
    · exact .inAtoms context place fits wrong
  · intro h
    cases h with
    | inContext place context wrong => exact Or.inl ⟨_, _, _, place, context, wrong⟩
    | inAtoms context place fits wrong => exact Or.inr ⟨context, _, _, _, place, wrong, fits⟩

/-- Every variable that a plan scans is one of an atom, so it has a sort. -/
theorem WellFormed.plan_total (h : seq.WellFormed sig) : ∃ plan, seq.plan = .ok plan := by
  have scans : ∀ var ∈ seq.scope.scanned, ∃ step, (do
      let sort ← seq.sortOf var
      return Step.scan var sort : Except Fault Step) = .ok step := fun var hvar => by
    obtain ⟨sort, hsort⟩ := ranged_sort h.fits (mem_ranged.mpr (Or.inr hvar))
    exact ⟨_, except_bind_eq_ok.mpr ⟨sort, sortOf_eq_ok_iff.mpr hsort, rfl⟩⟩
  obtain ⟨steps, hsteps⟩ := forall₂_exists scans
  exact ⟨_, except_bind_eq_ok.mpr ⟨steps, mapM_eq_ok_iff.mpr hsteps, rfl⟩⟩

end Atoms

end Sequent

namespace Rule

open Sequent

variable {sig : Signature}

theorem ofSequent_wellFormed {seq : Sequent} (h : seq.WellFormed sig) (index : Nat) :
    ∃ rule, ofSequent sig index seq = .ok rule := by
  obtain ⟨plan, hplan⟩ := h.plan_total
  rw [ofSequent, fault?_eq_none.mpr h, hplan]
  exact ⟨_, rfl⟩

theorem ofSequent_faulty {seq : Sequent} {fault : Fault} (h : seq.FirstFault sig fault)
    (index : Nat) : ofSequent sig index seq = .error ⟨seq.name, fault⟩ := by
  rw [ofSequent, fault?_eq_some_iff.mpr h]

theorem wellFormed_or_faulty (sig : Signature) (seq : Sequent) :
    seq.WellFormed sig ∨ ∃ fault, seq.FirstFault sig fault := by
  cases hfault : seq.fault? sig with
  | none => exact Or.inl (fault?_eq_none.mp hfault)
  | some fault => exact Or.inr ⟨fault, fault?_eq_some_iff.mp hfault⟩

theorem ofSequent_ok_iff {index : Nat} {seq : Sequent} :
    (∃ rule, ofSequent sig index seq = .ok rule) ↔ seq.WellFormed sig := by
  refine ⟨fun ⟨rule, h⟩ => ?_, fun h => ofSequent_wellFormed h index⟩
  rcases wellFormed_or_faulty sig seq with wellFormed | ⟨fault, faulty⟩
  · exact wellFormed
  · exact nomatch h.symm.trans (ofSequent_faulty faulty index)

theorem ofSequent_error_iff {index : Nat} {seq : Sequent} {e : SequentError} :
    ofSequent sig index seq = .error e ↔ e.sequent = seq.name ∧ seq.FirstFault sig e.fault := by
  constructor
  · intro h
    rcases wellFormed_or_faulty sig seq with wellFormed | ⟨fault, faulty⟩
    · obtain ⟨rule, hrule⟩ := ofSequent_wellFormed wellFormed index
      exact nomatch h.symm.trans hrule
    · cases Except.error.inj (h.symm.trans (ofSequent_faulty faulty index))
      exact ⟨rfl, faulty⟩
  · rintro ⟨hname, faulty⟩
    rw [ofSequent_faulty faulty, ← hname]

theorem ofSequentsFrom_ok_iff {index : Nat} {seqs : List Sequent} :
    (∃ rules, ofSequentsFrom sig index seqs = .ok rules) ↔ ∀ seq ∈ seqs, seq.WellFormed sig := by
  induction seqs generalizing index with
  | nil => simp [ofSequentsFrom]
  | cons seq seqs ih =>
    rw [List.forall_mem_cons]
    constructor
    · rintro ⟨rules, h⟩
      obtain ⟨rule, hrule, h⟩ := except_bind_eq_ok.mp h
      obtain ⟨rest, hrest, _⟩ := except_bind_eq_ok.mp h
      exact ⟨ofSequent_ok_iff.mp ⟨rule, hrule⟩, ih.mp ⟨rest, hrest⟩⟩
    · rintro ⟨hseq, hseqs⟩
      obtain ⟨rule, hrule⟩ := ofSequent_wellFormed hseq index
      obtain ⟨rest, hrest⟩ : ∃ rest, ofSequentsFrom sig (index + 1) seqs = .ok rest := ih.mpr hseqs
      exact ⟨_, except_bind_eq_ok.mpr ⟨rule, hrule, except_bind_eq_ok.mpr ⟨rest, hrest, rfl⟩⟩⟩

theorem ofSequentsFrom_cons_eq_error {index : Nat} {seq : Sequent} {seqs : List Sequent}
    {e : SequentError} : ofSequentsFrom sig index (seq :: seqs) = .error e ↔
      ofSequent sig index seq = .error e ∨
        (seq.WellFormed sig ∧ ofSequentsFrom sig (index + 1) seqs = .error e) := by
  rw [ofSequentsFrom, except_bind_eq_error]
  refine or_congr_right ⟨?_, fun ⟨hseq, hrest⟩ => ?_⟩
  · rintro ⟨rule, hrule, h⟩
    rcases except_bind_eq_error.mp h with hrest | ⟨_, _, h⟩
    · exact ⟨ofSequent_ok_iff.mp ⟨rule, hrule⟩, hrest⟩
    · exact nomatch h
  · obtain ⟨rule, hrule⟩ := ofSequent_wellFormed hseq index
    exact ⟨rule, hrule, except_bind_eq_error.mpr (Or.inl hrest)⟩

theorem ofSequentsFrom_error_iff {index : Nat} {seqs : List Sequent} {e : SequentError} :
    ofSequentsFrom sig index seqs = .error e ↔ ∃ before seq after, seqs = before ++ seq :: after ∧
      (∀ other ∈ before, other.WellFormed sig) ∧
      ofSequent sig (index + before.length) seq = .error e := by
  induction seqs generalizing index with
  | nil => simp [ofSequentsFrom]
  | cons seq seqs ih =>
    rw [ofSequentsFrom_cons_eq_error, exists_place_cons_iff, ih]
    refine or_congr (by simp) ?_
    simp only [List.forall_mem_cons, List.length_cons, Nat.add_assoc, Nat.add_comm 1]
    constructor
    · rintro ⟨hseq, before, other, after, place, fine, h⟩
      exact ⟨before, other, after, place, ⟨hseq, fine⟩, h⟩
    · rintro ⟨before, other, after, place, ⟨hseq, fine⟩, h⟩
      exact ⟨hseq, before, other, after, place, fine, h⟩

end Rule

/-- The sequents that become rules are exactly the well-formed ones. Any other is rejected for the
first thing that is wrong with it, and a list of sequents for its first sequent that is rejected. -/
theorem acceptance_exact (sig : Signature) :
    (∀ index seq, ((∃ rule, Rule.ofSequent sig index seq = .ok rule) ↔ seq.WellFormed sig) ∧
      ∀ e, Rule.ofSequent sig index seq = .error e ↔
        e.sequent = seq.name ∧ seq.FirstFault sig e.fault) ∧
    ∀ seqs, ((∃ rules, Rule.ofSequents sig seqs = .ok rules) ↔ ∀ seq ∈ seqs, seq.WellFormed sig) ∧
      ∀ e, Rule.ofSequents sig seqs = .error e ↔ ∃ before seq after, seqs = before ++ seq :: after ∧
        (∀ other ∈ before, other.WellFormed sig) ∧
        Rule.ofSequent sig before.length seq = .error e := by
  refine ⟨fun index seq => ⟨Rule.ofSequent_ok_iff, fun e => Rule.ofSequent_error_iff⟩,
    fun seqs => ⟨Rule.ofSequentsFrom_ok_iff, fun e => ?_⟩⟩
  rw [Rule.ofSequents, Rule.ofSequentsFrom_error_iff]
  simp only [Nat.zero_add]

/-- The name of the second variable is taken, its sort is not declared, and the premise asks for a
predicate that does not exist. The name is reported. -/
example : Rule.ofSequent { sorts := ["S"] } 0
    { name := "twice", vars := [⟨"x", 0⟩, ⟨"x", 7⟩], premises := [.pred 9 [0]] } =
      .error ⟨"twice", .duplicateVariable "x"⟩ :=
  rfl

end PartialHorn
