import PartialHorn.Clause
import PartialHorn.Proofs.Acceptance
import Mathlib.Data.List.Induction

namespace PartialHorn

namespace NamedAtom

/-- The names of the variables of an atom in order, with the result of an operation last. -/
def names : NamedAtom → List String
  | .op _ args result => args ++ [result]
  | .pred _ args => args
  | .eq lhs rhs => [lhs, rhs]

/-- The signature has the symbol of an atom. -/
def Known (sig : Signature) : NamedAtom → Prop
  | .op name _ _ => name ∈ sig.operations.map Operation.name
  | .pred name _ => name ∈ sig.predicates.map Predicate.name
  | .eq _ _ => True

/-- The first name of an atom that cannot be resolved: its symbol, or else a variable that has not
been declared, behind variables that have. -/
inductive Unresolved (sig : Signature) (declared : List String) : NamedAtom → Fault → Prop
  | operation {name result : String} {args : List String}
      (unknown : name ∉ sig.operations.map Operation.name) :
      Unresolved sig declared (.op name args result) (.unknownOperationName name)
  | predicate {name : String} {args : List String}
      (unknown : name ∉ sig.predicates.map Predicate.name) :
      Unresolved sig declared (.pred name args) (.unknownPredicateName name)
  | undeclared {atom : NamedAtom} {before after : List String} {name : String}
      (known : atom.Known sig) (place : atom.names = before ++ name :: after)
      (found : ∀ other ∈ before, other ∈ declared) (missing : name ∉ declared) :
      Unresolved sig declared atom (.unknownVariableName name)

end NamedAtom

namespace Clause

/-- The name and the sort that a clause declares. -/
def declaration? : Clause → Option (String × String)
  | .declare name sort => some (name, sort)
  | _ => none

def premise? : Clause → Option NamedAtom
  | .premise atom => some atom
  | _ => none

def conclusion? : Clause → Option NamedAtom
  | .conclude atom => some atom
  | _ => none

/-- The names of the variables that some clauses declare. -/
def declared (clauses : List Clause) : List String :=
  (clauses.filterMap declaration?).map Prod.fst

/-- Every name of a clause can be resolved, given the variables declared before. -/
def Resolves (sig : Signature) (declared : List String) : Clause → Prop
  | .declare name sort => name ∉ declared ∧ sort ∈ sig.sorts
  | .premise atom => atom.Known sig ∧ ∀ name ∈ atom.names, name ∈ declared
  | .conclude atom => atom.Known sig ∧ ∀ name ∈ atom.names, name ∈ declared

/-- Why a clause cannot be resolved. That the name of a variable is taken comes before an unknown
sort. -/
inductive Unresolved (sig : Signature) (declared : List String) : Clause → Fault → Prop
  | repeated {name sort : String} (taken : name ∈ declared) :
      Unresolved sig declared (.declare name sort) (.duplicateVariable name)
  | undeclared {name sort : String} (free : name ∉ declared) (unknown : sort ∉ sig.sorts) :
      Unresolved sig declared (.declare name sort) (.unknownSortName sort)
  | premise {atom : NamedAtom} {fault : Fault} (wrong : atom.Unresolved sig declared fault) :
      Unresolved sig declared (.premise atom) fault
  | conclude {atom : NamedAtom} {fault : Fault} (wrong : atom.Unresolved sig declared fault) :
      Unresolved sig declared (.conclude atom) fault

/-- Every clause can be resolved with what the clauses before it declare. -/
def Resolvable (sig : Signature) (clauses : List Clause) : Prop :=
  ∀ before clause after, clauses = before ++ clause :: after →
    clause.Resolves sig (declared before)

/-- Some clause cannot be resolved, and the ones before it can. -/
def FirstUnresolved (sig : Signature) (clauses : List Clause) (fault : Fault) : Prop :=
  ∃ before clause after, clauses = before ++ clause :: after ∧ Resolvable sig before ∧
    clause.Unresolved sig (declared before) fault

end Clause

namespace Sequent

/-- The variable at a position goes by a name. -/
def Names (vars : List Variable) (name : String) (var : Nat) : Prop :=
  ∃ v, vars[var]? = some v ∧ v.name = name

/-- An atom is one with names, each name replaced by its position. -/
inductive Renders (sig : Signature) (vars : List Variable) : NamedAtom → Atom → Prop
  | op {name result : String} {args : List String} {op x : Nat} {xs : List Nat}
      (symbol : sig.operationIndex? name = some op) (inputs : List.Forall₂ (Names vars) args xs)
      (output : Names vars result x) : Renders sig vars (.op name args result) (.op op xs x)
  | pred {name : String} {args : List String} {pred : Nat} {xs : List Nat}
      (symbol : sig.predicateIndex? name = some pred) (inputs : List.Forall₂ (Names vars) args xs) :
      Renders sig vars (.pred name args) (.pred pred xs)
  | eq {lhs rhs : String} {x y : Nat} (left : Names vars lhs x) (right : Names vars rhs y) :
      Renders sig vars (.eq lhs rhs) (.eq x y)

/-- A sequent consists of what clauses say, in their order, with each name replaced by its
position. -/
structure Translates (sig : Signature) (name : String) (clauses : List Clause) (seq : Sequent) :
    Prop where
  name : seq.name = name
  vars : List.Forall₂ (fun (d : String × String) v => v.name = d.1 ∧
    sig.sortIndex? d.2 = some v.sort) (clauses.filterMap Clause.declaration?) seq.vars
  premises : List.Forall₂ (Renders sig seq.vars) (clauses.filterMap Clause.premise?) seq.premises
  conclusions : List.Forall₂ (Renders sig seq.vars) (clauses.filterMap Clause.conclusion?)
    seq.conclusions

end Sequent

section Lookup

variable {α : Type} {key : α → String} {name : String} {xs : List α}

theorem findIdx?_key_eq_none : xs.findIdx? (key · == name) = none ↔ name ∉ xs.map key := by
  simp [List.findIdx?_eq_none_iff]

theorem findIdx?_key_eq_some {i : Nat} (h : xs.findIdx? (key · == name) = some i) :
    ∃ x, xs[i]? = some x ∧ key x = name := by
  obtain ⟨hlt, hkey, _⟩ := List.findIdx?_eq_some_iff_getElem.mp h
  exact ⟨xs[i], List.getElem?_eq_getElem hlt, beq_iff_eq.mp hkey⟩

theorem exists_findIdx?_key (h : name ∈ xs.map key) : ∃ i, xs.findIdx? (key · == name) = some i := by
  cases hfind : xs.findIdx? (key · == name) with
  | some i => exact ⟨i, rfl⟩
  | none => exact absurd h (findIdx?_key_eq_none.mp hfind)

end Lookup

namespace Sequent

section Atoms

variable {seq : Sequent} {sig : Signature} {name : String}

theorem resolveVar_declared (h : name ∈ seq.vars.map Variable.name) :
    ∃ var, seq.resolveVar name = .ok var ∧ Names seq.vars name var := by
  obtain ⟨var, hvar⟩ := exists_findIdx?_key h
  rw [resolveVar, hvar]
  exact ⟨var, rfl, findIdx?_key_eq_some hvar⟩

theorem resolveVar_missing (h : name ∉ seq.vars.map Variable.name) :
    seq.resolveVar name = .error (.unknownVariableName name) := by
  rw [resolveVar, findIdx?_key_eq_none.mpr h]

theorem resolveVars_declared {names : List String}
    (h : ∀ name ∈ names, name ∈ seq.vars.map Variable.name) :
    ∃ vars, names.mapM seq.resolveVar = .ok vars ∧ List.Forall₂ (Names seq.vars) names vars := by
  obtain ⟨vars, hvars⟩ := forall₂_exists fun name hname => resolveVar_declared (h name hname)
  exact ⟨vars, mapM_eq_ok_iff.mpr (hvars.imp fun _ _ h => h.1), hvars.imp fun _ _ h => h.2⟩

theorem resolveVars_missing {before after : List String}
    (found : ∀ other ∈ before, other ∈ seq.vars.map Variable.name)
    (missing : name ∉ seq.vars.map Variable.name) :
    (before ++ name :: after).mapM seq.resolveVar = .error (.unknownVariableName name) := by
  refine mapM_eq_error_of_split (fun other ho => ?_) (resolveVar_missing missing)
  obtain ⟨var, hvar, _⟩ := resolveVar_declared (found other ho)
  exact ⟨var, hvar⟩

theorem resolveAtom_known {atom : NamedAtom} (known : atom.Known sig)
    (found : ∀ name ∈ atom.names, name ∈ seq.vars.map Variable.name) :
    ∃ out, seq.resolveAtom sig atom = .ok out ∧ Renders sig seq.vars atom out := by
  cases atom with
  | op name args result =>
    obtain ⟨op, hop⟩ : ∃ op, sig.operationIndex? name = some op := exists_findIdx?_key known
    obtain ⟨xs, hxs, hnames⟩ := resolveVars_declared fun name hname =>
      found name (List.mem_append_left [result] hname)
    obtain ⟨x, hx, hname⟩ := resolveVar_declared (found result (by simp [NamedAtom.names]))
    refine ⟨.op op xs x, ?_, .op hop hnames hname⟩
    simp only [resolveAtom, hop]
    exact except_bind_eq_ok.mpr ⟨xs, hxs, except_bind_eq_ok.mpr ⟨x, hx, rfl⟩⟩
  | pred name args =>
    obtain ⟨pred, hpred⟩ : ∃ pred, sig.predicateIndex? name = some pred := exists_findIdx?_key known
    obtain ⟨xs, hxs, hnames⟩ := resolveVars_declared found
    refine ⟨.pred pred xs, ?_, .pred hpred hnames⟩
    simp only [resolveAtom, hpred]
    exact except_bind_eq_ok.mpr ⟨xs, hxs, rfl⟩
  | eq lhs rhs =>
    obtain ⟨x, hx, hl⟩ := resolveVar_declared (found lhs (by simp [NamedAtom.names]))
    obtain ⟨y, hy, hr⟩ := resolveVar_declared (found rhs (by simp [NamedAtom.names]))
    refine ⟨.eq x y, ?_, .eq hl hr⟩
    exact except_bind_eq_ok.mpr ⟨x, hx, except_bind_eq_ok.mpr ⟨y, hy, rfl⟩⟩

/-- An atom with a known symbol is resolved name by name. -/
theorem resolveAtom_error_iff {atom : NamedAtom} (known : atom.Known sig) {fault : Fault} :
    seq.resolveAtom sig atom = .error fault ↔ atom.names.mapM seq.resolveVar = .error fault := by
  cases atom with
  | op symbol args result =>
    obtain ⟨op, hop⟩ : ∃ op, sig.operationIndex? symbol = some op := exists_findIdx?_key known
    simp [resolveAtom, hop, NamedAtom.names, except_bind_eq_error, except_map_eq_error]
  | pred symbol args =>
    obtain ⟨pred, hpred⟩ : ∃ pred, sig.predicateIndex? symbol = some pred :=
      exists_findIdx?_key known
    simp [resolveAtom, hpred, NamedAtom.names, except_map_eq_error]
  | eq lhs rhs =>
    simp [resolveAtom, NamedAtom.names, except_bind_eq_error, except_map_eq_error]

theorem resolveAtom_unresolved {atom : NamedAtom} {fault : Fault}
    (h : atom.Unresolved sig (seq.vars.map Variable.name) fault) :
    seq.resolveAtom sig atom = .error fault := by
  cases h with
  | operation unknown =>
    rw [resolveAtom, Signature.operationIndex?, findIdx?_key_eq_none.mpr unknown]
  | predicate unknown =>
    rw [resolveAtom, Signature.predicateIndex?, findIdx?_key_eq_none.mpr unknown]
  | undeclared known place found missing =>
    rw [resolveAtom_error_iff known, place]
    exact resolveVars_missing found missing

end Atoms

section Names

variable {sig : Signature} {vars : List Variable} {name : String}

theorem Names.append {var : Nat} (h : Names vars name var) (more : List Variable) :
    Names (vars ++ more) name var := by
  obtain ⟨v, hv, hname⟩ := h
  exact ⟨v, (List.getElem?_append_left (List.getElem?_eq_some_iff.mp hv).1).trans hv, hname⟩

/-- More variables do not change what an atom with names stands for. -/
theorem Renders.append {named : NamedAtom} {atom : Atom} (h : Renders sig vars named atom)
    (more : List Variable) : Renders sig (vars ++ more) named atom := by
  have hnames : ∀ name var, Names vars name var → Names (vars ++ more) name var :=
    fun _ _ hname => hname.append more
  cases h with
  | op symbol inputs output => exact .op symbol (inputs.imp hnames) (hnames _ _ output)
  | pred symbol inputs => exact .pred symbol (inputs.imp hnames)
  | eq left right => exact .eq (hnames _ _ left) (hnames _ _ right)

/-- Where every variable has its own name, a name stands for one position only. -/
theorem Names.unique (distinct : (vars.map Variable.name).Nodup) {i j : Nat}
    (h : Names vars name i) (h' : Names vars name j) : i = j := by
  obtain ⟨v, hv, hname⟩ := h
  obtain ⟨w, hw, hname'⟩ := h'
  have hi : (vars.map Variable.name)[i]? = some name := by
    rw [List.getElem?_map, hv, Option.map_some, hname]
  have hj : (vars.map Variable.name)[j]? = some name := by
    rw [List.getElem?_map, hw, Option.map_some, hname']
  exact (List.getElem?_inj (List.getElem?_eq_some_iff.mp hi).1 distinct).mp (hi.trans hj.symm)

theorem Renders.unique (distinct : (vars.map Variable.name).Nodup) {named : NamedAtom}
    {atom other : Atom} (h : Renders sig vars named atom) (h' : Renders sig vars named other) :
    atom = other := by
  have hnames : ∀ name i j, Names vars name i → Names vars name j → i = j :=
    fun _ _ _ => Names.unique distinct
  cases h with
  | op symbol inputs output =>
    cases h' with
    | op symbol' inputs' output' =>
      cases Option.some.inj (symbol.symm.trans symbol')
      rw [forall₂_unique hnames inputs inputs', hnames _ _ _ output output']
  | pred symbol inputs =>
    cases h' with
    | pred symbol' inputs' =>
      cases Option.some.inj (symbol.symm.trans symbol')
      rw [forall₂_unique hnames inputs inputs']
  | eq left right =>
    cases h' with
    | eq left' right' => rw [hnames _ _ _ left left', hnames _ _ _ right right']

end Names

section Clauses

variable {sig : Signature} {name : String} {clauses : List Clause} {seq : Sequent}

theorem Translates.declared (h : Translates sig name clauses seq) :
    seq.vars.map Variable.name = Clause.declared clauses := by
  rw [Clause.declared, ← List.forall₂_eq_eq_eq, List.forall₂_map_left_iff, List.forall₂_map_right_iff]
  exact forall₂_swap (fun _ _ hv => hv.1) h.vars

/-- Clauses have one translation at most, if they declare no name twice. -/
theorem Translates.unique {seq' : Sequent} (distinct : (Clause.declared clauses).Nodup)
    (h : Translates sig name clauses seq) (h' : Translates sig name clauses seq') : seq = seq' := by
  have hdistinct : (seq.vars.map Variable.name).Nodup := h.declared ▸ distinct
  have hname := h.name.trans h'.name.symm
  have hvars : seq.vars = seq'.vars := by
    refine forall₂_unique (fun d v w hv hw => ?_) h.vars h'.vars
    cases v with
    | mk name sort =>
      rw [Variable.mk.injEq]
      exact ⟨hv.1.trans hw.1.symm, Option.some.inj (hv.2.symm.trans hw.2)⟩
  have hatoms : ∀ named atom other, Renders sig seq.vars named atom →
      Renders sig seq.vars named other → atom = other := fun _ _ _ => Renders.unique hdistinct
  have hpremises := forall₂_unique hatoms h.premises (hvars ▸ h'.premises)
  have hconclusions := forall₂_unique hatoms h.conclusions (hvars ▸ h'.conclusions)
  cases seq with
  | mk name vars premises conclusions =>
    rw [Sequent.mk.injEq]
    exact ⟨hname, hvars, hpremises, hconclusions⟩

/-- A clause that can be resolved adds its translation. -/
theorem addClause_resolves {clause : Clause} (h : Translates sig name clauses seq)
    (resolves : clause.Resolves sig (Clause.declared clauses)) :
    ∃ larger, seq.addClause sig clause = .ok larger ∧
      Translates sig name (clauses ++ [clause]) larger := by
  rw [← h.declared] at resolves
  cases clause with
  | declare var sort =>
    obtain ⟨free, known⟩ := resolves
    obtain ⟨index, hindex⟩ : ∃ index, sig.sortIndex? sort = some index :=
      @exists_findIdx?_key _ id _ _ (by rwa [List.map_id])
    have hnone : ¬seq.vars.any (·.name == var) := by
      simpa using free
    refine ⟨{ seq with vars := seq.vars ++ [⟨var, index⟩] }, ?_, h.name, ?_, ?_, ?_⟩
    · rw [addClause, declareVar, if_neg hnone, hindex]
    · rw [List.filterMap_append]
      exact List.rel_append h.vars (.cons ⟨rfl, hindex⟩ .nil)
    · rw [List.filterMap_append]
      exact List.append_nil _ ▸ h.premises.imp fun _ _ renders => renders.append _
    · rw [List.filterMap_append]
      exact List.append_nil _ ▸ h.conclusions.imp fun _ _ renders => renders.append _
  | premise atom =>
    obtain ⟨known, found⟩ := resolves
    obtain ⟨out, hout, renders⟩ := resolveAtom_known known found
    refine ⟨_, except_bind_eq_ok.mpr ⟨out, hout, rfl⟩, h.name, ?_, ?_, ?_⟩
    · rw [List.filterMap_append]
      exact List.append_nil _ ▸ h.vars
    · rw [List.filterMap_append]
      exact List.rel_append h.premises (.cons renders .nil)
    · rw [List.filterMap_append]
      exact List.append_nil _ ▸ h.conclusions
  | conclude atom =>
    obtain ⟨known, found⟩ := resolves
    obtain ⟨out, hout, renders⟩ := resolveAtom_known known found
    refine ⟨_, except_bind_eq_ok.mpr ⟨out, hout, rfl⟩, h.name, ?_, ?_, ?_⟩
    · rw [List.filterMap_append]
      exact List.append_nil _ ▸ h.vars
    · rw [List.filterMap_append]
      exact List.append_nil _ ▸ h.premises
    · rw [List.filterMap_append]
      exact List.rel_append h.conclusions (.cons renders .nil)

theorem addClause_unresolved {clause : Clause} {fault : Fault}
    (h : clause.Unresolved sig (seq.vars.map Variable.name) fault) :
    seq.addClause sig clause = .error fault := by
  cases h with
  | repeated taken =>
    rw [addClause, declareVar, if_pos (by simpa using taken)]
  | undeclared free unknown =>
    have hsort : sig.sortIndex? _ = none :=
      (@findIdx?_key_eq_none _ id _ _).mpr (by rwa [List.map_id])
    rw [addClause, declareVar, if_neg (by simpa using free), hsort]
  | premise wrong => exact except_bind_eq_error.mpr (Or.inl (resolveAtom_unresolved wrong))
  | conclude wrong => exact except_bind_eq_error.mpr (Or.inl (resolveAtom_unresolved wrong))

theorem addClause_name {clause : Clause} {larger : Sequent} (h : seq.addClause sig clause = .ok larger) :
    larger.name = seq.name := by
  cases clause with
  | declare var sort =>
    rw [addClause, declareVar] at h
    split at h
    next => exact nomatch h
    next =>
      split at h
      next => exact nomatch h
      next =>
        cases Except.ok.inj h
        rfl
  | premise atom =>
    obtain ⟨out, _, h⟩ := except_bind_eq_ok.mp h
    cases Except.ok.inj h
    rfl
  | conclude atom =>
    obtain ⟨out, _, h⟩ := except_bind_eq_ok.mp h
    cases Except.ok.inj h
    rfl

end Clauses

end Sequent

theorem NamedAtom.resolves_or_unresolved (sig : Signature) (declared : List String)
    (atom : NamedAtom) : (atom.Known sig ∧ ∀ name ∈ atom.names, name ∈ declared) ∨
      ∃ fault, atom.Unresolved sig declared fault := by
  have known_or : atom.Known sig ∨ ∃ fault, atom.Unresolved sig declared fault := by
    cases atom with
    | op name args result =>
      by_cases known : name ∈ sig.operations.map Operation.name
      · exact Or.inl known
      · exact Or.inr ⟨_, .operation known⟩
    | pred name args =>
      by_cases known : name ∈ sig.predicates.map Predicate.name
      · exact Or.inl known
      · exact Or.inr ⟨_, .predicate known⟩
    | eq lhs rhs => exact Or.inl trivial
  rcases known_or with known | unresolved
  · rcases all_or_first (· ∈ declared) atom.names with found | ⟨before, name, after, place, found, missing⟩
    · exact Or.inl ⟨known, found⟩
    · exact Or.inr ⟨_, .undeclared known place found missing⟩
  · exact Or.inr unresolved

namespace Clause

variable {sig : Signature} {clauses : List Clause}

theorem resolves_or_unresolved (sig : Signature) (declared : List String) (clause : Clause) :
    clause.Resolves sig declared ∨ ∃ fault, clause.Unresolved sig declared fault := by
  cases clause with
  | declare name sort =>
    by_cases taken : name ∈ declared
    · exact Or.inr ⟨_, .repeated taken⟩
    · by_cases known : sort ∈ sig.sorts
      · exact Or.inl ⟨taken, known⟩
      · exact Or.inr ⟨_, .undeclared taken known⟩
  | premise atom =>
    refine (atom.resolves_or_unresolved sig declared).imp id fun ⟨fault, wrong⟩ => ?_
    exact ⟨fault, .premise wrong⟩
  | conclude atom =>
    refine (atom.resolves_or_unresolved sig declared).imp id fun ⟨fault, wrong⟩ => ?_
    exact ⟨fault, .conclude wrong⟩

theorem resolvable_snoc {clause : Clause} : Resolvable sig (clauses ++ [clause]) ↔
    Resolvable sig clauses ∧ clause.Resolves sig (declared clauses) := by
  constructor
  · intro h
    refine ⟨fun before other after place => ?_, h clauses clause [] rfl⟩
    exact h before other (after ++ [clause]) (by rw [place, List.append_assoc, List.cons_append])
  · rintro ⟨h, hlast⟩ before other after place
    rcases List.eq_nil_or_concat after with rfl | ⟨after, last, rfl⟩
    · obtain ⟨rfl, he⟩ := List.append_inj' place rfl
      cases he
      exact hlast
    · rw [List.concat_eq_append, ← List.cons_append, ← List.append_assoc] at place
      exact h before other after (List.append_inj' place rfl).1

/-- Either all clauses can be resolved or there is a first one that cannot. -/
theorem resolvable_or_first (sig : Signature) (clauses : List Clause) :
    Resolvable sig clauses ∨ ∃ fault, FirstUnresolved sig clauses fault := by
  induction clauses using List.reverseRecOn with
  | nil => exact Or.inl fun before clause after place => by simp at place
  | append_singleton clauses clause ih =>
    rcases ih with resolvable | ⟨fault, before, other, after, rfl, resolvable, wrong⟩
    · rcases resolves_or_unresolved sig (declared clauses) clause with resolves | ⟨fault, wrong⟩
      · exact Or.inl (resolvable_snoc.mpr ⟨resolvable, resolves⟩)
      · exact Or.inr ⟨fault, clauses, clause, [], rfl, resolvable, wrong⟩
    · refine Or.inr ⟨fault, before, other, after ++ [clause], ?_, resolvable, wrong⟩
      rw [List.append_assoc, List.cons_append]

theorem Resolvable.distinct (h : Resolvable sig clauses) : (declared clauses).Nodup := by
  induction clauses using List.reverseRecOn with
  | nil => exact List.nodup_nil
  | append_singleton clauses clause ih =>
    obtain ⟨hfront, hlast⟩ := resolvable_snoc.mp h
    rw [declared, List.filterMap_append, List.map_append]
    cases clause with
    | declare name sort =>
      refine (ih hfront).append (List.nodup_singleton name) fun other ho hname => ?_
      obtain rfl := List.mem_singleton.mp hname
      exact hlast.1 ho
    | premise atom => exact (List.append_nil _).symm ▸ ih hfront
    | conclude atom => exact (List.append_nil _).symm ▸ ih hfront

end Clause

namespace Builder

open Sequent Clause

variable {sig : Signature} {clauses : List Clause}

theorem adds_name (builder : Builder) :
    (clauses.foldl (Builder.add sig) builder).sequent.name = builder.sequent.name := by
  induction clauses generalizing builder with
  | nil => rfl
  | cons clause clauses ih =>
    rw [List.foldl_cons, ih, Builder.add]
    split
    next larger h => exact addClause_name h
    next => rfl

/-- A fault stays, whatever happens to later clauses. -/
theorem adds_fault {builder : Builder} {fault : Fault} (h : builder.fault = some fault) :
    (clauses.foldl (Builder.add sig) builder).fault = some fault := by
  induction clauses generalizing builder with
  | nil => exact h
  | cons clause clauses ih =>
    refine ih ?_
    rw [Builder.add]
    split
    next => exact h
    next =>
      rw [Builder.fail, h]
      rfl

/-- As long as all clauses can be resolved there is no fault, and none of them is missing. -/
theorem adds_resolvable (name : String) (h : Resolvable sig clauses) :
    ∃ seq, clauses.foldl (Builder.add sig) { sequent := { name } } = { sequent := seq } ∧
      Translates sig name clauses seq := by
  induction clauses using List.reverseRecOn with
  | nil => exact ⟨_, rfl, rfl, .nil, .nil, .nil⟩
  | append_singleton clauses clause ih =>
    obtain ⟨hfront, hlast⟩ := resolvable_snoc.mp h
    obtain ⟨seq, hseq, translates⟩ := ih hfront
    obtain ⟨larger, hlarger, translates'⟩ := addClause_resolves translates hlast
    refine ⟨larger, ?_, translates'⟩
    rw [List.foldl_append, hseq, List.foldl_cons, List.foldl_nil, Builder.add, hlarger]

/-- The fault of the first clause that cannot be resolved is the one that is kept. -/
theorem adds_unresolved (name : String) {fault : Fault} (h : FirstUnresolved sig clauses fault) :
    (clauses.foldl (Builder.add sig) { sequent := { name } }).fault = some fault := by
  obtain ⟨before, clause, after, rfl, resolvable, wrong⟩ := h
  obtain ⟨seq, hseq, translates⟩ := adds_resolvable name resolvable
  have hadd := addClause_unresolved (translates.declared.symm ▸ wrong)
  rw [List.foldl_append, hseq, List.foldl_cons]
  refine adds_fault ?_
  rw [Builder.add, hadd]
  rfl

end Builder

namespace Sequent

open Clause

variable {sig : Signature} {clauses : List Clause}

theorem ofClauses_resolvable (name : String) (h : Resolvable sig clauses) :
    ∃ seq, Translates sig name clauses seq ∧
    ofClauses sig name clauses = do
      let _ ← Rule.ofSequent sig 0 seq
      return seq := by
  obtain ⟨seq, hseq, translates⟩ := Builder.adds_resolvable name h
  exact ⟨seq, translates, by rw [ofClauses, hseq, Builder.build]⟩

theorem ofClauses_unresolved (name : String) {fault : Fault} (h : FirstUnresolved sig clauses fault) :
    ofClauses sig name clauses = .error ⟨name, fault⟩ := by
  rw [ofClauses, Builder.build, Builder.adds_unresolved name h, Builder.adds_name]

/-- The outcome is a sequent just if every name can be resolved and the sequent that the clauses
describe is well-formed; then it is that sequent. -/
theorem ofClauses_ok_iff {name : String} {seq : Sequent} : ofClauses sig name clauses = .ok seq ↔
    Resolvable sig clauses ∧ Translates sig name clauses seq ∧ seq.WellFormed sig := by
  constructor
  · intro h
    rcases resolvable_or_first sig clauses with resolvable | ⟨fault, first⟩
    · obtain ⟨seq', translates, hbuild⟩ := ofClauses_resolvable name resolvable
      obtain ⟨rule, hrule, hseq⟩ := except_bind_eq_ok.mp (hbuild.symm.trans h)
      cases Except.ok.inj hseq
      exact ⟨resolvable, translates, Rule.ofSequent_ok_iff.mp ⟨rule, hrule⟩⟩
    · exact nomatch h.symm.trans (ofClauses_unresolved _ first)
  · rintro ⟨resolvable, translates, wellFormed⟩
    obtain ⟨seq', translates', hbuild⟩ := ofClauses_resolvable name resolvable
    obtain rfl := translates.unique resolvable.distinct translates'
    obtain ⟨rule, hrule⟩ := Rule.ofSequent_wellFormed wellFormed 0
    rw [hbuild, hrule]
    rfl

/-- The first clause that cannot be resolved is to blame, or else the first fault of the sequent. -/
theorem ofClauses_error_iff {name : String} {e : SequentError} :
    ofClauses sig name clauses = .error e ↔ e.sequent = name ∧ (FirstUnresolved sig clauses e.fault ∨
      ∃ seq, Resolvable sig clauses ∧ Translates sig name clauses seq ∧ seq.FirstFault sig e.fault) := by
  constructor
  · intro h
    rcases resolvable_or_first sig clauses with resolvable | ⟨fault, first⟩
    · obtain ⟨seq, translates, hbuild⟩ := ofClauses_resolvable name resolvable
      rcases except_bind_eq_error.mp (hbuild.symm.trans h) with hrule | ⟨_, _, hseq⟩
      · obtain ⟨hname, faulty⟩ := Rule.ofSequent_error_iff.mp hrule
        exact ⟨hname.trans translates.name, Or.inr ⟨seq, resolvable, translates, faulty⟩⟩
      · exact nomatch hseq
    · cases Except.error.inj (h.symm.trans (ofClauses_unresolved _ first))
      exact ⟨rfl, Or.inl first⟩
  · obtain ⟨_, fault⟩ := e
    rintro ⟨rfl, first | ⟨seq, resolvable, translates, faulty⟩⟩
    · exact ofClauses_unresolved _ first
    · obtain ⟨seq', translates', hbuild⟩ := ofClauses_resolvable _ resolvable
      obtain rfl := translates.unique resolvable.distinct translates'
      rw [hbuild, Rule.ofSequent_faulty faulty, translates.name]
      rfl

end Sequent

/-- Building from clauses neither drops nor misresolves anything. The outcome is a sequent just if
every name can be resolved with what the clauses before declare and the sequent that the clauses
describe, in their order and with each name replaced by its position, is well-formed; then it is that
sequent, and it becomes a rule at every index. Otherwise the first clause that cannot be resolved is
to blame, or else what is wrong with the sequent. -/
theorem clauses_build_exact (sig : Signature) (name : String) (clauses : List Clause) :
    (∀ seq, Sequent.ofClauses sig name clauses = .ok seq ↔
      Clause.Resolvable sig clauses ∧ Sequent.Translates sig name clauses seq ∧ seq.WellFormed sig) ∧
    (∀ e, Sequent.ofClauses sig name clauses = .error e ↔
      e.sequent = name ∧ (Clause.FirstUnresolved sig clauses e.fault ∨
        ∃ seq, Clause.Resolvable sig clauses ∧ Sequent.Translates sig name clauses seq ∧
          seq.FirstFault sig e.fault)) ∧
    ∀ seq : Sequent, seq.WellFormed sig ↔
      ∀ index, ∃ rule, Rule.ofSequent sig index seq = .ok rule := by
  refine ⟨fun _ => Sequent.ofClauses_ok_iff, fun _ => Sequent.ofClauses_error_iff, fun seq => ?_⟩
  exact ⟨Rule.ofSequent_wellFormed, fun accepted => Rule.ofSequent_ok_iff.mp (accepted 0)⟩

/-- The first clause declares no variable, since there is no such sort, and then the second one fails as
well. It is the first fault that is reported. -/
example : Sequent.ofClauses { sorts := ["S"] } "late"
    [.declare "x" "T", .premise (.eq "x" "x"), .declare "x" "S"] =
      .error ⟨"late", .unknownSortName "T"⟩ :=
  rfl

end PartialHorn
