import PartialHorn.Proofs.Declarations
import PartialHorn.Proofs.Edits
import PartialHorn.Proofs.NameResolution

namespace PartialHorn

/-- What can be read off one of the namespaces of a signature. -/
structure NamespaceView (α : Type) where
  index? : String → Option Nat
  item? : Nat → Option α
  size : Nat

/-- What can be read off a signature. -/
structure SignatureView where
  sorts : NamespaceView String
  operations : NamespaceView Operation
  predicates : NamespaceView Predicate

namespace Declaration

def sort? : Declaration → Option String
  | sort name => some name
  | _ => none

def operation? : Declaration → Option Operation
  | .operation symbol => some symbol
  | _ => none

def predicate? : Declaration → Option Predicate
  | .predicate symbol => some symbol
  | _ => none

/-- The error of a rejected declaration. -/
def refusal? : Except DeclarationError Nat → Option DeclarationError
  | .ok _ => none
  | .error e => some e

section Accepted

variable {α : Type} (symbol? : Declaration → Option α)

/-- The symbol that an accepted declaration has brought to a namespace, with its id. -/
def item? (d : Declaration) : Except DeclarationError Nat → Option (α × Nat)
  | .ok id => (symbol? d).map fun x => (x, id)
  | .error _ => none

/-- The symbols that declarations have brought to a namespace, with the ids they were given. -/
def accepted (ds : List Declaration) (answers : List (Except DeclarationError Nat)) :
    List (α × Nat) :=
  (List.zipWith (item? symbol?) ds answers).filterMap id

variable {symbol?}

theorem accepted_snoc {ds : List Declaration} {answers : List (Except DeclarationError Nat)}
    (hlength : ds.length = answers.length) (d : Declaration) (answer : Except DeclarationError Nat) :
    accepted symbol? (ds ++ [d]) (answers ++ [answer]) =
      accepted symbol? ds answers ++ (item? symbol? d answer).toList := by
  unfold accepted
  rw [List.zipWith_append hlength, List.filterMap_append]
  cases hentry : item? symbol? d answer with
  | none => simp [hentry]
  | some entry => simp [hentry]

end Accepted

end Declaration

section NamespaceView

variable {α : Type}

/-- Some entry of a namespace has a name. -/
def NamespaceView.Has (view : NamespaceView α) (key : α → String) (name : String) : Prop :=
  ∃ i x, view.item? i = some x ∧ key x = name

/-- The entries of a namespace are numbered in the order in which they were accepted, and a name
leads to the entry that has it. -/
structure NamespaceView.Numbers (view : NamespaceView α) (key : α → String)
    (accepted : List (α × Nat)) : Prop where
  ids : accepted.map Prod.snd = List.range view.size
  entries : ∀ i x, view.item? i = some x ↔ (x, i) ∈ accepted
  index? : ∀ name i, view.index? name = some i ↔ ∃ x, view.item? i = some x ∧ key x = name

/-- A name that leads somewhere still leads there. -/
def NamespaceView.KeptBy (view later : NamespaceView α) : Prop :=
  ∀ name i, view.index? name = some i → later.index? name = some i

/-- The namespace of some entries in their order. -/
def NamespaceView.ofList (key : α → String) (xs : List α) : NamespaceView α where
  index? name := xs.findIdx? (key · == name)
  item? i := xs[i]?
  size := xs.length

end NamespaceView

namespace SignatureView

/-- The first of some sorts that a signature does not have. -/
def FirstUndeclared (view : SignatureView) (sorts : List Nat) (sort : Nat) : Prop :=
  ∃ before after, sorts = before ++ sort :: after ∧ (∀ s ∈ before, s < view.sorts.size) ∧
    view.sorts.size ≤ sort

/-- Why a declaration is rejected. That the name is taken comes before an undeclared sort. -/
inductive Refuses (view : SignatureView) : Declaration → DeclarationError → Prop
  | sort {name : String} (taken : view.sorts.Has id name) :
      Refuses view (.sort name) (.duplicateSort name)
  | operation {operation : Operation} (taken : view.operations.Has Operation.name operation.name) :
      Refuses view (.operation operation) (.duplicateOperation operation.name)
  | predicate {predicate : Predicate} (taken : view.predicates.Has Predicate.name predicate.name) :
      Refuses view (.predicate predicate) (.duplicatePredicate predicate.name)
  | operationSort {operation : Operation} {sort : Nat}
      (free : ¬view.operations.Has Operation.name operation.name)
      (undeclared : view.FirstUndeclared (operation.domain ++ [operation.codomain]) sort) :
      Refuses view (.operation operation) (.unknownSort operation.name sort)
  | predicateSort {predicate : Predicate} {sort : Nat}
      (free : ¬view.predicates.Has Predicate.name predicate.name)
      (undeclared : view.FirstUndeclared predicate.domain sort) :
      Refuses view (.predicate predicate) (.unknownSort predicate.name sort)

/-- The sorts of every symbol are there. -/
structure Closed (view : SignatureView) : Prop where
  operations : ∀ i operation, view.operations.item? i = some operation →
    ∀ sort ∈ operation.domain ++ [operation.codomain], sort < view.sorts.size
  predicates : ∀ i predicate, view.predicates.item? i = some predicate →
    ∀ sort ∈ predicate.domain, sort < view.sorts.size

end SignatureView

/-- What a signature owes to the declarations it was made from, including the rejected ones. -/
structure KeepsNames (answers : List Declaration → List (Except DeclarationError Nat))
    (view : List Declaration → SignatureView) (ds : List Declaration) : Prop where
  sorts : (view ds).sorts.Numbers id (Declaration.accepted Declaration.sort? ds (answers ds))
  operations : (view ds).operations.Numbers Operation.name
    (Declaration.accepted Declaration.operation? ds (answers ds))
  predicates : (view ds).predicates.Numbers Predicate.name
    (Declaration.accepted Declaration.predicate? ds (answers ds))
  closed : (view ds).Closed
  kept : ∀ first, first <+: ds → (view first).sorts.KeptBy (view ds).sorts ∧
    (view first).operations.KeptBy (view ds).operations ∧
    (view first).predicates.KeptBy (view ds).predicates
  refuses : ∀ d e, (answers (ds ++ [d])).getLast? = some (.error e) ↔ (view ds).Refuses d e
  unchanged : ∀ d e, (view ds).Refuses d e → view (ds ++ [d]) = view ds

section Numbered

variable {α : Type} {key : α → String} {xs : List α} {accepted : List (α × Nat)}

/-- Entries with distinct names were accepted in their order, under their places. -/
structure Numbered (key : α → String) (xs : List α) (accepted : List (α × Nat)) : Prop where
  accepted : accepted = xs.zipIdx
  distinct : (xs.map key).Nodup

theorem findIdx?_key_eq_some_iff (distinct : (xs.map key).Nodup) {name : String} {i : Nat} :
    xs.findIdx? (key · == name) = some i ↔ ∃ x, xs[i]? = some x ∧ key x = name := by
  constructor
  · exact findIdx?_key_eq_some
  · rintro ⟨x, hx, rfl⟩
    obtain ⟨j, hj⟩ := exists_findIdx?_key (List.mem_map_of_mem (List.mem_of_getElem? hx))
    obtain ⟨y, hy, hkey⟩ := findIdx?_key_eq_some hj
    have hsame : (xs.map key)[j]? = (xs.map key)[i]? := by
      rw [List.getElem?_map, List.getElem?_map, hx, hy]
      exact congrArg some hkey
    obtain ⟨hlt, _⟩ := List.getElem?_eq_some_iff.mp hy
    have hbound : j < (xs.map key).length := by rwa [List.length_map]
    rw [hj, (List.getElem?_inj hbound distinct).mp hsame]

theorem ofList_has {name : String} :
    (NamespaceView.ofList key xs).Has key name ↔ name ∈ xs.map key := by
  rw [List.mem_map]
  constructor
  · rintro ⟨i, x, hx, hkey⟩
    exact ⟨x, List.mem_of_getElem? hx, hkey⟩
  · rintro ⟨x, hx, hkey⟩
    obtain ⟨i, hi⟩ := List.mem_iff_getElem?.mp hx
    exact ⟨i, x, hi, hkey⟩

theorem Numbered.nil : Numbered key [] [] :=
  ⟨rfl, List.nodup_nil⟩

theorem Numbered.push (h : Numbered key xs accepted) {x : α} (hx : key x ∉ xs.map key) :
    Numbered key (xs ++ [x]) (accepted ++ [(x, xs.length)]) where
  accepted := by
    rw [h.accepted, List.zipIdx_append]
    simp
  distinct := by
    rw [List.map_append, List.map_singleton, ← List.concat_eq_append]
    exact List.Nodup.concat hx h.distinct

section Calls

variable {symbol? : Declaration → Option α} {ds : List Declaration}
  {answers : List (Except DeclarationError Nat)} {d : Declaration}
  {answer : Except DeclarationError Nat} (hlength : ds.length = answers.length)
  (h : Numbered key xs (Declaration.accepted symbol? ds answers))

include hlength h

theorem Numbered.keep (hentry : Declaration.item? symbol? d answer = none) :
    Numbered key xs (Declaration.accepted symbol? (ds ++ [d]) (answers ++ [answer])) := by
  rwa [Declaration.accepted_snoc hlength, hentry, Option.toList_none, List.append_nil]

theorem Numbered.take {x : α} (hentry : Declaration.item? symbol? d answer = some (x, xs.length))
    (hx : key x ∉ xs.map key) : Numbered key (xs ++ [x])
      (Declaration.accepted symbol? (ds ++ [d]) (answers ++ [answer])) := by
  rw [Declaration.accepted_snoc hlength, hentry]
  exact h.push hx

end Calls

theorem Numbered.numbers (h : Numbered key xs accepted) :
    (NamespaceView.ofList key xs).Numbers key accepted where
  ids := by
    rw [h.accepted, List.zipIdx_map_snd, ← List.range_eq_range']
    rfl
  entries i x := by
    rw [h.accepted, List.mem_zipIdx_iff_getElem?]
    rfl
  index? _ _ := findIdx?_key_eq_some_iff h.distinct

theorem keptBy_of_initial {ys : List α} (hpre : xs <+: ys) (distinct : (ys.map key).Nodup) :
    (NamespaceView.ofList key xs).KeptBy (NamespaceView.ofList key ys) := by
  intro name i hi
  obtain ⟨x, hx, hkey⟩ := findIdx?_key_eq_some hi
  obtain ⟨more, rfl⟩ := hpre
  obtain ⟨hlt, _⟩ := List.getElem?_eq_some_iff.mp hx
  have hx' : (xs ++ more)[i]? = some x := by rwa [List.getElem?_append_left hlt]
  exact (findIdx?_key_eq_some_iff distinct).mpr ⟨x, hx', hkey⟩

end Numbered

namespace Signature

/-- Takes up a declaration and answers its position. A rejected one changes nothing. -/
def edit (sig : Signature) (d : Declaration) : Except DeclarationError Nat × Signature :=
  match sig.declare d with
  | .ok (id, larger) => (.ok id, larger)
  | .error e => (.error e, sig)

def view (sig : Signature) : SignatureView where
  sorts := ⟨sig.sortIndex?, fun i => sig.sorts[i]?, sig.sorts.length⟩
  operations := ⟨sig.operationIndex?, fun i => sig.operations[i]?, sig.operations.length⟩
  predicates := ⟨sig.predicateIndex?, fun i => sig.predicates[i]?, sig.predicates.length⟩

/-- A declaration brings a new name and declared sorts. -/
def Admits (sig : Signature) : Declaration → Prop
  | .sort name => name ∉ sig.sorts.map id
  | .operation symbol => symbol.name ∉ sig.operations.map Operation.name ∧
      ∀ sort ∈ symbol.domain ++ [symbol.codomain], sort < sig.sorts.length
  | .predicate symbol => symbol.name ∉ sig.predicates.map Predicate.name ∧
      ∀ sort ∈ symbol.domain, sort < sig.sorts.length

/-- The position that a new symbol gets. -/
def next (sig : Signature) : Declaration → Nat
  | .sort _ => sig.sorts.length
  | .operation _ => sig.operations.length
  | .predicate _ => sig.predicates.length

def extended (sig : Signature) : Declaration → Signature
  | .sort name => { sig with sorts := sig.sorts ++ [name] }
  | .operation symbol => { sig with operations := sig.operations ++ [symbol] }
  | .predicate symbol => { sig with predicates := sig.predicates ++ [symbol] }

variable {sig : Signature} {d : Declaration}

theorem undeclaredSort?_eq_some_iff {sorts : List Nat} {sort : Nat} :
    sig.undeclaredSort? sorts = some sort ↔ sig.view.FirstUndeclared sorts sort := by
  rw [undeclaredSort?, List.find?_eq_some_iff_append]
  constructor
  · rintro ⟨hsort, before, after, rfl, hbefore⟩
    refine ⟨before, after, rfl, fun s hs => ?_, of_decide_eq_true hsort⟩
    have hlt := hbefore s hs
    simp only [Bool.not_eq_true', decide_eq_false_iff_not] at hlt
    exact Nat.lt_of_not_le hlt
  · rintro ⟨before, after, rfl, hbefore, hsort⟩
    refine ⟨decide_eq_true hsort, before, after, rfl, fun s hs => ?_⟩
    simp only [Bool.not_eq_true', decide_eq_false_iff_not]
    exact Nat.not_le_of_lt (hbefore s hs)

theorem index?_of_has {α : Type} {key : α → String} {xs : List α} {name : String}
    (h : (NamespaceView.ofList key xs).Has key name) :
    ∃ i, xs.findIdx? (key · == name) = some i :=
  exists_findIdx?_key (ofList_has.mp h)

theorem index?_of_not_has {α : Type} {key : α → String} {xs : List α} {name : String}
    (h : ¬(NamespaceView.ofList key xs).Has key name) :
    xs.findIdx? (key · == name) = none :=
  findIdx?_key_eq_none.mpr fun hmem => h (ofList_has.mpr hmem)

theorem edit_refused {e : DeclarationError} (h : sig.view.Refuses d e) :
    sig.edit d = (.error e, sig) := by
  cases h with
  | sort taken =>
    obtain ⟨i, hi⟩ : ∃ i, sig.sortIndex? _ = some i := index?_of_has taken
    simp [edit, declare, addSort, hi]
  | operation taken =>
    obtain ⟨i, hi⟩ : ∃ i, sig.operationIndex? _ = some i := index?_of_has taken
    simp [edit, declare, addOperation, hi]
  | predicate taken =>
    obtain ⟨i, hi⟩ : ∃ i, sig.predicateIndex? _ = some i := index?_of_has taken
    simp [edit, declare, addPredicate, hi]
  | operationSort free undeclared =>
    have hfree : sig.operationIndex? _ = none := index?_of_not_has free
    simp [edit, declare, addOperation, hfree, undeclaredSort?_eq_some_iff.mpr undeclared]
  | predicateSort free undeclared =>
    have hfree : sig.predicateIndex? _ = none := index?_of_not_has free
    simp [edit, declare, addPredicate, hfree, undeclaredSort?_eq_some_iff.mpr undeclared]

theorem declare_admitted (h : sig.Admits d) : sig.declare d = .ok (sig.next d, sig.extended d) := by
  cases d with
  | sort name =>
    have hfree : sig.sortIndex? name = none := findIdx?_key_eq_none.mpr h
    simp [declare, addSort, hfree, next, extended]
  | operation symbol =>
    have hfree : sig.operationIndex? symbol.name = none := findIdx?_key_eq_none.mpr h.1
    simp [declare, addOperation, hfree, undeclaredSort?_eq_none.mpr h.2, next, extended]
  | predicate symbol =>
    have hfree : sig.predicateIndex? symbol.name = none := findIdx?_key_eq_none.mpr h.1
    simp [declare, addPredicate, hfree, undeclaredSort?_eq_none.mpr h.2, next, extended]

theorem edit_admitted (h : sig.Admits d) : sig.edit d = (.ok (sig.next d), sig.extended d) := by
  simp [edit, declare_admitted h]

/-- Every declaration is either taken up or rejected for a reason. -/
theorem refuses_or_admits (sig : Signature) (d : Declaration) :
    (∃ e, sig.view.Refuses d e) ∨ sig.Admits d := by
  cases d with
  | sort name =>
    by_cases hname : name ∈ sig.sorts.map id
    · exact Or.inl ⟨_, .sort (ofList_has.mpr hname)⟩
    · exact Or.inr hname
  | operation symbol =>
    by_cases hname : symbol.name ∈ sig.operations.map Operation.name
    · exact Or.inl ⟨_, .operation (ofList_has.mpr hname)⟩
    · cases hsort : sig.undeclaredSort? (symbol.domain ++ [symbol.codomain]) with
      | some sort =>
        have hfree : ¬sig.view.operations.Has Operation.name symbol.name :=
          fun hhas => hname (ofList_has.mp hhas)
        exact Or.inl ⟨_, .operationSort hfree (undeclaredSort?_eq_some_iff.mp hsort)⟩
      | none => exact Or.inr ⟨hname, undeclaredSort?_eq_none.mp hsort⟩
  | predicate symbol =>
    by_cases hname : symbol.name ∈ sig.predicates.map Predicate.name
    · exact Or.inl ⟨_, .predicate (ofList_has.mpr hname)⟩
    · cases hsort : sig.undeclaredSort? symbol.domain with
      | some sort =>
        have hfree : ¬sig.view.predicates.Has Predicate.name symbol.name :=
          fun hhas => hname (ofList_has.mp hhas)
        exact Or.inl ⟨_, .predicateSort hfree (undeclaredSort?_eq_some_iff.mp hsort)⟩
      | none => exact Or.inr ⟨hname, undeclaredSort?_eq_none.mp hsort⟩

theorem edit_error_iff {e : DeclarationError} :
    (sig.edit d).1 = .error e ↔ sig.view.Refuses d e := by
  constructor
  · intro herror
    rcases sig.refuses_or_admits d with ⟨e', he'⟩ | hadmits
    · rw [edit_refused he'] at herror
      exact Except.error.inj herror ▸ he'
    · rw [edit_admitted hadmits] at herror
      exact nomatch herror
  · intro hrefuses
    rw [edit_refused hrefuses]

/-- What a signature has recorded of some declarations and the answers to them. -/
structure Records (sig : Signature) (ds : List Declaration)
    (answers : List (Except DeclarationError Nat)) : Prop where
  sorts : Numbered id sig.sorts (Declaration.accepted Declaration.sort? ds answers)
  operations : Numbered Operation.name sig.operations
    (Declaration.accepted Declaration.operation? ds answers)
  predicates : Numbered Predicate.name sig.predicates
    (Declaration.accepted Declaration.predicate? ds answers)
  closed : sig.Closed

section Records

variable {ds : List Declaration} {answers : List (Except DeclarationError Nat)}

theorem empty_records : Records {} [] [] :=
  ⟨.nil, .nil, .nil, by simp, by simp⟩

/-- A rejected declaration leaves the records as they are, and another one adds to one of them. -/
theorem Records.edit (h : sig.Records ds answers) (hlength : ds.length = answers.length)
    (d : Declaration) : (sig.edit d).2.Records (ds ++ [d]) (answers ++ [(sig.edit d).1]) := by
  rcases sig.refuses_or_admits d with ⟨e, hrefuses⟩ | hadmits
  · rw [edit_refused hrefuses]
    exact ⟨h.sorts.keep hlength rfl, h.operations.keep hlength rfl, h.predicates.keep hlength rfl,
      h.closed⟩
  · have hclosed := declare_closed h.closed (declare_admitted hadmits)
    rw [edit_admitted hadmits]
    cases d with
    | sort name =>
      exact ⟨h.sorts.take hlength rfl hadmits, h.operations.keep hlength rfl,
        h.predicates.keep hlength rfl, hclosed⟩
    | operation symbol =>
      exact ⟨h.sorts.keep hlength rfl, h.operations.take hlength rfl hadmits.1,
        h.predicates.keep hlength rfl, hclosed⟩
    | predicate symbol =>
      exact ⟨h.sorts.keep hlength rfl, h.operations.keep hlength rfl,
        h.predicates.take hlength rfl hadmits.1, hclosed⟩

theorem edited_records (ds : List Declaration) :
    (edited Signature.edit {} ds).Records ds (editAnswers Signature.edit {} ds) := by
  induction ds using List.reverseRecOn with
  | nil => exact empty_records
  | append_singleton ds d ih =>
    rw [edited_snoc, editAnswers_snoc]
    exact ih.edit (editAnswers_length ds).symm d

/-- The declarations of a signature come before those that are added to it. -/
theorem edited_extends (sig : Signature) (ds : List Declaration) :
    sig.sorts <+: (edited Signature.edit sig ds).sorts ∧
      sig.operations <+: (edited Signature.edit sig ds).operations ∧
      sig.predicates <+: (edited Signature.edit sig ds).predicates := by
  induction ds using List.reverseRecOn with
  | nil => exact ⟨List.prefix_refl _, List.prefix_refl _, List.prefix_refl _⟩
  | append_singleton ds d ih =>
    rw [edited_snoc]
    generalize edited Signature.edit sig ds = later at ih
    obtain ⟨hsorts, hoperations, hpredicates⟩ := ih
    rcases later.refuses_or_admits d with ⟨e, hrefuses⟩ | hadmits
    · rw [edit_refused hrefuses]
      exact ⟨hsorts, hoperations, hpredicates⟩
    · rw [edit_admitted hadmits]
      cases d with
      | sort name => exact ⟨hsorts.trans (List.prefix_append _ _), hoperations, hpredicates⟩
      | operation symbol =>
        exact ⟨hsorts, hoperations.trans (List.prefix_append _ _), hpredicates⟩
      | predicate symbol =>
        exact ⟨hsorts, hoperations, hpredicates.trans (List.prefix_append _ _)⟩

theorem Closed.view (h : sig.Closed) : sig.view.Closed where
  operations _ operation hentry := h.operations operation (List.mem_of_getElem? hentry)
  predicates _ predicate hentry := h.predicates predicate (List.mem_of_getElem? hentry)

/-- The declarations that are taken up one by one make up the signature that they describe. -/
theorem declareAll_edited (sig : Signature) (ds : List Declaration) :
    (sig.declareAll ds).2 = edited Signature.edit sig ds := by
  induction ds generalizing sig with
  | nil => rfl
  | cons d ds ih =>
    show _ = edited Signature.edit (sig.edit d).2 ds
    unfold declareAll Signature.edit
    cases sig.declare d with
    | ok larger => exact ih larger.2
    | error e => exact ih sig

theorem declareAll_errors (sig : Signature) (ds : List Declaration) : (sig.declareAll ds).1 =
    (editAnswers Signature.edit sig ds).filterMap Declaration.refusal? := by
  induction ds generalizing sig with
  | nil => rfl
  | cons d ds ih =>
    unfold declareAll editAnswers Signature.edit
    cases sig.declare d with
    | ok larger => exact ih larger.2
    | error e => exact congrArg (e :: ·) (ih sig)

/-- The signature that declarations describe numbers its symbols in the order of the accepted
declarations, and its names lead to them. -/
theorem ofDeclarations_keeps_names (ds : List Declaration) :
    KeepsNames (editAnswers Signature.edit {}) (fun first => (ofDeclarations first).2.view) ds := by
  have hview : (fun first => (ofDeclarations first).2.view) =
      fun first => (edited Signature.edit {} first).view :=
    funext fun first => congrArg Signature.view (declareAll_edited {} first)
  have hrecords := edited_records ds
  rw [hview]
  refine ⟨hrecords.sorts.numbers, hrecords.operations.numbers, hrecords.predicates.numbers,
    hrecords.closed.view, fun first hfirst => ?_, fun d e => ?_, fun d e hrefuses => ?_⟩
  · obtain ⟨later, rfl⟩ := hfirst
    rw [edited_append] at hrecords ⊢
    obtain ⟨hsorts, hoperations, hpredicates⟩ :=
      edited_extends (edited Signature.edit {} first) later
    exact ⟨keptBy_of_initial hsorts hrecords.sorts.distinct,
      keptBy_of_initial hoperations hrecords.operations.distinct,
      keptBy_of_initial hpredicates hrecords.predicates.distinct⟩
  · rw [editAnswers_snoc, List.getLast?_concat, Option.some.injEq, edit_error_iff]
  · show (edited Signature.edit {} (ds ++ [d])).view = _
    rw [edited_snoc, edit_refused hrefuses]

end Records

end Signature

end PartialHorn
