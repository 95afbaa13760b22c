import PartialHorn.Proofs.Namespaces

namespace PartialHorn

/-- Maps from names whose entries have an order. -/
structure IndexMap where
  State : Type → Type
  empty : (α : Type) → State α
  has : {α : Type} → State α → String → Bool
  insert : {α : Type} → State α → String → α → Nat × State α
  index? : {α : Type} → State α → String → Option Nat
  item? : {α : Type} → State α → Nat → Option (String × α)
  size : {α : Type} → State α → Nat
  entries : {α : Type} → State α → List (String × α)

/-- What can be relied on. The entries keep the positions in which they came, and a new one is put
last. -/
structure IndexMap.Lawful (map : IndexMap) : Prop where
  entries_empty : ∀ α, map.entries (map.empty α) = []
  has : ∀ {α} (s : map.State α) name,
    map.has s name = true ↔ name ∈ (map.entries s).map Prod.fst
  insert_answers : ∀ {α} (s : map.State α) name (x : α), name ∉ (map.entries s).map Prod.fst →
    (map.insert s name x).1 = (map.entries s).length
  entries_insert : ∀ {α} (s : map.State α) name (x : α), name ∉ (map.entries s).map Prod.fst →
    map.entries (map.insert s name x).2 = map.entries s ++ [(name, x)]
  index? : ∀ {α} (s : map.State α) name i,
    map.index? s name = some i ↔ ∃ x, (map.entries s)[i]? = some (name, x)
  item? : ∀ {α} (s : map.State α) i, map.item? s i = (map.entries s)[i]?
  size : ∀ {α} (s : map.State α), map.size s = (map.entries s).length

/-- Entries of which no two have the same name. -/
abbrev EntryList (α : Type) :=
  { entries : List (String × α) // (entries.map Prod.fst).Nodup }

namespace EntryList

variable {α : Type}

def replace (entries : List (String × α)) (name : String) (x : α) : List (String × α) :=
  entries.map fun e => if e.1 = name then (name, x) else e

theorem replace_names (entries : List (String × α)) (name : String) (x : α) :
    (replace entries name x).map Prod.fst = entries.map Prod.fst := by
  rw [replace, List.map_map]
  apply List.map_congr_left
  intro e _
  show (if e.1 = name then (name, x) else e).1 = e.1
  split
  next he => exact he.symm
  next => rfl

theorem concat_names {entries : List (String × α)} {name : String} {x : α}
    (distinct : (entries.map Prod.fst).Nodup) (h : name ∉ entries.map Prod.fst) :
    ((entries ++ [(name, x)]).map Prod.fst).Nodup := by
  rw [List.map_append, List.map_singleton, ← List.concat_eq_append]
  exact List.Nodup.concat h distinct

/-- Gives a name another value where it is, or else puts it last. -/
def insert (s : EntryList α) (name : String) (x : α) : Nat × EntryList α :=
  (s.val.findIdx (Prod.fst · == name),
    if h : name ∈ s.val.map Prod.fst then
      ⟨replace s.val name x, by
        rw [replace_names]
        exact s.property⟩
    else ⟨s.val ++ [(name, x)], concat_names s.property h⟩)

end EntryList

/-- The lists of entries in their order. -/
def IndexMap.ordered : IndexMap where
  State := EntryList
  empty _ := ⟨[], List.nodup_nil⟩
  has s name := decide (name ∈ s.val.map Prod.fst)
  insert := EntryList.insert
  index? s name := s.val.findIdx? (Prod.fst · == name)
  item? s i := s.val[i]?
  size s := s.val.length
  entries := Subtype.val

theorem IndexMap.ordered_lawful : IndexMap.ordered.Lawful where
  entries_empty _ := rfl
  has _ _ := decide_eq_true_iff
  insert_answers s name _ h := by
    apply List.findIdx_eq_length_of_false
    intro e he
    rw [beq_eq_false_iff_ne]
    rintro rfl
    exact h (List.mem_map_of_mem he)
  entries_insert s name x h := by
    exact congrArg Subtype.val (dif_neg h)
  index? s name i := by
    apply (findIdx?_key_eq_some_iff s.property).trans
    constructor
    · rintro ⟨e, he, rfl⟩
      exact ⟨e.2, he⟩
    · rintro ⟨x, hx⟩
      exact ⟨(name, x), hx, rfl⟩
  item? _ _ := rfl
  size _ := rfl

/-- A signature whose namespaces are maps. The set of the sorts is a map to nothing. -/
structure IndexedSignature (map : IndexMap) where
  sorts : map.State Unit
  operations : map.State Operation
  predicates : map.State Predicate

namespace IndexedSignature

variable {map : IndexMap}

def empty (map : IndexMap) : IndexedSignature map where
  sorts := map.empty Unit
  operations := map.empty Operation
  predicates := map.empty Predicate

def undeclaredSort? (store : IndexedSignature map) (sorts : List Nat) : Option Nat :=
  sorts.find? fun sort => decide (map.size store.sorts ≤ sort)

/-- Looks for a name and through the sorts of its symbol before it is put into a map. -/
def enter {α : Type} (store : IndexedSignature map) (entries : map.State α) (name : String) (x : α)
    (sorts : List Nat) (duplicate : DeclarationError) : Except DeclarationError (Nat × map.State α) :=
  if map.has entries name then .error duplicate
  else
    match store.undeclaredSort? sorts with
    | some sort => .error (.unknownSort name sort)
    | none => .ok (map.insert entries name x)

def edit (store : IndexedSignature map) :
    Declaration → Except DeclarationError Nat × IndexedSignature map
  | .sort name =>
    if map.has store.sorts name then (.error (.duplicateSort name), store)
    else
      let (id, sorts) := map.insert store.sorts name ()
      (.ok id, { store with sorts })
  | .operation symbol =>
    match store.enter store.operations symbol.name symbol (symbol.domain ++ [symbol.codomain])
      (.duplicateOperation symbol.name) with
    | .ok (id, operations) => (.ok id, { store with operations })
    | .error e => (.error e, store)
  | .predicate symbol =>
    match store.enter store.predicates symbol.name symbol symbol.domain
      (.duplicatePredicate symbol.name) with
    | .ok (id, predicates) => (.ok id, { store with predicates })
    | .error e => (.error e, store)

def view (store : IndexedSignature map) : SignatureView where
  sorts := ⟨map.index? store.sorts, fun i => (map.item? store.sorts i).map Prod.fst,
    map.size store.sorts⟩
  operations := ⟨map.index? store.operations, fun i => (map.item? store.operations i).map Prod.snd,
    map.size store.operations⟩
  predicates := ⟨map.index? store.predicates, fun i => (map.item? store.predicates i).map Prod.snd,
    map.size store.predicates⟩

/-- The entries of a map are those of a namespace in their order. -/
def Lists {α β : Type} (entries : map.State β) (key : α → String) (value : α → β) (xs : List α) :
    Prop :=
  map.entries entries = xs.map fun x => (key x, value x)

section Lists

variable {α β : Type} {entries : map.State β} {key : α → String} {value : α → β} {xs : List α}
  (lawful : map.Lawful) (h : Lists entries key value xs)

include lawful h

theorem Lists.has {name : String} : map.has entries name = true ↔ name ∈ xs.map key := by
  rw [lawful.has, h, List.map_map]
  rfl

theorem Lists.size : map.size entries = xs.length := by
  rw [lawful.size, h, List.length_map]

theorem Lists.index? (distinct : (xs.map key).Nodup) (name : String) :
    map.index? entries name = xs.findIdx? (key · == name) := by
  apply Option.ext
  intro i
  rw [lawful.index?, h, findIdx?_key_eq_some_iff distinct, List.getElem?_map]
  constructor
  · rintro ⟨y, hy⟩
    obtain ⟨x, hx, he⟩ := Option.map_eq_some_iff.mp hy
    exact ⟨x, hx, congrArg Prod.fst he⟩
  · rintro ⟨x, hx, rfl⟩
    exact ⟨value x, by rw [hx, Option.map_some]⟩

theorem Lists.item? (i : Nat) :
    map.item? entries i = xs[i]?.map fun x => (key x, value x) := by
  rw [lawful.item?, h, List.getElem?_map]

theorem Lists.insert {x : α} (hx : key x ∉ xs.map key) :
    (map.insert entries (key x) (value x)).1 = xs.length ∧
      Lists (map.insert entries (key x) (value x)).2 key value (xs ++ [x]) := by
  have hnames : (map.entries entries).map Prod.fst = xs.map key := by
    rw [h, List.map_map]
    rfl
  rw [← hnames] at hx
  constructor
  · rw [lawful.insert_answers entries (key x) (value x) hx, h, List.length_map]
  · rw [Lists, lawful.entries_insert entries (key x) (value x) hx, h, List.map_append]
    rfl

theorem Lists.enter_taken {name : String} (hname : name ∈ xs.map key)
    (store : IndexedSignature map) (x : β) (sorts : List Nat) (duplicate : DeclarationError) :
    store.enter entries name x sorts duplicate = .error duplicate :=
  if_pos ((h.has lawful).mpr hname)

end Lists

/-- The maps of a store hold the namespaces of a signature. -/
structure Mirrors (store : IndexedSignature map) (sig : Signature) : Prop where
  sorts : Lists store.sorts id (fun _ => ()) sig.sorts
  operations : Lists store.operations Operation.name id sig.operations
  predicates : Lists store.predicates Predicate.name id sig.predicates

section Mirrors

variable {store : IndexedSignature map} {sig : Signature} (lawful : map.Lawful)
  (h : store.Mirrors sig)

include lawful h

theorem Mirrors.undeclaredSort? (sorts : List Nat) :
    store.undeclaredSort? sorts = sig.undeclaredSort? sorts := by
  rw [IndexedSignature.undeclaredSort?, h.sorts.size lawful, Signature.undeclaredSort?]

theorem Mirrors.enter_free {α β : Type} {entries : map.State β} {key : α → String} {value : α → β}
    {xs : List α} (hlists : Lists entries key value xs) {name : String} (hname : name ∉ xs.map key)
    (x : β) (sorts : List Nat) (duplicate : DeclarationError) :
    store.enter entries name x sorts duplicate =
      match sig.undeclaredSort? sorts with
      | some sort => .error (.unknownSort name sort)
      | none => .ok (map.insert entries name x) := by
  rw [enter, if_neg fun hhas => hname ((hlists.has lawful).mp hhas), h.undeclaredSort? lawful]

theorem Mirrors.edit_refused {d : Declaration} {e : DeclarationError}
    (hrefuses : sig.view.Refuses d e) : store.edit d = (.error e, store) := by
  cases hrefuses with
  | sort taken =>
    rw [edit, if_pos ((h.sorts.has lawful).mpr (ofList_has.mp taken))]
  | operation taken =>
    rw [edit, h.operations.enter_taken lawful (ofList_has.mp taken)]
  | predicate taken =>
    rw [edit, h.predicates.enter_taken lawful (ofList_has.mp taken)]
  | operationSort free undeclared =>
    rw [edit, h.enter_free lawful h.operations fun hname => free (ofList_has.mpr hname),
      Signature.undeclaredSort?_eq_some_iff.mpr undeclared]
  | predicateSort free undeclared =>
    rw [edit, h.enter_free lawful h.predicates fun hname => free (ofList_has.mpr hname),
      Signature.undeclaredSort?_eq_some_iff.mpr undeclared]

theorem Mirrors.edit_admitted {d : Declaration} (hadmits : sig.Admits d) :
    (store.edit d).1 = .ok (sig.next d) ∧ (store.edit d).2.Mirrors (sig.extended d) := by
  cases d with
  | sort name =>
    obtain ⟨hid, hentries⟩ := h.sorts.insert lawful hadmits
    rw [edit, if_neg fun hhas => hadmits ((h.sorts.has lawful).mp hhas)]
    exact ⟨congrArg Except.ok hid, hentries, h.operations, h.predicates⟩
  | operation symbol =>
    obtain ⟨hid, hentries⟩ := h.operations.insert lawful hadmits.1
    rw [edit, h.enter_free lawful h.operations hadmits.1,
      Signature.undeclaredSort?_eq_none.mpr hadmits.2]
    exact ⟨congrArg Except.ok hid, h.sorts, hentries, h.predicates⟩
  | predicate symbol =>
    obtain ⟨hid, hentries⟩ := h.predicates.insert lawful hadmits.1
    rw [edit, h.enter_free lawful h.predicates hadmits.1,
      Signature.undeclaredSort?_eq_none.mpr hadmits.2]
    exact ⟨congrArg Except.ok hid, h.sorts, h.operations, hentries⟩

theorem Mirrors.view {ds : List Declaration} {answers : List (Except DeclarationError Nat)}
    (records : sig.Records ds answers) : store.view = sig.view := by
  have hsorts : map.index? store.sorts = sig.sortIndex? :=
    funext (h.sorts.index? lawful records.sorts.distinct)
  have hoperations : map.index? store.operations = sig.operationIndex? :=
    funext (h.operations.index? lawful records.operations.distinct)
  have hpredicates : map.index? store.predicates = sig.predicateIndex? :=
    funext (h.predicates.index? lawful records.predicates.distinct)
  simp [IndexedSignature.view, Signature.view, hsorts, hoperations, hpredicates,
    h.sorts.size lawful, h.operations.size lawful, h.predicates.size lawful,
    h.sorts.item? lawful, h.operations.item? lawful, h.predicates.item? lawful,
    Function.comp_def]

end Mirrors

theorem empty_mirrors (lawful : map.Lawful) : (empty map).Mirrors {} :=
  ⟨lawful.entries_empty Unit, lawful.entries_empty Operation, lawful.entries_empty Predicate⟩

theorem edit_refines (lawful : map.Lawful) :
    Refines edit Signature.edit fun (store : IndexedSignature map) sig _ => store.Mirrors sig := by
  intro store sig _ d h
  rcases sig.refuses_or_admits d with ⟨e, hrefuses⟩ | hadmits
  · rw [h.edit_refused lawful hrefuses, Signature.edit_refused hrefuses]
    exact ⟨rfl, h⟩
  · rw [Signature.edit_admitted hadmits]
    exact h.edit_admitted lawful hadmits

end IndexedSignature

/-- Names and ids stay inverse whatever is declared, also where maps hold the namespaces: the ids of
a namespace count the accepted declarations, every sort of a symbol is there, and a declaration is
rejected for a taken name or else for its first undeclared sort, with nothing changed. -/
theorem signatures_keep_names {map : IndexMap} (lawful : map.Lawful) (ds : List Declaration) :
    KeepsNames (editAnswers Signature.edit {})
        (fun first => (Signature.ofDeclarations first).2.view) ds ∧
      (Signature.ofDeclarations ds).1 =
        (editAnswers Signature.edit {} ds).filterMap Declaration.refusal? ∧
      KeepsNames (editAnswers IndexedSignature.edit (.empty map))
        (fun first => (edited IndexedSignature.edit (.empty map) first).view) ds := by
  have hrun := (IndexedSignature.edit_refines lawful).run (n := 0)
    (IndexedSignature.empty_mirrors lawful)
  have hanswers : editAnswers IndexedSignature.edit (.empty map) = editAnswers Signature.edit {} :=
    funext fun first => (hrun first).1
  have hview : (fun first => (edited IndexedSignature.edit (.empty map) first).view) =
      fun first => (Signature.ofDeclarations first).2.view := by
    funext first
    rw [(hrun first).2.view lawful (Signature.edited_records first)]
    exact congrArg Signature.view (Signature.declareAll_edited {} first).symm
  have hkeeps := Signature.ofDeclarations_keeps_names ds
  rw [hanswers, hview]
  exact ⟨hkeeps, Signature.declareAll_errors {} ds, hkeeps⟩

/-- Symbols of three kinds share a name. One name is declared twice, one operation has an undeclared
sort, and one predicate has both faults. -/
def sharedNames : List Declaration :=
  [.sort "S", .sort "S", .operation ⟨"S", [0], 0⟩, .operation ⟨"f", [0, 1], 2⟩,
    .predicate ⟨"S", [0]⟩, .predicate ⟨"S", [3]⟩]

theorem signatures_keep_names_shared :
    KeepsNames (editAnswers Signature.edit {})
        (fun first => (Signature.ofDeclarations first).2.view) sharedNames ∧
      (editAnswers Signature.edit {} sharedNames).filterMap Declaration.refusal? =
        [.duplicateSort "S", .unknownSort "f" 1, .duplicatePredicate "S"] ∧
      KeepsNames (editAnswers IndexedSignature.edit (.empty .ordered))
        (fun first => (edited IndexedSignature.edit (.empty .ordered) first).view) sharedNames := by
  have hkeeps := signatures_keep_names IndexMap.ordered_lawful sharedNames
  have herrors : (Signature.ofDeclarations sharedNames).1 =
      [.duplicateSort "S", .unknownSort "f" 1, .duplicatePredicate "S"] := by decide
  exact ⟨hkeeps.1, hkeeps.2.1.symm.trans herrors, hkeeps.2.2⟩

end PartialHorn
