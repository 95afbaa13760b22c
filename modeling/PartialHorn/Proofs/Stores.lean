import Mathlib.Data.Finset.Sort
import PartialHorn.Proofs.Extents
import PartialHorn.Proofs.PartialMaps

namespace PartialHorn

/-- The graph of an operation behind a hash table, with a machine word that counts its changes. -/
structure OperationStore where
  arity : Nat
  rows : Std.HashMap (List Nat) Nat
  generation : UInt64

namespace OperationStore

def fresh (arity : Nat) : OperationStore where
  arity := arity
  rows := ∅
  generation := 0

def insert (store : OperationStore) (row : Row) : Option Nat × OperationStore :=
  match store.rows[row.args]? with
  | some existing => (some existing, store)
  | none =>
    (none,
      { store with
        rows := store.rows.insert row.args row.result
        generation := store.generation + 1 })

def remove (store : OperationStore) (args : List Nat) : Option Nat × OperationStore :=
  let removed := store.rows[args]?
  (removed,
    { store with
      rows := store.rows.erase args
      generation := if removed.isSome then store.generation + 1 else store.generation })

def edit (store : OperationStore) : RowEdit → Option Nat × OperationStore
  | .insert row => store.insert row
  | .remove args => store.remove args

def listed (store : OperationStore) : List Row :=
  store.rows.toList.map fun entry => ⟨entry.1, entry.2⟩

def view (store : OperationStore) : GraphView where
  get? args := store.rows[args]?
  contains := PartialMap.holds (fun args => store.rows[args]?) store.arity
  size := store.rows.size
  rows := store.listed.map Row.cells
  generation := store.generation.toNat

theorem rows_listed (store : OperationStore) :
    PartialMap.ListedBy (fun args => store.rows[args]?) store.listed where
  keyed := by
    unfold OperationStore.listed
    rw [List.map_map]
    apply List.pairwise_map.mpr
    apply Std.HashMap.distinct_keys_toList.imp
    intro a b hab he
    exact (beq_eq_false_iff_ne.mp hab) he
  mem row := by
    rw [← Std.HashMap.mem_toList_iff_getElem?_eq_some, OperationStore.listed, List.mem_map]
    constructor
    · rintro ⟨entry, hentry, rfl⟩
      exact hentry
    · exact fun hrow => ⟨_, hrow, rfl⟩

/-- A hash table as a store, of which the machine word tells the count up to its overflow. -/
def store : RowStore OperationStore where
  edit := edit
  get? table args := table.rows[args]?
  rows := listed
  arity := arity
  Sound _ := True
  Counts table count := table.generation = UInt64.ofNat count

theorem store_lawful : store.Lawful where
  listed table _ := table.rows_listed
  arity table e := by
    cases e with
    | insert row =>
      show (table.insert row).2.arity = table.arity
      unfold insert
      split
      next => rfl
      next => rfl
    | remove args => rfl
  insert_found table row x h := by
    have hget : table.rows[row.args]? = some x := h
    show table.insert row = (some x, table)
    simp only [insert, hget]
  insert_new table row _ h := by
    have hget : table.rows[row.args]? = none := h
    have hinsert : store.edit table (.insert row) = (none,
        { table with
          rows := table.rows.insert row.args row.result
          generation := table.generation + 1 }) := by
      show table.insert row = _
      simp only [insert, hget]
    refine ⟨by rw [hinsert], trivial, fun args => ?_, fun count hcount => ?_⟩
    · rw [hinsert]
      show (table.rows.insert row.args row.result)[args]? =
        Function.update (fun args => table.rows[args]?) row.args (some row.result) args
      rw [Std.HashMap.getElem?_insert, Function.update_apply]
      by_cases he : args = row.args
      · simp [he]
      · simp [he, Ne.symm he]
    · rw [hinsert]
      show table.generation + 1 = _
      rw [show table.generation = _ from hcount, UInt64.ofNat_add]
      rfl
  remove table args _ := by
    refine ⟨rfl, trivial, fun other => ?_, fun count hcount => ?_⟩
    · show (table.rows.erase args)[other]? =
        Function.update (fun args => table.rows[args]?) args none other
      rw [Std.HashMap.getElem?_erase, Function.update_apply]
      by_cases he : other = args
      · simp [he]
      · simp [he, Ne.symm he]
    · show (if (table.rows[args]?).isSome then table.generation + 1 else table.generation) =
        UInt64.ofNat (count + if (table.rows[args]?).isSome then 1 else 0)
      rw [show table.generation = _ from hcount]
      split
      next => exact (UInt64.ofNat_add count 1).symm
      next => rfl

theorem fresh_tracks (arity : Nat) : store.Tracks (fresh arity) .empty 0 where
  sound := trivial
  get? _ := Std.HashMap.getElem?_empty
  counts := rfl

/-- Fewer edits than the counter has values leave a store with the rows of the partial map that
they make. -/
theorem acts_as_map {arity : Nat} {edits : List RowEdit} (hfits : ∀ e ∈ edits, e.Fits arity)
    (hedits : edits.length < 2 ^ 64) :
    ActsAsMap (editAnswers edit (fresh arity)) (fun first => (edited edit (fresh arity) first).view)
      edits := by
  have hview : ∀ table : OperationStore, table.view = store.view table table.generation.toNat := by
    intro table
    have hsize : table.listed.length = table.rows.size := by
      rw [OperationStore.listed, List.length_map, Std.HashMap.length_toList]
    rw [view, ← hsize]
    rfl
  simp only [hview]
  refine RowStore.acts_as_map store_lawful (fresh_tracks arity) hfits
    (fun table => table.generation.toNat) fun table count hcount hle => ?_
  rw [show table.generation = _ from hcount]
  apply UInt64.toNat_ofNat_of_lt'
  show count < 2 ^ 64
  omega

end OperationStore

/-- A set of machine words with an order of its own for going through it. -/
structure Bitmap where
  State : Type
  empty : State
  insert : State → UInt64 → Bool × State
  remove : State → UInt64 → Bool × State
  contains : State → UInt64 → Bool
  size : State → UInt64
  members : State → List UInt64

/-- What can be relied on. Insertions and removals tell whether they changed something, and the
members come in ascending order. -/
structure Bitmap.Lawful (bitmap : Bitmap) : Prop where
  members_empty : bitmap.members bitmap.empty = []
  insert_answers : ∀ s x, (bitmap.insert s x).1 = true ↔ x ∉ bitmap.members s
  mem_insert : ∀ s x y, y ∈ bitmap.members (bitmap.insert s x).2 ↔ y = x ∨ y ∈ bitmap.members s
  remove_answers : ∀ s x, (bitmap.remove s x).1 = true ↔ x ∈ bitmap.members s
  mem_remove : ∀ s x y, y ∈ bitmap.members (bitmap.remove s x).2 ↔ y ≠ x ∧ y ∈ bitmap.members s
  contains : ∀ s x, bitmap.contains s x = true ↔ x ∈ bitmap.members s
  size : ∀ s, bitmap.size s = UInt64.ofNat (bitmap.members s).length
  ascending : ∀ s, (bitmap.members s).Pairwise (· < ·)

/-- The finite sets of machine words. -/
def Bitmap.finite : Bitmap where
  State := Finset (Fin UInt64.size)
  empty := ∅
  insert s x := (decide (x.toFin ∉ s), Insert.insert x.toFin s)
  remove s x := (decide (x.toFin ∈ s), s.erase x.toFin)
  contains s x := decide (x.toFin ∈ s)
  size s := UInt64.ofNat s.card
  members s := s.sort.map UInt64.ofFin

theorem Bitmap.mem_finite {s : Finset (Fin UInt64.size)} {x : UInt64} :
    x ∈ Bitmap.finite.members s ↔ x.toFin ∈ s := by
  show x ∈ s.sort.map UInt64.ofFin ↔ _
  rw [List.mem_map]
  constructor
  · rintro ⟨y, hy, rfl⟩
    exact (Finset.mem_sort _).mp hy
  · exact fun hx => ⟨x.toFin, (Finset.mem_sort _).mpr hx, rfl⟩

theorem Bitmap.finite_lawful : Bitmap.finite.Lawful where
  members_empty := by simp [Bitmap.finite]
  insert_answers s x := by
    apply Iff.trans _ (not_congr Bitmap.mem_finite.symm)
    simp [Bitmap.finite]
  mem_insert _ _ _ := by
    apply Bitmap.mem_finite.trans
    apply Finset.mem_insert.trans
    exact or_congr UInt64.toFin_inj Bitmap.mem_finite.symm
  remove_answers s x := by
    apply Iff.trans _ Bitmap.mem_finite.symm
    simp [Bitmap.finite]
  mem_remove _ _ _ := by
    apply Bitmap.mem_finite.trans
    apply Finset.mem_erase.trans
    exact and_congr (not_congr UInt64.toFin_inj) Bitmap.mem_finite.symm
  contains s x := by
    apply Iff.trans _ Bitmap.mem_finite.symm
    simp [Bitmap.finite]
  size s := by
    have hlength := Finset.length_sort (s := s) (· ≤ ·)
    simp [Bitmap.finite, hlength]
  ascending s := List.pairwise_map.mpr (Finset.sortedLT_sort s).pairwise

/-- The extent of a predicate as four views of it: the tuples in the order in which they came, the
number of each of them, a bitmap of the numbers that hold now, and a count of the changes. -/
structure PredicateStore (bitmap : Bitmap) where
  arity : Nat
  tuples : List (List Nat)
  ids : Std.HashMap (List Nat) Nat
  extent : bitmap.State
  generation : UInt64

namespace PredicateStore

variable {bitmap : Bitmap}

def fresh (bitmap : Bitmap) (arity : Nat) : PredicateStore bitmap where
  arity := arity
  tuples := []
  ids := ∅
  extent := bitmap.empty
  generation := 0

/-- The number of a tuple, which is the next one if it has none yet. -/
def intern (store : PredicateStore bitmap) (tuple : List Nat) : Nat × PredicateStore bitmap :=
  match store.ids[tuple]? with
  | some id => (id, store)
  | none =>
    let id := store.tuples.length
    (id, { store with tuples := store.tuples ++ [tuple], ids := store.ids.insert tuple id })

/-- Counts a change of the bitmap that the bitmap has answered for. -/
def mark (store : PredicateStore bitmap) (marked : Bool × bitmap.State) :
    Bool × PredicateStore bitmap :=
  (marked.1,
    { store with
      extent := marked.2
      generation := if marked.1 then store.generation + 1 else store.generation })

def insert (store : PredicateStore bitmap) (tuple : List Nat) : Bool × PredicateStore bitmap :=
  let (id, store) := store.intern tuple
  store.mark (bitmap.insert store.extent (UInt64.ofNat id))

def remove (store : PredicateStore bitmap) (tuple : List Nat) : Bool × PredicateStore bitmap :=
  match store.ids[tuple]? with
  | some id => store.mark (bitmap.remove store.extent (UInt64.ofNat id))
  | none => (false, store)

def edit (store : PredicateStore bitmap) : TupleEdit → Bool × PredicateStore bitmap
  | .insert tuple => store.insert tuple
  | .remove tuple => store.remove tuple

def tuple? (store : PredicateStore bitmap) (id : Nat) : Option (List Nat) :=
  store.tuples[id]?

def rows (store : PredicateStore bitmap) : List (List Nat) :=
  (bitmap.members store.extent).filterMap fun id => store.tuple? id.toNat

def contains (store : PredicateStore bitmap) (tuple : List Nat) : Bool :=
  match store.ids[tuple]? with
  | some id => bitmap.contains store.extent (UInt64.ofNat id)
  | none => false

def view (store : PredicateStore bitmap) : ExtentView where
  contains := store.contains
  size := (bitmap.size store.extent).toNat
  rows := store.rows
  tuple? := store.tuple?
  generation := store.generation.toNat

/-- The four views of a store agree on an extent of which some edits have logged the tuples. -/
structure Agrees (store : PredicateStore bitmap) (edits : List TupleEdit) (extent : Extent)
    (count : Nat) : Prop where
  logged : TupleEdit.Logged edits store.tuples
  ids : ∀ (tuple : List Nat) (id : Nat), store.ids[tuple]? = some id ↔ store.tuples[id]? = some tuple
  marks : ∀ id, id ∈ bitmap.members store.extent ↔
    ∃ tuple ∈ extent, store.tuples[id.toNat]? = some tuple
  known : ∀ tuple ∈ extent, tuple ∈ store.tuples
  generation : store.generation = UInt64.ofNat count

section Agrees

variable {store : PredicateStore bitmap} {edits : List TupleEdit} {extent : Extent} {count : Nat}
  (h : store.Agrees edits extent count)

include h

theorem Agrees.toNat_id (hedits : edits.length < 2 ^ 64) {id : Nat} {tuple : List Nat}
    (hid : store.tuples[id]? = some tuple) : (UInt64.ofNat id).toNat = id := by
  obtain ⟨hlt, _⟩ := List.getElem?_eq_some_iff.mp hid
  have hle := h.logged.length_le
  apply UInt64.toNat_ofNat_of_lt'
  show id < 2 ^ 64
  omega

theorem Agrees.mem_extent (hedits : edits.length < 2 ^ 64) {id : Nat} {tuple : List Nat}
    (hid : store.tuples[id]? = some tuple) :
    UInt64.ofNat id ∈ bitmap.members store.extent ↔ tuple ∈ extent := by
  rw [h.marks, h.toNat_id hedits hid, hid]
  constructor
  · rintro ⟨t, ht, he⟩
    exact Option.some.inj he ▸ ht
  · exact fun ht => ⟨tuple, ht, rfl⟩

theorem Agrees.not_mem_of_new {tuple : List Nat} (hid : store.ids[tuple]? = none) :
    tuple ∉ store.tuples := by
  intro hmem
  obtain ⟨id, hlt, hid'⟩ := List.getElem_of_mem hmem
  rw [(h.ids tuple id).mpr (List.getElem?_eq_some_iff.mpr ⟨hlt, hid'⟩)] at hid
  exact nomatch hid

/-- Interning a tuple logs it and leaves the extent alone. -/
theorem Agrees.intern (u : List Nat) :
    (store.intern u).2.Agrees (edits ++ [.insert u]) extent count ∧
      (store.intern u).2.tuples[(store.intern u).1]? = some u := by
  unfold PredicateStore.intern
  split
  next id hid =>
    have hplace := (h.ids u id).mp hid
    exact ⟨{ h with logged := h.logged.again (List.mem_of_getElem? hplace) }, hplace⟩
  next hid =>
    have hnew := h.not_mem_of_new hid
    have hid' : ∀ id, store.tuples[id]? ≠ some u := fun id he => hnew (List.mem_of_getElem? he)
    refine ⟨⟨h.logged.push hnew, fun t id => ?_, fun id => ?_, fun t ht => ?_, h.generation⟩, ?_⟩
    · rw [getElem?_concat_eq_some_iff, Std.HashMap.getElem?_insert]
      by_cases he : t = u
      · subst he
        simp [hid', eq_comm]
      · simp [he, Ne.symm he, h.ids]
    · rw [h.marks]
      constructor
      · rintro ⟨t, ht, hplace⟩
        exact ⟨t, ht, getElem?_concat_eq_some_iff.mpr (Or.inl hplace)⟩
      · rintro ⟨t, ht, hplace⟩
        rcases getElem?_concat_eq_some_iff.mp hplace with hold | ⟨_, rfl⟩
        · exact ⟨t, ht, hold⟩
        · -- Nothing is marked that has no number yet.
          exact absurd (h.known t ht) hnew
    · exact List.mem_append_left [u] (h.known t ht)
    · simp

/-- Once a tuple has a number, the bitmap answers for it. -/
theorem Agrees.mark_insert (lawful : bitmap.Lawful) (hedits : edits.length < 2 ^ 64) {id : Nat}
    {u : List Nat} (hid : store.tuples[id]? = some u) :
    (store.mark (bitmap.insert store.extent (UInt64.ofNat id))).1 = (extent.edit (.insert u)).1 ∧
      (store.mark (bitmap.insert store.extent (UInt64.ofNat id))).2.Agrees edits
        (extent.edit (.insert u)).2 (count + change Extent.edit extent (.insert u)) := by
  have hanswer : (bitmap.insert store.extent (UInt64.ofNat id)).1 = decide (u ∉ extent) := by
    rw [Bool.eq_iff_iff, lawful.insert_answers, h.mem_extent hedits hid, decide_eq_true_iff]
  have hmem := List.mem_of_getElem? hid
  refine ⟨hanswer, h.logged, h.ids, fun other => ?_, fun t ht => ?_, ?_⟩
  · show other ∈ bitmap.members (bitmap.insert store.extent (UInt64.ofNat id)).2 ↔
      ∃ t ∈ Insert.insert u extent, store.tuples[other.toNat]? = some t
    rw [lawful.mem_insert, h.marks]
    constructor
    · rintro (rfl | ⟨t, ht, hplace⟩)
      · rw [h.toNat_id hedits hid]
        exact ⟨u, Finset.mem_insert_self u extent, hid⟩
      · exact ⟨t, Finset.mem_insert_of_mem ht, hplace⟩
    · rintro ⟨t, ht, hplace⟩
      rcases Finset.mem_insert.mp ht with rfl | ht
      · rw [h.logged.place_unique hid hplace]
        exact Or.inl UInt64.ofNat_toNat.symm
      · exact Or.inr ⟨t, ht, hplace⟩
  · rcases Finset.mem_insert.mp ht with rfl | ht
    · exact hmem
    · exact h.known t ht
  · simp only [mark, hanswer, h.generation]
    by_cases hu : u ∈ extent
    · rw [Extent.change_insert_mem hu]
      simp [hu]
    · rw [Extent.change_insert_not hu, UInt64.ofNat_add]
      simp [hu]

theorem Agrees.mark_remove (lawful : bitmap.Lawful) (hedits : edits.length < 2 ^ 64) {id : Nat}
    {u : List Nat} (hid : store.tuples[id]? = some u) :
    (store.mark (bitmap.remove store.extent (UInt64.ofNat id))).1 = (extent.edit (.remove u)).1 ∧
      (store.mark (bitmap.remove store.extent (UInt64.ofNat id))).2.Agrees edits
        (extent.edit (.remove u)).2 (count + change Extent.edit extent (.remove u)) := by
  have hanswer : (bitmap.remove store.extent (UInt64.ofNat id)).1 = decide (u ∈ extent) := by
    rw [Bool.eq_iff_iff, lawful.remove_answers, h.mem_extent hedits hid, decide_eq_true_iff]
  refine ⟨hanswer, h.logged, h.ids, fun other => ?_, fun t ht => ?_, ?_⟩
  · show other ∈ bitmap.members (bitmap.remove store.extent (UInt64.ofNat id)).2 ↔
      ∃ t ∈ extent.erase u, store.tuples[other.toNat]? = some t
    rw [lawful.mem_remove, h.marks]
    constructor
    · rintro ⟨hne, t, ht, hplace⟩
      refine ⟨t, Finset.mem_erase.mpr ⟨?_, ht⟩, hplace⟩
      rintro rfl
      rw [h.logged.place_unique hid hplace] at hne
      exact hne UInt64.ofNat_toNat.symm
    · rintro ⟨t, ht, hplace⟩
      obtain ⟨hne, ht⟩ := Finset.mem_erase.mp ht
      refine ⟨?_, t, ht, hplace⟩
      rintro rfl
      rw [h.toNat_id hedits hid, hid] at hplace
      exact hne (Option.some.inj hplace).symm
  · exact h.known t (Finset.mem_of_mem_erase ht)
  · simp only [mark, hanswer, h.generation]
    by_cases hu : u ∈ extent
    · rw [Extent.change_remove_mem hu, UInt64.ofNat_add]
      simp [hu]
    · rw [Extent.change_remove_not hu]
      simp [hu]

theorem Agrees.insert (lawful : bitmap.Lawful) (hedits : edits.length + 1 < 2 ^ 64) (u : List Nat) :
    (store.insert u).1 = (extent.edit (.insert u)).1 ∧
      (store.insert u).2.Agrees (edits ++ [.insert u]) (extent.edit (.insert u)).2
        (count + change Extent.edit extent (.insert u)) := by
  obtain ⟨hinterned, hid⟩ := h.intern u
  apply hinterned.mark_insert lawful _ hid
  rwa [List.length_append]

theorem Agrees.remove (lawful : bitmap.Lawful) (hedits : edits.length < 2 ^ 64) (u : List Nat) :
    (store.remove u).1 = (extent.edit (.remove u)).1 ∧
      (store.remove u).2.Agrees (edits ++ [.remove u]) (extent.edit (.remove u)).2
        (count + change Extent.edit extent (.remove u)) := by
  unfold PredicateStore.remove
  split
  next id hid =>
    obtain ⟨hanswer, hmarked⟩ := h.mark_remove lawful hedits ((h.ids u id).mp hid)
    exact ⟨hanswer, { hmarked with logged := hmarked.logged.remove }⟩
  next hid =>
    have hu : u ∉ extent := fun hu => h.not_mem_of_new hid (h.known u hu)
    rw [Extent.change_remove_not hu]
    have hsame : (extent.edit (.remove u)).2 = extent := Finset.erase_eq_of_notMem hu
    rw [hsame]
    exact ⟨by simp [Extent.edit, hu], { h with logged := h.logged.remove }⟩

theorem Agrees.contains (lawful : bitmap.Lawful) (hedits : edits.length < 2 ^ 64) (tuple : List Nat) :
    store.contains tuple = true ↔ tuple ∈ extent := by
  unfold PredicateStore.contains
  split
  next id hid =>
    rw [lawful.contains, h.mem_extent hedits ((h.ids tuple id).mp hid)]
  next hid =>
    constructor
    · exact fun hfalse => nomatch hfalse
    · exact fun ht => absurd (h.known tuple ht) (h.not_mem_of_new hid)

theorem Agrees.mem_rows (hedits : edits.length < 2 ^ 64) {tuple : List Nat} :
    tuple ∈ store.rows ↔ tuple ∈ extent := by
  rw [PredicateStore.rows, List.mem_filterMap]
  constructor
  · rintro ⟨id, hid, hplace⟩
    obtain ⟨t, ht, hplace'⟩ := (h.marks id).mp hid
    have hsame : some t = some tuple := hplace'.symm.trans hplace
    exact Option.some.inj hsame ▸ ht
  · intro ht
    obtain ⟨id, hlt, hid⟩ := List.getElem_of_mem (h.known tuple ht)
    have hplace := List.getElem?_eq_some_iff.mpr ⟨hlt, hid⟩
    refine ⟨UInt64.ofNat id, (h.mem_extent hedits hplace).mpr ht, ?_⟩
    rw [PredicateStore.tuple?, h.toNat_id hedits hplace]
    exact hplace

theorem Agrees.ordered (lawful : bitmap.Lawful) : store.rows.Pairwise fun t u =>
    ∀ a b : Nat, store.tuples[a]? = some t → store.tuples[b]? = some u → a < b := by
  apply List.pairwise_filterMap.mpr
  apply (lawful.ascending store.extent).imp
  intro i j hlt t ht u hu a b ha hb
  have hai := h.logged.place_unique ha ht
  have hbj := h.logged.place_unique hb hu
  rw [UInt64.lt_iff_toNat_lt] at hlt
  omega

theorem Agrees.rows_nodup (lawful : bitmap.Lawful) : store.rows.Nodup := by
  apply (h.ordered lawful).imp_of_mem
  intro t u ht _ hlt he
  subst he
  obtain ⟨id, _, hplace⟩ := List.mem_filterMap.mp ht
  exact Nat.lt_irrefl _ (hlt id.toNat id.toNat hplace hplace)

theorem Agrees.size (lawful : bitmap.Lawful) (hedits : edits.length < 2 ^ 64) :
    (bitmap.size store.extent).toNat = extent.card := by
  have hcard : store.rows.length = extent.card := by
    rw [← List.toFinset_card_of_nodup (h.rows_nodup lawful)]
    congr 1
    ext t
    rw [List.mem_toFinset, h.mem_rows hedits]
  have hlength : store.rows.length = (bitmap.members store.extent).length := by
    apply List.filterMap_length_eq_length.mpr
    intro id hid
    obtain ⟨t, _, hplace⟩ := (h.marks id).mp hid
    rw [PredicateStore.tuple?, hplace]
    rfl
  have hsub : extent.card ≤ store.tuples.length := by
    rw [← List.toFinset_card_of_nodup h.logged.nodup]
    apply Finset.card_le_card
    intro t ht
    exact List.mem_toFinset.mpr (h.known t ht)
  have hle := h.logged.length_le
  rw [lawful.size, ← hlength, hcard]
  apply UInt64.toNat_ofNat_of_lt'
  show extent.card < 2 ^ 64
  omega

theorem Agrees.shows (lawful : bitmap.Lawful) (hedits : edits.length < 2 ^ 64)
    (hextent : extent = edited Extent.edit ∅ edits) (hcount : count = changes Extent.edit ∅ edits) :
    store.view.Shows edits := by
  subst hextent hcount
  refine ⟨h.contains lawful hedits, h.size lawful hedits, ⟨h.rows_nodup lawful, fun _ => h.mem_rows hedits⟩,
    h.ordered lawful, fun _ ht => h.logged.once ht, h.logged.place, ?_⟩
  show store.generation.toNat = _
  rw [h.generation]
  exact UInt64.toNat_ofNat_of_lt' (Nat.lt_of_le_of_lt (changes_le edits) hedits)

end Agrees

theorem fresh_agrees (lawful : bitmap.Lawful) (arity : Nat) : (fresh bitmap arity).Agrees [] ∅ 0 where
  logged := .nil
  ids tuple id := by
    show (∅ : Std.HashMap (List Nat) Nat)[tuple]? = some id ↔ ([] : List (List Nat))[id]? = some tuple
    simp
  marks id := by
    show id ∈ bitmap.members bitmap.empty ↔ _
    rw [lawful.members_empty]
    simp
  known := by simp
  generation := rfl

theorem run (lawful : bitmap.Lawful) (arity : Nat) {edits : List TupleEdit}
    (hedits : edits.length < 2 ^ 64) :
    editAnswers edit (fresh bitmap arity) edits = editAnswers Extent.edit ∅ edits ∧
      (edited edit (fresh bitmap arity) edits).Agrees edits (edited Extent.edit ∅ edits)
        (changes Extent.edit ∅ edits) := by
  -- The log speaks of the whole history, so the last edit is split off and not the first one.
  induction edits using List.reverseRecOn with
  | nil => exact ⟨rfl, fresh_agrees lawful arity⟩
  | append_singleton edits e ih =>
    rw [List.length_append, List.length_singleton] at hedits
    obtain ⟨hanswers, hagrees⟩ := ih (by omega)
    rw [editAnswers_snoc, editAnswers_snoc, hanswers, edited_snoc, edited_snoc, changes_snoc]
    have hstep : (edit (edited edit (fresh bitmap arity) edits) e).1 =
          (Extent.edit (edited Extent.edit ∅ edits) e).1 ∧
        (edit (edited edit (fresh bitmap arity) edits) e).2.Agrees (edits ++ [e])
          (Extent.edit (edited Extent.edit ∅ edits) e).2
          (changes Extent.edit ∅ edits + change Extent.edit (edited Extent.edit ∅ edits) e) := by
      cases e with
      | insert u => exact hagrees.insert lawful hedits u
      | remove u => exact hagrees.remove lawful (by omega) u
    exact ⟨by rw [hstep.1], hstep.2⟩

/-- Fewer edits than there are machine words leave a store with the extent that they make. -/
theorem acts_as_set (lawful : bitmap.Lawful) (arity : Nat) {edits : List TupleEdit}
    (hedits : edits.length < 2 ^ 64) : ActsAsSet (editAnswers edit (fresh bitmap arity))
      (fun first => (edited edit (fresh bitmap arity) first).view) edits := by
  apply actsAsSet_of_shows (run lawful arity hedits).1
  intro first hfirst
  have hlength := hfirst.length_le
  have hfew : first.length < 2 ^ 64 := by omega
  exact (run lawful arity hfew).2.shows lawful hfew rfl rfl

end PredicateStore

/-- Tables refine the relations that their edits make, also where hash tables, a bitmap and machine
words hold them. Only edits that fit their arity are asked of a table, and fewer of them than there are
machine words. -/
theorem tables_act_as_relations {bitmap : Bitmap} (lawful : bitmap.Lawful) {arity width : Nat}
    {rowEdits : List RowEdit} (hfits : ∀ e ∈ rowEdits, e.Fits arity)
    (hrows : rowEdits.length < 2 ^ 64) {tupleEdits : List TupleEdit}
    (htuples : tupleEdits.length < 2 ^ 64) :
    ActsAsMap (editAnswers OperationTable.edit (.fresh arity))
        (fun first => (edited OperationTable.edit (.fresh arity) first).view) rowEdits ∧
      ActsAsMap (editAnswers OperationStore.edit (.fresh arity))
        (fun first => (edited OperationStore.edit (.fresh arity) first).view) rowEdits ∧
      ActsAsSet (editAnswers PredicateTable.edit (.fresh width))
        (fun first => (edited PredicateTable.edit (.fresh width) first).view) tupleEdits ∧
      ActsAsSet (editAnswers PredicateStore.edit (.fresh bitmap width))
        (fun first => (edited PredicateStore.edit (.fresh bitmap width) first).view) tupleEdits :=
  ⟨OperationTable.acts_as_map hfits, OperationStore.acts_as_map hfits hrows,
    PredicateTable.acts_as_set width tupleEdits, PredicateStore.acts_as_set lawful width htuples⟩

/-- A row that meets another result, and goes before that result comes again. -/
def conflictingRows : List RowEdit :=
  [.insert ⟨[0, 1], 2⟩, .insert ⟨[0, 1], 3⟩, .remove [0, 1], .remove [4], .insert ⟨[0, 1], 3⟩]

/-- A tuple that goes, goes again and comes back. -/
def returningTuples : List TupleEdit :=
  [.insert [0, 1], .insert [1, 2], .remove [0, 1], .remove [0, 1], .insert [0, 1]]

theorem tables_act_as_relations_returning :
    (∀ e ∈ conflictingRows, e.Fits 2) ∧
      ActsAsMap (editAnswers OperationTable.edit (.fresh 2))
        (fun first => (edited OperationTable.edit (.fresh 2) first).view) conflictingRows ∧
      ActsAsMap (editAnswers OperationStore.edit (.fresh 2))
        (fun first => (edited OperationStore.edit (.fresh 2) first).view) conflictingRows ∧
      ActsAsSet (editAnswers PredicateTable.edit (.fresh 2))
        (fun first => (edited PredicateTable.edit (.fresh 2) first).view) returningTuples ∧
      ActsAsSet (editAnswers PredicateStore.edit (.fresh .finite 2))
        (fun first => (edited PredicateStore.edit (.fresh .finite 2) first).view)
        returningTuples := by
  have hfits : ∀ e ∈ conflictingRows, e.Fits 2 := by simp [conflictingRows, RowEdit.Fits]
  have hrows : conflictingRows.length < 2 ^ 64 := by decide
  have htuples : returningTuples.length < 2 ^ 64 := by decide
  exact ⟨hfits, tables_act_as_relations Bitmap.finite_lawful hfits hrows htuples⟩

end PartialHorn
