import Mathlib.Data.List.Induction
import Mathlib.Data.Set.Card
import PartialHorn.Proofs.Edits
import PartialHorn.Proofs.OperationRows

namespace PartialHorn

/-- A change of the graph of an operation. -/
inductive RowEdit
  | insert (row : Row)
  | remove (args : List Nat)
deriving DecidableEq

/-- Which edits the graph of an operation of some arity may get. Anything may be removed. -/
def RowEdit.Fits (arity : Nat) : RowEdit → Prop
  | .insert row => row.args.length = arity
  | .remove _ => True

/-- What can be read off the graph of an operation. -/
structure GraphView where
  get? : List Nat → Option Nat
  contains : List Nat → Bool
  size : Nat
  rows : List (List Nat)
  generation : Nat

/-- A partial map from lists of arguments to results. -/
abbrev PartialMap := List Nat → Option Nat

namespace PartialMap

def empty : PartialMap := fun _ => none

/-- Edits a map and answers the result that it had before for the arguments. A result that is there
stays. -/
def edit (map : PartialMap) : RowEdit → Option Nat × PartialMap
  | .insert row =>
    (map row.args,
      if (map row.args).isSome then map else Function.update map row.args (some row.result))
  | .remove args => (map args, Function.update map args none)

theorem edit_insert_none {map : PartialMap} {row : Row} (h : map row.args = none) :
    map.edit (.insert row) = (none, Function.update map row.args (some row.result)) := by
  simp [edit, h]

theorem edit_insert_some {map : PartialMap} {row : Row} {x : Nat} (h : map row.args = some x) :
    map.edit (.insert row) = (some x, map) := by
  simp [edit, h]

theorem update_ne {map : PartialMap} {args : List Nat} {value : Option Nat}
    (h : map args ≠ value) : Function.update map args value ≠ map := by
  intro he
  rw [← he, Function.update_self] at h
  exact h rfl

theorem change_insert_none {map : PartialMap} {row : Row} (h : map row.args = none) :
    change edit map (.insert row) = 1 := by
  apply change_of_ne
  rw [edit_insert_none h]
  apply update_ne
  simp [h]

theorem change_insert_some {map : PartialMap} {row : Row} {x : Nat} (h : map row.args = some x) :
    change edit map (.insert row) = 0 :=
  change_of_eq (congrArg Prod.snd (edit_insert_some h))

theorem change_remove_none {map : PartialMap} {args : List Nat} (h : map args = none) :
    change edit map (.remove args) = 0 :=
  change_of_eq (by simp [edit, ← h])

theorem change_remove_some {map : PartialMap} {args : List Nat} {x : Nat} (h : map args = some x) :
    change edit map (.remove args) = 1 := by
  apply change_of_ne
  apply update_ne
  simp [h]

/-- A partial map has results for arguments of one length only. -/
def Fits (map : PartialMap) (arity : Nat) : Prop :=
  ∀ args x, map args = some x → args.length = arity

theorem Fits.edit {map : PartialMap} {arity : Nat} (h : map.Fits arity) {e : RowEdit}
    (hfits : e.Fits arity) : (map.edit e).2.Fits arity := by
  intro args x hx
  cases e with
  | insert row =>
    cases hm : map row.args with
    | some y =>
      rw [edit_insert_some hm] at hx
      exact h args x hx
    | none =>
      simp only [edit_insert_none hm] at hx
      by_cases he : args = row.args
      · rw [he]
        exact hfits
      · rw [Function.update_of_ne he] at hx
        exact h args x hx
  | remove gone =>
    have hupdate : Function.update map gone none args = some x := hx
    by_cases he : args = gone
    · rw [he, Function.update_self] at hupdate
      exact nomatch hupdate
    · rw [Function.update_of_ne he] at hupdate
      exact h args x hupdate

theorem edited_fits {arity : Nat} {edits : List RowEdit} (hfits : ∀ e ∈ edits, e.Fits arity) :
    (edited edit .empty edits).Fits arity := by
  induction edits using List.reverseRecOn with
  | nil => exact fun _ _ hx => nomatch hx
  | append_singleton edits e ih =>
    rw [edited_snoc]
    have hold := ih fun e' he => hfits e' (List.mem_append_left [e] he)
    exact hold.edit (hfits e (List.mem_append_right edits List.mem_cons_self))

/-- Some rows make up a partial map. -/
structure ListedBy (map : PartialMap) (rows : List Row) : Prop where
  keyed : (rows.map Row.args).Nodup
  mem : ∀ row, row ∈ rows ↔ map row.args = some row.result

section ListedBy

variable {map : PartialMap} {rows : List Row} (h : map.ListedBy rows)

include h

theorem ListedBy.encard : Set.encard {args | map args ≠ none} = rows.length := by
  have hdomain : {args | map args ≠ none} = ((rows.map Row.args).toFinset : Set (List Nat)) := by
    ext args
    simp only [Set.mem_ofPred_eq, List.coe_toFinset, List.mem_map]
    constructor
    · intro hne
      obtain ⟨x, hx⟩ := Option.ne_none_iff_exists'.mp hne
      exact ⟨⟨args, x⟩, (h.mem ⟨args, x⟩).mpr hx, rfl⟩
    · rintro ⟨row, hrow, rfl⟩
      rw [(h.mem row).mp hrow]
      simp
  rw [hdomain, Set.encard_coe_eq_coe_finsetCard, List.toFinset_card_of_nodup h.keyed, List.length_map]

theorem ListedBy.cells_nodup : (rows.map Row.cells).Nodup := by
  have hargs : (rows.map Row.cells).map List.dropLast = rows.map Row.args := by
    rw [List.map_map]
    exact List.map_congr_left fun row _ => List.dropLast_concat
  apply List.Nodup.of_map List.dropLast
  rw [hargs]
  exact h.keyed

theorem ListedBy.mem_cells {cells : List Nat} : cells ∈ rows.map Row.cells ↔
    ∃ args x, cells = args ++ [x] ∧ map args = some x := by
  rw [List.mem_map]
  constructor
  · rintro ⟨row, hrow, rfl⟩
    exact ⟨row.args, row.result, rfl, (h.mem row).mp hrow⟩
  · rintro ⟨args, x, rfl, hx⟩
    exact ⟨⟨args, x⟩, (h.mem ⟨args, x⟩).mpr hx, rfl⟩

end ListedBy

/-- Whether a list of cells consists of so many arguments and their result. -/
def holds (map : PartialMap) (arity : Nat) (cells : List Nat) : Bool :=
  match cells.getLast? with
  | some result => cells.dropLast.length == arity && map cells.dropLast == some result
  | none => false

theorem Fits.holds_iff {map : PartialMap} {arity : Nat} (fits : map.Fits arity) {cells : List Nat} :
    map.holds arity cells = true ↔ ∃ args x, cells = args ++ [x] ∧ map args = some x := by
  unfold holds
  split
  next x hx =>
    have hcells : cells = cells.dropLast ++ [x] := (List.dropLast_append_getLast? x hx).symm
    rw [Bool.and_eq_true, beq_iff_eq, beq_iff_eq]
    constructor
    · rintro ⟨_, hget⟩
      exact ⟨cells.dropLast, x, hcells, hget⟩
    · rintro ⟨args, y, rfl, hget⟩
      rw [List.getLast?_concat] at hx
      cases Option.some.inj hx
      rw [List.dropLast_concat]
      exact ⟨fits args x hget, hget⟩
  next hx =>
    rw [List.getLast?_eq_none_iff.mp hx]
    simp

end PartialMap

/-- A view shows a partial map and the number of its changes. -/
structure GraphView.Shows (view : GraphView) (map : PartialMap) (count : Nat) : Prop where
  get? : ∀ args, view.get? args = map args
  contains : ∀ cells, view.contains cells = true ↔
    ∃ args x, cells = args ++ [x] ∧ map args = some x
  size : Set.encard {args | map args ≠ none} = view.size
  rows : view.rows.Nodup ∧ ∀ cells, cells ∈ view.rows ↔ ∃ args x, cells = args ++ [x] ∧ map args = some x
  generation : view.generation = count

/-- A table of rows behaves as the partial map that its edits make. Between two moments with equal
generations no row changed. -/
structure ActsAsMap (answers : List RowEdit → List (Option Nat)) (view : List RowEdit → GraphView)
    (edits : List RowEdit) : Prop where
  answers : answers edits = editAnswers PartialMap.edit .empty edits
  shows : (view edits).Shows (edited PartialMap.edit .empty edits) (changes PartialMap.edit .empty edits)
  unchanged : ∀ first between, first <+: between → between <+: edits →
    (view edits).generation = (view first).generation →
    ∀ args, (view between).get? args = (view first).get? args

/-- What a run shows at every moment settles what it owes. -/
theorem actsAsMap_of_shows {answers : List RowEdit → List (Option Nat)}
    {view : List RowEdit → GraphView} {edits : List RowEdit}
    (hanswers : answers edits = editAnswers PartialMap.edit .empty edits)
    (hshows : ∀ first, first <+: edits → (view first).Shows (edited PartialMap.edit .empty first)
      (changes PartialMap.edit .empty first)) : ActsAsMap answers view edits where
  answers := hanswers
  shows := hshows edits (List.prefix_refl edits)
  unchanged first between hfirst hbetween hgen args := by
    have hlast := hshows edits (List.prefix_refl edits)
    have hstart := hshows first (hfirst.trans hbetween)
    rw [hlast.generation, hstart.generation] at hgen
    rw [(hshows between hbetween).get?, hstart.get?, edited_of_changes_eq hfirst hbetween hgen]

/-- Rows that make up a partial map show it. -/
theorem PartialMap.ListedBy.shows {map : PartialMap} {rows : List Row} (h : map.ListedBy rows)
    {arity : Nat} (fits : map.Fits arity) (count : Nat) :
    GraphView.Shows ⟨map, map.holds arity, rows.length, rows.map Row.cells, count⟩ map count where
  get? _ := rfl
  contains _ := fits.holds_iff
  size := h.encard
  rows := ⟨h.cells_nodup, fun _ => h.mem_cells⟩
  generation := rfl

/-- A way to hold partial maps in rows and to count their changes. -/
structure RowStore (σ : Type) where
  edit : σ → RowEdit → Option Nat × σ
  get? : σ → List Nat → Option Nat
  rows : σ → List Row
  arity : σ → Nat
  Sound : σ → Prop
  Counts : σ → Nat → Prop

namespace RowStore

variable {σ : Type} {store : RowStore σ} {s : σ} {map : PartialMap} {count : Nat}

/-- What an edit makes of the content of a store, with the answer and the changes that it counts. -/
structure Becomes (store : RowStore σ) (s : σ) (e : RowEdit) (answer : Option Nat) (map : PartialMap)
    (changed : Nat) : Prop where
  answer : (store.edit s e).1 = answer
  sound : store.Sound (store.edit s e).2
  get? : ∀ args, store.get? (store.edit s e).2 args = map args
  counts : ∀ count, store.Counts s count → store.Counts (store.edit s e).2 (count + changed)

/-- What has to be known of a store: its rows list its content, a row that finds a result changes
nothing, and every other edit is made and counted. -/
structure Lawful (store : RowStore σ) : Prop where
  listed : ∀ s, store.Sound s → PartialMap.ListedBy (store.get? s) (store.rows s)
  arity : ∀ s e, store.arity (store.edit s e).2 = store.arity s
  insert_found : ∀ s row x, store.get? s row.args = some x → store.edit s (.insert row) = (some x, s)
  insert_new : ∀ s row, store.Sound s → store.get? s row.args = none →
    store.Becomes s (.insert row) none (Function.update (store.get? s) row.args (some row.result)) 1
  remove : ∀ s args, store.Sound s → store.Becomes s (.remove args) (store.get? s args)
    (Function.update (store.get? s) args none) (if (store.get? s args).isSome then 1 else 0)

/-- A store holds a partial map and has counted its changes. -/
structure Tracks (store : RowStore σ) (s : σ) (map : PartialMap) (count : Nat) : Prop where
  sound : store.Sound s
  get? : ∀ args, store.get? s args = map args
  counts : store.Counts s count

theorem Becomes.tracks {e : RowEdit} {answer : Option Nat} {changed : Nat}
    (h : store.Becomes s e answer map changed) (hcounts : store.Counts s count) :
    store.Tracks (store.edit s e).2 map (count + changed) :=
  ⟨h.sound, h.get?, h.counts count hcounts⟩

theorem Tracks.listed (lawful : store.Lawful) (h : store.Tracks s map count) :
    map.ListedBy (store.rows s) :=
  (funext h.get? : store.get? s = map) ▸ lawful.listed s h.sound

theorem Tracks.insert (lawful : store.Lawful) (h : store.Tracks s map count) (row : Row) :
    (store.edit s (.insert row)).1 = (map.edit (.insert row)).1 ∧
      store.Tracks (store.edit s (.insert row)).2 (map.edit (.insert row)).2
        (count + change PartialMap.edit map (.insert row)) := by
  obtain rfl : store.get? s = map := funext h.get?
  cases hm : store.get? s row.args with
  | some x =>
    rw [lawful.insert_found s row x hm, PartialMap.edit_insert_some hm,
      PartialMap.change_insert_some hm]
    exact ⟨rfl, h⟩
  | none =>
    have becomes := lawful.insert_new s row h.sound hm
    rw [PartialMap.edit_insert_none hm, PartialMap.change_insert_none hm]
    exact ⟨becomes.answer, becomes.tracks h.counts⟩

theorem Tracks.remove (lawful : store.Lawful) (h : store.Tracks s map count) (args : List Nat) :
    (store.edit s (.remove args)).1 = (map.edit (.remove args)).1 ∧
      store.Tracks (store.edit s (.remove args)).2 (map.edit (.remove args)).2
        (count + change PartialMap.edit map (.remove args)) := by
  obtain rfl : store.get? s = map := funext h.get?
  have becomes := lawful.remove s args h.sound
  refine ⟨becomes.answer, ?_⟩
  have tracks := becomes.tracks h.counts
  cases hm : store.get? s args with
  | some x =>
    rw [hm] at tracks
    rw [PartialMap.change_remove_some hm]
    exact tracks
  | none =>
    rw [hm] at tracks
    rw [PartialMap.change_remove_none hm]
    exact tracks

theorem edit_refines (lawful : store.Lawful) (arity : Nat) :
    Refines store.edit PartialMap.edit fun s map count =>
      store.arity s = arity ∧ store.Tracks s map count := by
  rintro s map count e ⟨harity, h⟩
  have hnext : (store.edit s e).1 = (map.edit e).1 ∧ store.Tracks (store.edit s e).2 (map.edit e).2
      (count + change PartialMap.edit map e) := by
    cases e with
    | insert row => exact h.insert lawful row
    | remove args => exact h.remove lawful args
  exact ⟨hnext.1, (lawful.arity s e).trans harity, hnext.2⟩

/-- What a store shows of its content. -/
def view (store : RowStore σ) (s : σ) (generation : Nat) : GraphView where
  get? := store.get? s
  contains := PartialMap.holds (store.get? s) (store.arity s)
  size := (store.rows s).length
  rows := (store.rows s).map Row.cells
  generation := generation

/-- A lawful store behaves as the partial map that its edits make. The count that it shows has to be
right only up to the number of edits. -/
theorem acts_as_map (lawful : store.Lawful) {start : σ} (hstart : store.Tracks start .empty 0)
    {edits : List RowEdit} (hfits : ∀ e ∈ edits, e.Fits (store.arity start)) (generation : σ → Nat)
    (hgeneration : ∀ s count, store.Counts s count → count ≤ edits.length → generation s = count) :
    ActsAsMap (editAnswers store.edit start)
      (fun first => store.view (edited store.edit start first)
        (generation (edited store.edit start first))) edits := by
  have refines := edit_refines lawful (store.arity start)
  apply actsAsMap_of_shows (refines.run ⟨rfl, hstart⟩ edits).1
  intro first hfirst
  obtain ⟨_, harity, tracks⟩ := refines.run ⟨rfl, hstart⟩ first
  rw [Nat.zero_add] at tracks
  have hfew : changes PartialMap.edit .empty first ≤ edits.length :=
    Nat.le_trans (changes_le first) hfirst.length_le
  have fits := PartialMap.edited_fits fun e he => hfits e (hfirst.subset he)
  have hshows := (tracks.listed lawful).shows fits (changes PartialMap.edit .empty first)
  show (store.view _ _).Shows _ _
  rw [view, funext tracks.get?, harity, hgeneration _ _ tracks.counts hfew]
  exact hshows

end RowStore

namespace OperationTable

def edit (table : OperationTable) : RowEdit → Option Nat × OperationTable
  | .insert row => table.insert row
  | .remove args => table.remove args

def view (table : OperationTable) : GraphView where
  get? := table.get?
  contains := table.contains
  size := table.size
  rows := table.rows.map Row.cells
  generation := table.generation

theorem get?_insert {table : OperationTable} (keyed : table.Keyed) {row : Row}
    (h : table.get? row.args = none) (args : List Nat) : (table.insert row).2.get? args =
      if args = row.args then some row.result else table.get? args := by
  have hmem : ∀ other, other ∈ (table.insert row).2.rows ↔ other ∈ table.rows ∨ other = row := by
    intro other
    rw [insert_of_not h]
    simp
  apply Option.ext
  intro x
  rw [get?_eq_some_iff (insert_keyed keyed row), hmem]
  by_cases he : args = row.args
  · have hold : ⟨args, x⟩ ∉ table.rows := fun hm => get?_eq_none_iff.mp h _ hm he
    rw [if_pos he, Option.some.injEq]
    constructor
    · rintro (hm | hrow)
      · exact absurd hm hold
      · exact (congrArg Row.result hrow).symm
    · rintro rfl
      rw [he]
      exact Or.inr rfl
  · rw [if_neg he, get?_eq_some_iff keyed]
    constructor
    · rintro (hm | hrow)
      · exact hm
      · exact absurd (congrArg Row.args hrow) he
    · exact Or.inl

theorem remove_keyed {table : OperationTable} (keyed : table.Keyed) (args : List Nat) :
    (table.remove args).2.Keyed := by
  rw [Keyed, remove_rows]
  exact keyed.sublist (List.Sublist.map _ List.filter_sublist)

theorem get?_remove {table : OperationTable} (keyed : table.Keyed) (args other : List Nat) :
    (table.remove args).2.get? other = if other = args then none else table.get? other := by
  apply Option.ext
  intro x
  rw [get?_eq_some_iff (remove_keyed keyed args), remove_rows, List.mem_filter]
  by_cases he : other = args
  · simp [he]
  · simp [he, get?_eq_some_iff keyed]

theorem rows_listed {table : OperationTable} (keyed : table.Keyed) :
    PartialMap.ListedBy table.get? table.rows where
  keyed := keyed
  mem _ := (get?_eq_some_iff keyed).symm

/-- The table of an operation as a store whose keys are distinct. -/
def store : RowStore OperationTable where
  edit := edit
  get? := get?
  rows := rows
  arity := arity
  Sound := Keyed
  Counts table count := table.generation = count

theorem store_lawful : store.Lawful where
  listed _ := rows_listed
  arity table e := by
    cases e with
    | insert row => exact (table.insert_precedes row).arity
    | remove args => exact (table.remove_precedes args).arity
  insert_found _ _ _ h := insert_of_get? h
  insert_new table row keyed h :=
    { answer := congrArg Prod.fst (insert_of_not h)
      sound := insert_keyed keyed row
      get? := fun args => by
        rw [Function.update_apply]
        exact get?_insert keyed h args
      counts := fun count hcount => by
        show (table.insert row).2.generation = count + 1
        rw [insert_of_not h, ← hcount] }
  remove table args keyed :=
    { answer := by
        show (table.remove args).1 = table.get? args
        cases hget : table.get? args with
        | none => simp [OperationTable.remove, hget]
        | some x => simp [OperationTable.remove, hget]
      sound := remove_keyed keyed args
      get? := fun other => by
        rw [Function.update_apply]
        exact get?_remove keyed args other
      counts := fun count hcount => by
        show (table.remove args).2.generation = count + if (table.get? args).isSome then 1 else 0
        cases hget : table.get? args with
        | none => simp [OperationTable.remove, hget, show table.generation = count from hcount]
        | some x => simp [OperationTable.remove, hget, show table.generation = count from hcount] }

/-- The table of an operation before its first edit. -/
def fresh (arity : Nat) : OperationTable where
  arity := arity

theorem fresh_tracks (arity : Nat) : store.Tracks (fresh arity) .empty 0 where
  sound := List.nodup_nil
  get? _ := rfl
  counts := rfl

/-- The rows of a table are those of the partial map that its edits make. -/
theorem acts_as_map {arity : Nat} {edits : List RowEdit} (hfits : ∀ e ∈ edits, e.Fits arity) :
    ActsAsMap (editAnswers edit (fresh arity)) (fun first => (edited edit (fresh arity) first).view)
      edits :=
  RowStore.acts_as_map store_lawful (fresh_tracks arity) hfits generation fun _ _ h _ => h

end OperationTable

end PartialHorn
