import Mathlib.Data.Finset.Card
import Mathlib.Data.List.Induction
import PartialHorn.Proofs.Edits
import PartialHorn.Proofs.PredicateLog

namespace PartialHorn

theorem getElem?_concat_eq_some_iff {α : Type} {xs : List α} {x y : α} {i : Nat} :
    (xs ++ [x])[i]? = some y ↔ xs[i]? = some y ∨ (i = xs.length ∧ y = x) := by
  by_cases hlt : i < xs.length
  · rw [List.getElem?_append_left hlt]
    constructor
    · exact Or.inl
    · rintro (hy | ⟨he, _⟩)
      · exact hy
      · omega
  · have hnone : xs[i]? = none := List.getElem?_eq_none (by omega)
    rw [List.getElem?_append_right (by omega), hnone]
    by_cases he : i = xs.length
    · simp [he, eq_comm]
    · have hpos : i - xs.length ≠ 0 := by omega
      simp [he, hpos]

/-- A change of the extent of a predicate. -/
inductive TupleEdit
  | insert (tuple : List Nat)
  | remove (tuple : List Nat)
deriving DecidableEq

/-- What can be read off the extent of a predicate. -/
structure ExtentView where
  contains : List Nat → Bool
  size : Nat
  rows : List (List Nat)
  tuple? : Nat → Option (List Nat)
  generation : Nat

/-- The tuples for which a predicate holds. -/
abbrev Extent := Finset (List Nat)

namespace Extent

/-- Edits an extent and answers whether the tuple has come in or gone out. -/
def edit (extent : Extent) : TupleEdit → Bool × Extent
  | .insert tuple => (decide (tuple ∉ extent), insert tuple extent)
  | .remove tuple => (decide (tuple ∈ extent), extent.erase tuple)

theorem change_insert_mem {extent : Extent} {tuple : List Nat} (h : tuple ∈ extent) :
    change edit extent (.insert tuple) = 0 :=
  change_of_eq (Finset.insert_eq_of_mem h)

theorem change_insert_not {extent : Extent} {tuple : List Nat} (h : tuple ∉ extent) :
    change edit extent (.insert tuple) = 1 := by
  apply change_of_ne
  intro he
  exact h (he ▸ Finset.mem_insert_self tuple extent)

theorem change_remove_mem {extent : Extent} {tuple : List Nat} (h : tuple ∈ extent) :
    change edit extent (.remove tuple) = 1 := by
  apply change_of_ne
  intro he
  rw [← he] at h
  exact Finset.notMem_erase tuple extent h

theorem change_remove_not {extent : Extent} {tuple : List Nat} (h : tuple ∉ extent) :
    change edit extent (.remove tuple) = 0 :=
  change_of_eq (Finset.erase_eq_of_notMem h)

end Extent

namespace TupleEdit

/-- The tuple that an edit inserts. -/
def inserted? : TupleEdit → Option (List Nat)
  | insert tuple => some tuple
  | remove _ => none

/-- The tuples that some edits insert. -/
def inserted (edits : List TupleEdit) : Finset (List Nat) :=
  (edits.filterMap inserted?).toFinset

theorem mem_inserted {edits : List TupleEdit} {tuple : List Nat} :
    tuple ∈ inserted edits ↔ insert tuple ∈ edits := by
  rw [inserted, List.mem_toFinset, List.mem_filterMap]
  constructor
  · rintro ⟨e, he, ht⟩
    cases e with
    | insert t => exact Option.some.inj ht ▸ he
    | remove t => exact nomatch ht
  · intro h
    exact ⟨_, h, rfl⟩

/-- A tuple is inserted for the first time when so many others have been inserted before it. -/
def FirstAt (edits : List TupleEdit) (tuple : List Nat) (place : Nat) : Prop :=
  ∃ before after, edits = before ++ insert tuple :: after ∧ insert tuple ∉ before ∧
    place = (inserted before).card

theorem firstAt_snoc {edits : List TupleEdit} {e : TupleEdit} {tuple : List Nat} {place : Nat} :
    FirstAt (edits ++ [e]) tuple place ↔ FirstAt edits tuple place ∨
      (e = insert tuple ∧ insert tuple ∉ edits ∧ place = (inserted edits).card) := by
  constructor
  · rintro ⟨before, after, hsplit, hnew, hplace⟩
    rcases List.eq_nil_or_concat after with rfl | ⟨init, last, rfl⟩
    · obtain ⟨hbefore, hlast⟩ := List.append_inj' hsplit rfl
      obtain rfl := hbefore
      exact Or.inr ⟨List.singleton_inj.mp hlast, hnew, hplace⟩
    · have hsplit' : edits ++ [e] = (before ++ insert tuple :: init) ++ [last] := by
        rw [hsplit]
        simp
      exact Or.inl ⟨before, init, (List.append_inj' hsplit' rfl).1, hnew, hplace⟩
  · rintro (⟨before, after, rfl, hnew, hplace⟩ | ⟨rfl, hnew, hplace⟩)
    · refine ⟨before, after ++ [e], ?_, hnew, hplace⟩
      simp
    · exact ⟨edits, [], rfl, hnew, hplace⟩

/-- A log holds the tuples that some edits insert, each at its first insertion. -/
structure Logged (edits : List TupleEdit) (log : List (List Nat)) : Prop where
  nodup : log.Nodup
  mem : ∀ tuple, tuple ∈ log ↔ insert tuple ∈ edits
  place : ∀ place tuple, log[place]? = some tuple ↔ FirstAt edits tuple place

namespace Logged

variable {edits : List TupleEdit} {log : List (List Nat)} {u : List Nat}

theorem nil : Logged [] [] where
  nodup := List.nodup_nil
  mem := by simp
  place place tuple := by simp [FirstAt]

theorem length (h : Logged edits log) : log.length = (inserted edits).card := by
  rw [← List.toFinset_card_of_nodup h.nodup]
  congr 1
  ext t
  rw [List.mem_toFinset, h.mem, mem_inserted]

theorem length_le (h : Logged edits log) : log.length ≤ edits.length := by
  rw [h.length, inserted]
  have hcard := List.toFinset_card_le (edits.filterMap inserted?)
  have hfilter := List.length_filterMap_le inserted? edits
  omega

theorem remove (h : Logged edits log) : Logged (edits ++ [.remove u]) log where
  nodup := h.nodup
  mem t := by
    rw [h.mem]
    simp
  place place t := by
    rw [h.place, firstAt_snoc]
    simp

theorem again (h : Logged edits log) (hu : u ∈ log) : Logged (edits ++ [.insert u]) log where
  nodup := h.nodup
  mem t := by
    rw [List.mem_append, List.mem_singleton, ← h.mem]
    constructor
    · exact Or.inl
    · rintro (ht | ht)
      · exact ht
      · exact TupleEdit.insert.inj ht ▸ hu
  place place t := by
    rw [h.place, firstAt_snoc]
    constructor
    · exact Or.inl
    · rintro (ht | ⟨he, hnew, _⟩)
      · exact ht
      · rw [← TupleEdit.insert.inj he] at hnew
        exact absurd ((h.mem u).mp hu) hnew

theorem push (h : Logged edits log) (hu : u ∉ log) :
    Logged (edits ++ [.insert u]) (log ++ [u]) where
  nodup := by
    rw [← List.concat_eq_append]
    exact List.Nodup.concat hu h.nodup
  mem t := by
    rw [List.mem_append, List.mem_append, h.mem]
    simp
  place place t := by
    rw [firstAt_snoc, ← h.place, ← h.length, ← h.mem, getElem?_concat_eq_some_iff]
    constructor
    · rintro (ht | ⟨hplace, rfl⟩)
      · exact Or.inl ht
      · exact Or.inr ⟨rfl, hu, hplace⟩
    · rintro (ht | ⟨he, _, hplace⟩)
      · exact Or.inl ht
      · exact Or.inr ⟨hplace, (TupleEdit.insert.inj he).symm⟩

theorem place_unique (h : Logged edits log) {a b : Nat} (ha : log[a]? = some u)
    (hb : log[b]? = some u) : a = b := by
  obtain ⟨_, ha⟩ := List.getElem?_eq_some_iff.mp ha
  obtain ⟨_, hb⟩ := List.getElem?_eq_some_iff.mp hb
  exact (h.nodup.getElem_inj_iff).mp (ha.trans hb.symm)

/-- Every inserted tuple stands in the log once. -/
theorem once (h : Logged edits log) (hu : insert u ∈ edits) :
    ∃! place : Nat, log[place]? = some u := by
  obtain ⟨place, hlt, hplace⟩ := List.getElem_of_mem ((h.mem u).mpr hu)
  have hplace := List.getElem?_eq_some_iff.mpr ⟨hlt, hplace⟩
  exact ⟨place, hplace, fun other hother => h.place_unique hother hplace⟩

/-- Tuples that are picked from the log in its order come in the order of their places. -/
theorem ordered (h : Logged edits log) {rows : List (List Nat)} (hrows : rows.Sublist log) :
    rows.Pairwise fun t u => ∀ a b : Nat, log[a]? = some t → log[b]? = some u → a < b := by
  apply List.Pairwise.sublist hrows
  apply List.pairwise_iff_getElem.mpr
  intro i j hi hj hlt a b ha hb
  have hai := h.place_unique ha (List.getElem?_eq_getElem hi)
  have hbj := h.place_unique hb (List.getElem?_eq_getElem hj)
  omega

end Logged

end TupleEdit

/-- A view shows the extent that some edits make, the log of what they insert, and the number of
their changes. The rows come in the order of the log. -/
structure ExtentView.Shows (view : ExtentView) (edits : List TupleEdit) : Prop where
  contains : ∀ tuple, view.contains tuple = true ↔ tuple ∈ edited Extent.edit ∅ edits
  size : view.size = (edited Extent.edit ∅ edits).card
  rows : view.rows.Nodup ∧ ∀ tuple, tuple ∈ view.rows ↔ tuple ∈ edited Extent.edit ∅ edits
  ordered : view.rows.Pairwise fun t u =>
    ∀ a b, view.tuple? a = some t → view.tuple? b = some u → a < b
  once : ∀ tuple, .insert tuple ∈ edits → ∃! place, view.tuple? place = some tuple
  logged : ∀ place tuple, view.tuple? place = some tuple ↔ TupleEdit.FirstAt edits tuple place
  generation : view.generation = changes Extent.edit ∅ edits

/-- A table of tuples behaves as the set that its edits make. An assigned place keeps its tuple, and
between two moments with equal generations the extent has not changed. -/
structure ActsAsSet (answers : List TupleEdit → List Bool) (view : List TupleEdit → ExtentView)
    (edits : List TupleEdit) : Prop where
  answers : answers edits = editAnswers Extent.edit ∅ edits
  shows : (view edits).Shows edits
  kept : ∀ first, first <+: edits → ∀ place tuple, (view first).tuple? place = some tuple →
    (view edits).tuple? place = some tuple
  unchanged : ∀ first between, first <+: between → between <+: edits →
    (view edits).generation = (view first).generation →
    ∀ tuple, (view between).contains tuple = (view first).contains tuple

theorem TupleEdit.FirstAt.append {edits : List TupleEdit} {tuple : List Nat} {place : Nat}
    (h : FirstAt edits tuple place) (later : List TupleEdit) :
    FirstAt (edits ++ later) tuple place := by
  obtain ⟨before, after, rfl, hnew, hplace⟩ := h
  refine ⟨before, after ++ later, ?_, hnew, hplace⟩
  simp

/-- What a run shows at every moment settles what it owes. -/
theorem actsAsSet_of_shows {answers : List TupleEdit → List Bool}
    {view : List TupleEdit → ExtentView} {edits : List TupleEdit}
    (hanswers : answers edits = editAnswers Extent.edit ∅ edits)
    (hshows : ∀ first, first <+: edits → (view first).Shows first) : ActsAsSet answers view edits where
  answers := hanswers
  shows := hshows edits (List.prefix_refl edits)
  kept first hfirst place tuple htuple := by
    rw [(hshows first hfirst).logged] at htuple
    rw [(hshows edits (List.prefix_refl edits)).logged]
    obtain ⟨later, rfl⟩ := hfirst
    exact htuple.append later
  unchanged first between hfirst hbetween hgen tuple := by
    have hlast := hshows edits (List.prefix_refl edits)
    have hstart := hshows first (hfirst.trans hbetween)
    rw [hlast.generation, hstart.generation] at hgen
    rw [Bool.eq_iff_iff, (hshows between hbetween).contains, hstart.contains,
      edited_of_changes_eq hfirst hbetween hgen]

namespace PredicateTable

def edit (table : PredicateTable) : TupleEdit → Bool × PredicateTable
  | .insert tuple => table.insert tuple
  | .remove tuple => table.remove tuple

def view (table : PredicateTable) : ExtentView where
  contains := table.contains
  size := table.size
  rows := table.rows
  tuple? := table.tuple?
  generation := table.generation

/-- The tuples of the log, whether they are in the extent or not. -/
def tuples (table : PredicateTable) : List (List Nat) :=
  table.log.map Entry.tuple

theorem tuple?_eq (table : PredicateTable) (place : Nat) : table.tuple? place = table.tuples[place]? := by
  rw [tuple?, tuples, List.getElem?_map]

theorem insert_tuples (table : PredicateTable) (u : List Nat) : (table.insert u).2.tuples =
    if u ∈ table.tuples then table.tuples else table.tuples ++ [u] := by
  have hlogged : table.logged u = true ↔ u ∈ table.tuples := logged_iff
  unfold insert
  split
  next hc =>
    have hmem : u ∈ table.tuples :=
      List.mem_map_of_mem (mem_rows.mp (contains_iff.mp hc))
    rw [if_pos hmem]
  next =>
    by_cases hl : table.logged u = true
    · rw [if_pos (hlogged.mp hl)]
      simp only [tuples, if_pos hl, mark_tuples]
    · rw [if_neg fun hmem => hl (hlogged.mpr hmem)]
      simp [tuples, hl]

theorem remove_tuples (table : PredicateTable) (u : List Nat) :
    (table.remove u).2.tuples = table.tuples := by
  unfold remove
  split
  next => exact mark_tuples table u false
  next => rfl

/-- A table holds an extent and has counted its changes. -/
structure Tracks (table : PredicateTable) (extent : Extent) (count : Nat) : Prop where
  unrepeated : table.Unrepeated
  rows : ∀ tuple, tuple ∈ table.rows ↔ tuple ∈ extent
  generation : table.generation = count

section Tracks

variable {table : PredicateTable} {extent : Extent} {count : Nat} (h : table.Tracks extent count)

include h

theorem Tracks.insert (u : List Nat) : (table.insert u).1 = (extent.edit (.insert u)).1 ∧
    (table.insert u).2.Tracks (extent.edit (.insert u)).2
      (count + change Extent.edit extent (.insert u)) := by
  have hrows : ∀ t, t ∈ (table.insert u).2.rows ↔ t ∈ (extent.edit (.insert u)).2 := by
    intro t
    show _ ↔ t ∈ Insert.insert u extent
    rw [mem_insert, h.rows, Finset.mem_insert]
  by_cases hu : u ∈ extent
  · have hsame := insert_of_mem ((h.rows u).mpr hu)
    rw [Extent.change_insert_mem hu]
    refine ⟨?_, insert_unrepeated h.unrepeated u, hrows, ?_⟩
    · simp [hsame, Extent.edit, hu]
    · rw [hsame]
      exact h.generation
  · have hnot : ¬table.contains u = true := fun hc => hu ((h.rows u).mp (contains_iff.mp hc))
    rw [Extent.change_insert_not hu]
    refine ⟨?_, insert_unrepeated h.unrepeated u, hrows, ?_⟩
    · simp [PredicateTable.insert, hnot, Extent.edit, hu]
    · simp [PredicateTable.insert, hnot, h.generation]

theorem Tracks.remove (u : List Nat) : (table.remove u).1 = (extent.edit (.remove u)).1 ∧
    (table.remove u).2.Tracks (extent.edit (.remove u)).2
      (count + change Extent.edit extent (.remove u)) := by
  have hcontains : table.contains u = true ↔ u ∈ extent := contains_iff.trans (h.rows u)
  have hrows : ∀ t, t ∈ (table.remove u).2.rows ↔ t ∈ (extent.edit (.remove u)).2 := by
    intro t
    show _ ↔ t ∈ extent.erase u
    rw [mem_remove, h.rows, Finset.mem_erase]
  by_cases hu : u ∈ extent
  · rw [Extent.change_remove_mem hu]
    refine ⟨?_, remove_unrepeated h.unrepeated u, hrows, ?_⟩
    · simp [PredicateTable.remove, hcontains, Extent.edit, hu]
    · simp [PredicateTable.remove, hcontains, hu, h.generation]
  · rw [Extent.change_remove_not hu]
    refine ⟨?_, remove_unrepeated h.unrepeated u, hrows, ?_⟩
    · simp [PredicateTable.remove, hcontains, Extent.edit, hu]
    · simp [PredicateTable.remove, hcontains, hu, h.generation]

end Tracks

theorem edit_refines : Refines edit Extent.edit Tracks := by
  intro table extent count e h
  cases e with
  | insert u => exact h.insert u
  | remove u => exact h.remove u

/-- The table of a predicate before its first edit. -/
def fresh (arity : Nat) : PredicateTable where
  arity := arity

theorem fresh_tracks (arity : Nat) : (fresh arity).Tracks ∅ 0 where
  unrepeated := List.nodup_nil
  rows := by simp [fresh, PredicateTable.rows]
  generation := rfl

theorem logged_edits (arity : Nat) (edits : List TupleEdit) :
    TupleEdit.Logged edits (edited edit (fresh arity) edits).tuples := by
  induction edits using List.reverseRecOn with
  | nil => exact .nil
  | append_singleton edits e ih =>
    rw [edited_snoc]
    cases e with
    | insert u =>
      show TupleEdit.Logged _ (insert _ u).2.tuples
      rw [insert_tuples]
      split
      next hu => exact ih.again hu
      next hu => exact ih.push hu
    | remove u =>
      show TupleEdit.Logged _ (remove _ u).2.tuples
      rw [remove_tuples]
      exact ih.remove

theorem view_shows (arity : Nat) (edits : List TupleEdit) :
    (edited edit (fresh arity) edits).view.Shows edits := by
  have hrun := (edit_refines.run (fresh_tracks arity) edits).2
  have hlog := logged_edits arity edits
  rw [Nat.zero_add] at hrun
  generalize edited edit (fresh arity) edits = table at hrun hlog
  have hnodup := rows_nodup hrun.unrepeated
  refine ⟨fun t => contains_iff.trans (hrun.rows t), ?_, ⟨hnodup, hrun.rows⟩, ?_, ?_, ?_,
    hrun.generation⟩
  · show table.rows.length = _
    rw [← List.toFinset_card_of_nodup hnodup]
    congr 1
    ext t
    rw [List.mem_toFinset, hrun.rows]
  · have hsub : table.rows.Sublist table.tuples := List.Sublist.map _ List.filter_sublist
    simp only [view, tuple?_eq]
    exact hlog.ordered hsub
  · intro t ht
    simp only [view, tuple?_eq]
    exact hlog.once ht
  · intro place t
    simp only [view, tuple?_eq]
    exact hlog.place place t

/-- The rows of a table are those of the set that its edits make. -/
theorem acts_as_set (arity : Nat) (edits : List TupleEdit) :
    ActsAsSet (editAnswers edit (fresh arity)) (fun first => (edited edit (fresh arity) first).view)
      edits := by
  apply actsAsSet_of_shows
  · exact (edit_refines.run (fresh_tracks arity) edits).1
  · exact fun first _ => view_shows arity first

end PredicateTable

end PartialHorn
