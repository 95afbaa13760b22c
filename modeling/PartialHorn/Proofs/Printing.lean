import PartialHorn.Layout
import PartialHorn.Proofs.ForestEquality
import PartialHorn.Proofs.Reordering
import PartialHorn.Proofs.Safety
import PartialHorn.Proofs.Sorting

namespace PartialHorn

namespace Line

/-- How much further than the header a line is indented. -/
def depth : Line → Nat
  | header _ _ | dirty | heading _ => 0
  | element _ _ _ | row _ _ _ | tuple _ _ => 1

def render (style : Style) (level : Nat) (line : Line) : String :=
  "".pushn ' ' ((level + line.depth) * style.indent) ++ line.text ++ "\n"

end Line

/-- The row with some cells, of which the last one is the result. -/
def Row.ofCells (cells : List Nat) : Row :=
  ⟨cells.dropLast, cells.getLastD 0⟩

theorem Row.ofCells_cells (row : Row) : Row.ofCells row.cells = row := by
  simp [ofCells, cells]

namespace OperationTable

/-- The rows of a table in ascending order. -/
def ordered (table : OperationTable) : List Row :=
  table.sortedRows.map Row.ofCells

end OperationTable

namespace Structure

/-- An element is the least one that is equal to another one. -/
def LeastOf (s : Structure) (x r : Nat) : Prop :=
  s.Equal x r ∧ ∀ y, s.Equal x y → r ≤ y

/-- The lines of an element: one with its sort and the least element that is equal to it, or none if
that is another one and the style hides such elements. -/
def ElementLines (s : Structure) (style : Style) (x : Nat) (lines : List Line) : Prop :=
  ∃ sort rep, s.sorts[x]? = some sort ∧ s.LeastOf x rep ∧
    lines = if rep = x ∨ style.showMerged then [.element x (s.sortName sort) rep] else []

/-- The lines of an operation: its heading and one line for each row, where the arguments and the
result increase from line to line, or none if there are no rows. -/
def OperationLines (s : Structure) (entry : Operation × Nat) (lines : List Line) : Prop :=
  ∃ rows : List Row, (rows.map Row.cells).Pairwise (· < ·) ∧
    (∀ row, row ∈ rows ↔ s.HasRow entry.2 row) ∧
    lines = if rows = [] then [] else
      .heading entry.1.name :: rows.map fun row => .row entry.1.name row.args row.result

def PredicateLines (s : Structure) (entry : Predicate × Nat) (lines : List Line) : Prop :=
  ∃ tuples : List (List Nat), tuples.Pairwise (· < ·) ∧
    (∀ tuple, tuple ∈ tuples ↔ s.HasTuple entry.2 tuple) ∧
    lines = if tuples = [] then [] else
      .heading entry.1.name :: tuples.map fun tuple => .tuple entry.1.name tuple

/-- The lines of a structure: the header, the elements in order, the note if the structure is dirty,
then the operations and the predicates in the order of the signature. If elements that do not represent
their class are hidden, then as many elements have lines as there are classes. -/
def Prints (s : Structure) (style : Style) (lines : List Line) : Prop :=
  ∃ elements operations predicates : List (List Line),
    lines = .header s.size s.classCount :: elements.flatten ++ (if s.dirty then [.dirty] else []) ++
      operations.flatten ++ predicates.flatten ∧
    List.Forall₂ (s.ElementLines style) (List.range s.size) elements ∧
    (style.showMerged = false → elements.flatten.length = s.classCount) ∧
    List.Forall₂ s.OperationLines s.signature.operations.zipIdx operations ∧
    List.Forall₂ s.PredicateLines s.signature.predicates.zipIdx predicates

/-- Two structures with the same elements, classes and rows, in whatever order and after whatever
changes. -/
structure SameContents (s t : Structure) : Prop where
  signature : t.signature = s.signature
  sorts : t.sorts = s.sorts
  equal : ∀ x y, t.Equal x y ↔ s.Equal x y
  dirty : t.dirty = s.dirty
  rows : ∀ op row, t.HasRow op row ↔ s.HasRow op row
  tuples : ∀ pred tuple, t.HasTuple pred tuple ↔ s.HasTuple pred tuple

end Structure

theorem Structure.LeastOf.unique {s : Structure} {x r r' : Nat} (h : s.LeastOf x r)
    (h' : s.LeastOf x r') : r = r' :=
  Nat.le_antisymm (h.2 r' h'.1) (h'.2 r h.1)

namespace Printer

section Valid

variable {s : Structure} (valid : s.Valid) (style : Style)

include valid

end Valid

section Texts

variable {s : Structure} {style : Style} {lines : List Line}

end Texts

end Printer

namespace Structure

section Contents

variable {s t : Structure} {style : Style} {lines lines' : List Line}

theorem ElementLines.unique {x : Nat} (h : s.ElementLines style x lines)
    (h' : s.ElementLines style x lines') : lines = lines' := by
  obtain ⟨sort, rep, hsort, hrep, rfl⟩ := h
  obtain ⟨sort', rep', hsort', hrep', rfl⟩ := h'
  rw [Option.some.inj (hsort.symm.trans hsort'), hrep.unique hrep']

theorem OperationLines.unique {entry : Operation × Nat} (h : s.OperationLines entry lines)
    (h' : s.OperationLines entry lines') : lines = lines' := by
  obtain ⟨rows, hsorted, hrows, rfl⟩ := h
  obtain ⟨rows', hsorted', hrows', rfl⟩ := h'
  have hcells : rows.map Row.cells = rows'.map Row.cells := by
    refine hsorted.eq_of_mem_iff hsorted' fun cells => ?_
    simp only [List.mem_map, hrows, hrows']
  have he : rows = rows' := by
    have hmap := congrArg (List.map Row.ofCells) hcells
    have hself : Row.ofCells ∘ Row.cells = id := funext Row.ofCells_cells
    rwa [List.map_map, List.map_map, hself, List.map_id, List.map_id] at hmap
  rw [he]

theorem PredicateLines.unique {entry : Predicate × Nat} (h : s.PredicateLines entry lines)
    (h' : s.PredicateLines entry lines') : lines = lines' := by
  obtain ⟨tuples, hsorted, htuples, rfl⟩ := h
  obtain ⟨tuples', hsorted', htuples', rfl⟩ := h'
  have he : tuples = tuples' := hsorted.eq_of_mem_iff hsorted' fun tuple => by rw [htuples, htuples']
  rw [he]

/-- What a structure prints is determined. -/
theorem Prints.unique (h : s.Prints style lines) (h' : s.Prints style lines') : lines = lines' := by
  obtain ⟨elements, operations, predicates, rfl, helements, _, hoperations, hpredicates⟩ := h
  obtain ⟨elements', operations', predicates', rfl, helements', _, hoperations', hpredicates'⟩ := h'
  have he : elements = elements' :=
    forall₂_unique (fun _ _ _ hx hx' => hx.unique hx') helements helements'
  have ho : operations = operations' :=
    forall₂_unique (fun _ _ _ hentry hentry' => hentry.unique hentry') hoperations hoperations'
  have hp : predicates = predicates' :=
    forall₂_unique (fun _ _ _ hentry hentry' => hentry.unique hentry') hpredicates hpredicates'
  rw [he, ho, hp]

theorem SameContents.equality (same : s.SameContents t) (valid : s.Valid) (valid' : t.Valid) :
    t.equality = s.equality := by
  refine Equality.ext_of_same valid.partition valid'.partition ?_ ?_ (fun x y => (same.equal x y).mpr)
    fun x y => (same.equal x y).mp
  · rw [valid'.tracked, valid.tracked, size, same.sorts, size]
  · rw [valid'.drained, valid.drained]

end Contents

end Structure

end PartialHorn
