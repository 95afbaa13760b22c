import PartialHorn.Rebuild
import PartialHorn.Proofs.Partition

namespace PartialHorn

/-- A row with every id replaced by its representative. -/
def Equality.canonical (eq : Equality) (row : Row) : Row :=
  ⟨row.args.map eq.root, eq.root row.result⟩

/-- A partition that does not tell an element from its representative in another one gives a row and
its canonical form there one canonical form. -/
theorem Equality.canonical_canonical {eq eq' : Equality} {row : Row}
    (hargs : ∀ x ∈ row.args, eq'.root (eq.root x) = eq'.root x)
    (hresult : eq'.root (eq.root row.result) = eq'.root row.result) :
    eq'.canonical (eq.canonical row) = eq'.canonical row := by
  simp only [canonical, List.map_map, hresult, Row.mk.injEq, and_true]
  exact List.map_congr_left hargs

namespace OperationTable

def Keyed (table : OperationTable) : Prop :=
  (table.rows.map Row.args).Nodup

/-- What changes of rows leave of a table: its arity, and a generation that tells a change. -/
structure Precedes (a b : OperationTable) : Prop where
  arity : b.arity = a.arity
  generation : a.generation ≤ b.generation
  unchanged : b.generation = a.generation → b = a

namespace Precedes

theorem refl (a : OperationTable) : a.Precedes a :=
  ⟨rfl, Nat.le_refl _, fun _ => rfl⟩

theorem trans {a b c : OperationTable} (h : a.Precedes b) (h' : b.Precedes c) : a.Precedes c where
  arity := h'.arity.trans h.arity
  generation := Nat.le_trans h.generation h'.generation
  unchanged he := by
    have hle := h.generation
    have hle' := h'.generation
    have hb := h.unchanged (by omega)
    exact (h'.unchanged (by omega)).trans hb

end Precedes

theorem Keyed.eq_of_args {table : OperationTable} (keyed : table.Keyed) {row row' : Row}
    (h : row ∈ table.rows) (h' : row' ∈ table.rows) (he : row.args = row'.args) : row = row' :=
  List.inj_on_of_nodup_map keyed h h' he

theorem get?_eq_none_iff {table : OperationTable} {args : List Nat} :
    table.get? args = none ↔ ∀ row ∈ table.rows, row.args ≠ args := by
  simp [get?]

theorem mem_of_get? {table : OperationTable} {args : List Nat} {x : Nat}
    (h : table.get? args = some x) : ⟨args, x⟩ ∈ table.rows := by
  obtain ⟨row, hrow, rfl⟩ := Option.map_eq_some_iff.mp h
  have hargs : row.args = args := by simpa using List.find?_some hrow
  exact hargs ▸ List.mem_of_find?_eq_some hrow

/-- The view of a table as a partial function. -/
theorem get?_eq_some_iff {table : OperationTable} (keyed : table.Keyed) {args : List Nat}
    {x : Nat} : table.get? args = some x ↔ ⟨args, x⟩ ∈ table.rows := by
  refine ⟨mem_of_get?, fun h => ?_⟩
  cases hg : table.get? args with
  | none => exact absurd rfl (get?_eq_none_iff.mp hg _ h)
  | some y =>
    have he := keyed.eq_of_args h (mem_of_get? hg) rfl
    rw [(Row.mk.inj he).2]

theorem remove_rows (table : OperationTable) (args : List Nat) :
    (table.remove args).2.rows = table.rows.filter fun row => row.args != args := by
  unfold remove
  split
  next => rfl
  next hg =>
    refine (List.filter_eq_self.mpr fun row hrow => ?_).symm
    simpa using get?_eq_none_iff.mp hg row hrow

theorem remove_precedes (table : OperationTable) (args : List Nat) :
    table.Precedes (table.remove args).2 := by
  unfold remove
  split
  next => exact ⟨rfl, Nat.le_succ _, fun h => absurd h (Nat.succ_ne_self _)⟩
  next => exact .refl table

theorem insert_of_get? {table : OperationTable} {row : Row} {x : Nat}
    (h : table.get? row.args = some x) : table.insert row = (some x, table) := by
  simp [insert, h]

theorem insert_of_not {table : OperationTable} {row : Row} (h : table.get? row.args = none) :
    table.insert row =
      (none, { table with rows := table.rows ++ [row], generation := table.generation + 1 }) := by
  simp [insert, h]

theorem insert_precedes (table : OperationTable) (row : Row) :
    table.Precedes (table.insert row).2 := by
  cases hg : table.get? row.args with
  | none =>
    rw [insert_of_not hg]
    exact ⟨rfl, Nat.le_succ _, fun h => absurd h (Nat.succ_ne_self _)⟩
  | some x =>
    rw [insert_of_get? hg]
    exact .refl table

theorem insert_keyed {table : OperationTable} (keyed : table.Keyed) (row : Row) :
    (table.insert row).2.Keyed := by
  cases hg : table.get? row.args with
  | none =>
    rw [insert_of_not hg, Keyed, List.map_append]
    refine List.Nodup.append keyed (List.nodup_singleton _) ?_
    intro args hargs hrow
    obtain ⟨old, hold, rfl⟩ := List.mem_map.mp hargs
    rw [List.map_singleton, List.mem_singleton] at hrow
    exact get?_eq_none_iff.mp hg old hold hrow
  | some x =>
    rw [insert_of_get? hg]
    exact keyed

theorem mem_insert {table : OperationTable} {row row' : Row} (h : row' ∈ table.rows) :
    row' ∈ (table.insert row).2.rows := by
  cases hg : table.get? row.args with
  | none =>
    rw [insert_of_not hg]
    exact List.mem_append_left _ h
  | some x => rwa [insert_of_get? hg]

theorem mem_insert_cases {table : OperationTable} {row row' : Row}
    (h : row' ∈ (table.insert row).2.rows) : row' ∈ table.rows ∨ row' = row := by
  cases hg : table.get? row.args with
  | none =>
    rw [insert_of_not hg] at h
    exact (List.mem_append.mp h).imp_right List.mem_singleton.mp
  | some x =>
    rw [insert_of_get? hg] at h
    exact Or.inl h

/-- An insertion adds one to the number of rows exactly when it adds one to the generation. -/
theorem insert_size (table : OperationTable) (row : Row) :
    table.size + (table.insert row).2.generation =
      (table.insert row).2.size + table.generation := by
  cases hg : table.get? row.args with
  | none =>
    rw [insert_of_not hg]
    simp only [size, List.length_append, List.length_singleton]
    omega
  | some x => rw [insert_of_get? hg]

theorem removeAll_rows (table : OperationTable) (rows : List Row) : (table.removeAll rows).rows =
    table.rows.filter fun row => rows.all fun old => row.args != old.args := by
  unfold removeAll
  induction rows generalizing table with
  | nil => simp
  | cons old rows ih =>
    rw [List.foldl_cons, ih, remove_rows, List.filter_filter]
    refine List.filter_congr fun row _ => ?_
    rw [List.all_cons, Bool.and_comm]

theorem removeAll_precedes (table : OperationTable) (rows : List Row) :
    table.Precedes (table.removeAll rows) := by
  unfold removeAll
  induction rows generalizing table with
  | nil => exact .refl table
  | cons old rows ih => exact (table.remove_precedes old.args).trans (ih _)

theorem removeAll_keyed {table : OperationTable} (keyed : table.Keyed) (rows : List Row) :
    (table.removeAll rows).Keyed := by
  rw [Keyed, removeAll_rows]
  exact keyed.sublist (List.Sublist.map _ List.filter_sublist)

/-- What a table and a list of equations owe to rows that were inserted in turn. -/
structure Inserted (op : Nat) (table : OperationTable) (rows : List Row) (table' : OperationTable)
    (equations : List Equation) : Prop where
  keyed : table'.Keyed
  precedes : table.Precedes table'
  size : table'.size ≤ table.size + rows.length
  kept : ∀ row ∈ table.rows, row ∈ table'.rows
  origin : ∀ row ∈ table'.rows, row ∈ table.rows ∨ row ∈ rows
  covered : ∀ row ∈ rows, ∃ row' ∈ table'.rows, row'.args = row.args ∧
    (row'.result = row.result ∨ ⟨row'.result, row.result, op⟩ ∈ equations)
  sides : ∀ e ∈ equations, ∃ row ∈ table'.rows, ∃ row' ∈ rows, row.args = row'.args ∧
    e = ⟨row.result, row'.result, op⟩

section Inserted

variable {op : Nat} {table table' : OperationTable} {row : Row} {rows : List Row}
  {equations : List Equation}

theorem Inserted.fresh (hg : table.get? row.args = none)
    (h : Inserted op (table.insert row).2 rows table' equations) :
    Inserted op table (row :: rows) table' equations where
  keyed := h.keyed
  precedes := (table.insert_precedes row).trans h.precedes
  size := by
    have hsize := h.size
    have hone : (table.insert row).2.size = table.size + 1 := by
      rw [insert_of_not hg, OperationTable.size, List.length_append]
      rfl
    rw [List.length_cons]
    omega
  kept old hold := by
    refine h.kept old ?_
    rw [insert_of_not hg]
    exact List.mem_append_left _ hold
  origin new hnew := by
    rcases h.origin new hnew with hold | hnew
    · exact (mem_insert_cases hold).imp_right fun he => List.mem_cons.mpr (Or.inl he)
    · exact Or.inr (List.mem_cons_of_mem row hnew)
  covered new hnew := by
    rcases List.mem_cons.mp hnew with rfl | hnew
    · refine ⟨new, h.kept new ?_, rfl, Or.inl rfl⟩
      rw [insert_of_not hg]
      exact List.mem_append_right _ List.mem_cons_self
    · exact h.covered new hnew
  sides e he := by
    obtain ⟨a, ha, b, hb, hab⟩ := h.sides e he
    exact ⟨a, ha, b, List.mem_cons_of_mem row hb, hab⟩

/-- The next row has arguments for which the table has a result. -/
theorem Inserted.found {x : Nat} (hg : table.get? row.args = some x)
    (h : Inserted op table rows table' equations) :
    Inserted op table (row :: rows) table'
      (if x = row.result then equations else ⟨x, row.result, op⟩ :: equations) := by
  have hx := h.kept _ (mem_of_get? hg)
  have hsub : ∀ e ∈ equations,
      e ∈ if x = row.result then equations else ⟨x, row.result, op⟩ :: equations := by
    intro e he
    split
    next => exact he
    next => exact List.mem_cons_of_mem _ he
  have hsides : ∀ e ∈ equations, ∃ a ∈ table'.rows, ∃ b ∈ row :: rows, a.args = b.args ∧
      e = ⟨a.result, b.result, op⟩ := by
    intro e he
    obtain ⟨a, ha, b, hb, hab⟩ := h.sides e he
    exact ⟨a, ha, b, List.mem_cons_of_mem row hb, hab⟩
  refine ⟨h.keyed, h.precedes, ?_, h.kept, fun new hnew => ?_, fun new hnew => ?_, fun e he => ?_⟩
  · have hsize := h.size
    rw [List.length_cons]
    omega
  · exact (h.origin new hnew).imp_right (List.mem_cons_of_mem row)
  · rcases List.mem_cons.mp hnew with rfl | hnew
    · refine ⟨_, hx, rfl, ?_⟩
      by_cases he : x = new.result
      · exact Or.inl he
      · rw [if_neg he]
        exact Or.inr List.mem_cons_self
    · obtain ⟨a, ha, hargs, hres⟩ := h.covered new hnew
      exact ⟨a, ha, hargs, hres.imp_right (hsub _)⟩
  · by_cases hres : x = row.result
    · rw [if_pos hres] at he
      exact hsides e he
    · rw [if_neg hres] at he
      rcases List.mem_cons.mp he with rfl | he
      · exact ⟨_, hx, row, List.mem_cons_self, rfl, rfl⟩
      · exact hsides e he

theorem insertAll_fresh (hg : table.get? row.args = none) :
    insertAll op table (row :: rows) = insertAll op (table.insert row).2 rows := by
  simp only [insertAll, insert_of_not hg]

theorem insertAll_found {x : Nat} (hg : table.get? row.args = some x) :
    insertAll op table (row :: rows) = ((insertAll op table rows).1,
      if x = row.result then (insertAll op table rows).2
      else ⟨x, row.result, op⟩ :: (insertAll op table rows).2) := by
  simp only [insertAll, insert_of_get? hg]
  split
  next => rfl
  next => rfl

theorem insertAll_inserted (op : Nat) (keyed : table.Keyed) (rows : List Row) :
    Inserted op table rows (insertAll op table rows).1 (insertAll op table rows).2 := by
  induction rows generalizing table with
  | nil =>
    exact ⟨keyed, .refl table, Nat.le_refl _, fun _ h => h, fun _ h => Or.inl h, by simp,
      by simp [insertAll]⟩
  | cons row rows ih =>
    cases hg : table.get? row.args with
    | none =>
      rw [insertAll_fresh hg]
      exact (ih (insert_keyed keyed row)).fresh hg
    | some x =>
      rw [insertAll_found hg]
      exact (ih keyed).found hg

end Inserted

/-- Every id in the table is tracked by the partition. -/
def Known (table : OperationTable) (eq : Equality) : Prop :=
  ∀ row ∈ table.rows, (∀ x ∈ row.args, x < eq.size) ∧ row.result < eq.size

/-- What a table owes to the one of which it is the canonical form, given the equations that were
queued. A row that met with another result has left one of them. -/
structure Refreshed (eq : Equality) (equations : List Equation) (table table' : OperationTable) :
    Prop where
  keyed : table'.Keyed
  precedes : table.Precedes table'
  size : table'.size ≤ table.size
  origin : ∀ row ∈ table'.rows, ∃ old ∈ table.rows, row = eq.canonical old
  covered : ∀ row ∈ table.rows, ∃ row' ∈ table'.rows, row'.args = row.args.map eq.root ∧
    (row'.result = eq.root row.result ∨
      ∃ e ∈ equations, e.lhs = row'.result ∧ e.rhs = eq.root row.result)

/-- Two rows of the table have one canonical list of arguments, and an equation relates their
canonical results. -/
def Collides (eq : Equality) (table : OperationTable) (e : Equation) : Prop :=
  ∃ row ∈ table.rows, ∃ row' ∈ table.rows, row.args.map eq.root = row'.args.map eq.root ∧
    e.lhs = eq.root row.result ∧ e.rhs = eq.root row'.result

theorem Refreshed.mono {eq : Equality} {es es' : List Equation} {table table' : OperationTable}
    (h : Refreshed eq es table table') (hsub : ∀ e ∈ es, e ∈ es') :
    Refreshed eq es' table table' := by
  refine ⟨h.keyed, h.precedes, h.size, h.origin, fun row hrow => ?_⟩
  obtain ⟨row', hrow', hargs, hres⟩ := h.covered row hrow
  refine ⟨row', hrow', hargs, hres.imp_right ?_⟩
  rintro ⟨e, he, hsides⟩
  exact ⟨e, hsub e he, hsides⟩

theorem canonicalRow_known {eq : Equality} {row : Row} (hargs : ∀ x ∈ row.args, x < eq.size)
    (hresult : row.result < eq.size) : canonicalRow eq.find row = .ok (eq.canonical row) := by
  have hr := Equality.find_eq_ok_iff.mpr (Equality.getElem?_root hresult)
  have ha : row.args.mapM eq.find = .ok (row.args.map eq.root) := Equality.findAll_known hargs
  simp only [canonicalRow, ha, hr]
  rfl

def stale (table : OperationTable) (eq : Equality) : List Row :=
  table.rows.filter fun row => decide (row ≠ eq.canonical row)

theorem staleRows_known {table : OperationTable} {eq : Equality} (known : table.Known eq) :
    staleRows eq.find table.rows = .ok ((table.stale eq).map fun row => (row, eq.canonical row)) := by
  have hm : table.rows.mapM (canonicalRow eq.find) = .ok (table.rows.map eq.canonical) :=
    mapM_eq_ok_iff.mpr (forall₂_map_right fun row hrow =>
      canonicalRow_known (known row hrow).1 (known row hrow).2)
  have hz : table.rows.zip (table.rows.map eq.canonical) =
      table.rows.map fun row => (row, eq.canonical row) := by
    generalize table.rows = rows
    induction rows with
    | nil => rfl
    | cons row rows ih => rw [List.map_cons, List.zip_cons_cons, ih, List.map_cons]
  simp only [staleRows, hm]
  refine congrArg Except.ok ?_
  rw [hz, List.filter_map]
  rfl

theorem refresh_known {table : OperationTable} {eq : Equality} (known : table.Known eq) (op : Nat) :
    table.refresh eq.find op = .ok
      (insertAll op (table.removeAll (table.stale eq)) ((table.stale eq).map eq.canonical)) := by
  simp only [refresh, staleRows_known known]
  refine congrArg Except.ok ?_
  rw [replaceRows, List.map_map, List.map_map]
  congr 2
  exact List.map_id _

theorem removeAll_stale_rows {table : OperationTable} (keyed : table.Keyed) (eq : Equality) :
    (table.removeAll (table.stale eq)).rows =
      table.rows.filter fun row => decide (row = eq.canonical row) := by
  rw [removeAll_rows]
  refine List.filter_congr fun row hrow => ?_
  rw [Bool.eq_iff_iff, List.all_eq_true, decide_eq_true_iff]
  constructor
  · intro h
    by_contra hs
    have hm : row ∈ table.stale eq := List.mem_filter.mpr ⟨hrow, decide_eq_true hs⟩
    simpa using h row hm
  · intro hc old hold
    obtain ⟨hold, hs⟩ := List.mem_filter.mp hold
    refine bne_iff_ne.mpr fun he => of_decide_eq_true hs ?_
    rw [← keyed.eq_of_args hrow hold he]
    exact hc

theorem mem_removeAll_stale {table : OperationTable} {eq : Equality} (keyed : table.Keyed)
    {row : Row} : row ∈ (table.removeAll (table.stale eq)).rows ↔
      row ∈ table.rows ∧ row = eq.canonical row := by
  rw [removeAll_stale_rows keyed, List.mem_filter, decide_eq_true_iff]

theorem refresh_refreshed {table : OperationTable} {eq : Equality} (keyed : table.Keyed)
    (known : table.Known eq) (op : Nat) :
    ∃ table' equations, table.refresh eq.find op = .ok (table', equations) ∧
      Refreshed eq equations table table' ∧ ∀ e ∈ equations, Collides eq table e := by
  have h := insertAll_inserted op (removeAll_keyed keyed (table.stale eq))
    ((table.stale eq).map eq.canonical)
  refine ⟨_, _, refresh_known known op, ?_⟩
  have horigin : ∀ row ∈ (insertAll op (table.removeAll (table.stale eq))
      ((table.stale eq).map eq.canonical)).1.rows, ∃ old ∈ table.rows, row = eq.canonical old := by
    intro row hrow
    rcases h.origin row hrow with hold | hnew
    · obtain ⟨hold, hc⟩ := (mem_removeAll_stale keyed).mp hold
      exact ⟨row, hold, hc⟩
    · obtain ⟨old, hold, rfl⟩ := List.mem_map.mp hnew
      exact ⟨old, (List.mem_filter.mp hold).1, rfl⟩
  refine ⟨⟨h.keyed, (removeAll_precedes table _).trans h.precedes, ?_, horigin, ?_⟩, ?_⟩
  · have hsize := h.size
    have hsplit := List.length_eq_length_filter_add (l := table.rows)
      fun row => decide (row = eq.canonical row)
    have hstale : (table.stale eq).length =
        (table.rows.filter fun row => !decide (row = eq.canonical row)).length :=
      congrArg List.length (List.filter_congr fun row _ => decide_not)
    rw [List.length_map, size, size, removeAll_stale_rows keyed] at hsize
    rw [size, size]
    omega
  · intro row hrow
    by_cases hc : row = eq.canonical row
    · refine ⟨row, h.kept row ((mem_removeAll_stale keyed).mpr ⟨hrow, hc⟩), ?_, Or.inl ?_⟩
      · exact congrArg Row.args hc
      · exact congrArg Row.result hc
    · have hs : row ∈ table.stale eq := List.mem_filter.mpr ⟨hrow, decide_eq_true hc⟩
      obtain ⟨row', hrow', hargs, hres⟩ := h.covered _ (List.mem_map_of_mem hs)
      exact ⟨row', hrow', hargs, hres.imp_right fun he => ⟨_, he, rfl, rfl⟩⟩
  · intro e he
    obtain ⟨row, hrow, row', hrow', hargs, rfl⟩ := h.sides e he
    obtain ⟨old, hold, rfl⟩ := horigin row hrow
    obtain ⟨old', hold', rfl⟩ := List.mem_map.mp hrow'
    exact ⟨old, hold, old', (List.mem_filter.mp hold').1, hargs, rfl, rfl⟩

theorem refreshFrom_refreshed {eq : Equality} {tables : List OperationTable}
    (keyed : ∀ table ∈ tables, table.Keyed) (known : ∀ table ∈ tables, table.Known eq) (op : Nat) :
    ∃ tables' equations, refreshFrom eq.find op tables = .ok (tables', equations) ∧
      List.Forall₂ (Refreshed eq equations) tables tables' ∧
      ∀ e ∈ equations, ∃ table ∈ tables, Collides eq table e := by
  induction tables generalizing op with
  | nil => exact ⟨[], [], rfl, .nil, by simp⟩
  | cons table tables ih =>
    obtain ⟨table', es, hone, hr, hc⟩ :=
      refresh_refreshed (keyed table (by simp)) (known table (by simp)) op
    obtain ⟨tables', rest, hall, hrs, hcs⟩ := ih
      (fun a ha => keyed a (List.mem_cons_of_mem table ha))
      (fun a ha => known a (List.mem_cons_of_mem table ha)) (op + 1)
    refine ⟨table' :: tables', es ++ rest, ?_, .cons ?_ (hrs.imp fun a b hab => ?_), ?_⟩
    · simp only [refreshFrom, hone, hall]
      rfl
    · exact hr.mono fun e he => List.mem_append_left rest he
    · exact hab.mono fun e he => List.mem_append_right es he
    · intro e he
      rcases List.mem_append.mp he with he | he
      · exact ⟨table, by simp, hc e he⟩
      · obtain ⟨a, ha, hac⟩ := hcs e he
        exact ⟨a, List.mem_cons_of_mem table ha, hac⟩

end OperationTable

end PartialHorn
