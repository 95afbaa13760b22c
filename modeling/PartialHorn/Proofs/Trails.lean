import PartialHorn.Call
import PartialHorn.Proofs.Backtracking

namespace PartialHorn

/-- All the variables that a step looks at. -/
def Step.slots : Step → List Nat
  | .eq lhs rhs => [lhs, rhs]
  | step => step.vars

/-- Some pairs are those of a relation, each of them once and with a left side of its own. -/
structure Tabulates {α β : Type} (R : α → β → Prop) (pairs : List (α × β)) : Prop where
  once : (pairs.map Prod.fst).Nodup
  mem : ∀ a b, (a, b) ∈ pairs ↔ R a b

theorem Step.vars_subset_slots (step : Step) : step.vars ⊆ step.slots := by
  cases step with
  | eq lhs rhs => exact List.nil_subset _
  | _ => exact List.Subset.refl _

theorem Tabulates.congr {α β : Type} {R R' : α → β → Prop} {pairs : List (α × β)}
    (h : Tabulates R pairs) (same : ∀ a b, R a b ↔ R' a b) : Tabulates R' pairs :=
  ⟨h.once, fun a b => (h.mem a b).trans (same a b)⟩

/-- What a partial function makes of the members of a list is tabulated by their places. -/
theorem tabulates_places {α β : Type} (f : α → Option β) (xs : List α) :
    ∃ pairs : List (Nat × β),
      Tabulates (fun place b => ∃ x, xs[place]? = some x ∧ f x = some b) pairs ∧
        pairs.map Prod.snd = xs.filterMap f := by
  refine ⟨xs.zipIdx.filterMap fun entry => (f entry.1).map fun b => (entry.2, b), ⟨?_, ?_⟩, ?_⟩
  · have hplaces : xs.zipIdx.Pairwise fun entry entry' => entry.2 ≠ entry'.2 := by
      apply List.pairwise_map.mp
      rw [List.zipIdx_map_snd]
      exact List.nodup_range'
    apply List.pairwise_map.mpr
    apply List.pairwise_filterMap.mpr
    refine hplaces.imp fun hne p hp p' hp' => ?_
    obtain ⟨b, _, rfl⟩ := Option.map_eq_some_iff.mp hp
    obtain ⟨b', _, rfl⟩ := Option.map_eq_some_iff.mp hp'
    exact hne
  · intro place b
    simp only [List.mem_filterMap, Prod.exists, List.mk_mem_zipIdx_iff_getElem?,
      Option.map_eq_some_iff, Prod.mk.injEq]
    constructor
    · rintro ⟨x, i, hx, c, hc, rfl, rfl⟩
      exact ⟨x, hx, hc⟩
    · rintro ⟨x, hx, hb⟩
      exact ⟨x, place, hx, b, hb, rfl, rfl⟩
  · have hfirst : xs.filterMap f = xs.zipIdx.filterMap fun entry => f entry.1 := by
      conv => lhs; rw [← List.zipIdx_map_fst 0 xs, List.filterMap_map]
      rfl
    rw [hfirst, List.map_filterMap]
    apply List.filterMap_congr
    intro entry _
    rw [Option.map_map]
    exact Option.map_id'

/-- At most one way, which has the place 0. -/
theorem tabulates_option {β : Type} (o : Option β) : ∃ pairs : List (Nat × β),
    Tabulates (fun place b => place = 0 ∧ o = some b) pairs ∧ pairs.map Prod.snd = o.toList := by
  cases o with
  | none => exact ⟨[], ⟨by simp, by simp⟩, rfl⟩
  | some b => exact ⟨[(0, b)], ⟨by simp, by simp [eq_comm]⟩, rfl⟩

/-- Trails that begin with the ways of a step and go on from where each of them leads. -/
theorem tabulates_onward {β γ : Type} {T : β → List Nat → γ → Prop} {more : β → List γ}
    {ways : List (Nat × β)} (once : (ways.map Prod.fst).Nodup)
    (onward : ∀ b ∈ ways.map Prod.snd, ∃ trails, Tabulates (T b) trails ∧ trails.map Prod.snd = more b) :
    ∃ trails, Tabulates (fun trail c =>
        ∃ place b later, trail = place :: later ∧ (place, b) ∈ ways ∧ T b later c) trails ∧
      trails.map Prod.snd = (ways.map Prod.snd).flatMap more := by
  induction ways with
  | nil => exact ⟨[], ⟨by simp, by simp⟩, rfl⟩
  | cons way ways ih =>
    obtain ⟨place, b⟩ := way
    obtain ⟨hnew, honce⟩ := List.nodup_cons.mp once
    obtain ⟨first, hfirst, hmore⟩ := onward b List.mem_cons_self
    obtain ⟨others, hothers, hrest⟩ := ih honce fun c hc => onward c (List.mem_cons_of_mem b hc)
    refine ⟨first.map (fun entry => (place :: entry.1, entry.2)) ++ others, ⟨?_, ?_⟩, ?_⟩
    · rw [List.map_append, List.map_map]
      refine List.Nodup.append ?_ hothers.once ?_
      · have hmap : first.map (Prod.fst ∘ fun entry : List Nat × γ => (place :: entry.1, entry.2)) =
            (first.map Prod.fst).map (List.cons place) := by
          rw [List.map_map]
          rfl
        rw [hmap]
        exact hfirst.once.map List.cons_injective
      · intro trail ha hb
        obtain ⟨⟨later, c⟩, _, rfl⟩ := List.mem_map.mp ha
        obtain ⟨⟨trail, c'⟩, hmem, he⟩ := List.mem_map.mp hb
        obtain ⟨place', b', later', rfl, hway, _⟩ := (hothers.mem trail c').mp hmem
        obtain ⟨rfl, _⟩ := List.cons.inj he
        exact hnew (List.mem_map.mpr ⟨(place', b'), hway, rfl⟩)
    · intro trail c
      simp only [List.mem_append, List.mem_map, hothers.mem, Prod.exists, hfirst.mem, List.mem_cons,
        Prod.mk.injEq]
      constructor
      · rintro (⟨later, c', hT, rfl, rfl⟩ | ⟨place', b', later, rfl, hway, hT⟩)
        · exact ⟨place, b, later, rfl, Or.inl ⟨rfl, rfl⟩, hT⟩
        · exact ⟨place', b', later, rfl, Or.inr hway, hT⟩
      · rintro ⟨place', b', later, rfl, ⟨rfl, rfl⟩ | hway, hT⟩
        · exact Or.inl ⟨later, c, hT, rfl, rfl⟩
        · exact Or.inr ⟨place', b', later, rfl, hway, hT⟩
    · rw [List.map_append, List.map_map, List.map_cons, List.flatMap_cons, hrest]
      exact congrArg (· ++ _) hmore

namespace Binding

/-- The least way to give values to variables: what a binding has stays, and no other variable gets a
value. -/
structure Takes (b : Binding) (pairs : List (Nat × Nat)) (m : Binding) : Prop where
  larger : m.Extends b
  values : ∀ var x, (var, x) ∈ pairs → m.value var = some x
  least : ∀ var, m.Binds var → b.Binds var ∨ ∃ x, (var, x) ∈ pairs

/-- A binding that has the values extends the least one that has them. -/
theorem Takes.extends {b c m : Binding} {pairs : List (Nat × Nat)} (h : b.Takes pairs m)
    (hext : c.Extends b) (hvalues : ∀ var x, (var, x) ∈ pairs → c.value var = some x) : c.Extends m := by
  refine ⟨hext.length.trans h.larger.length.symm, fun var x hx => ?_⟩
  rcases h.least var ⟨x, hx⟩ with ⟨y, hy⟩ | ⟨y, hy⟩
  · have hxy := (h.larger.value var y hy).symm.trans hx
    rw [← hxy]
    exact hext.value var y hy
  · have hxy := (h.values var y hy).symm.trans hx
    rw [← hxy]
    exact hvalues var y hy

theorem Extends.antisymm {b c : Binding} (h : b.Extends c) (h' : c.Extends b) : b = c := by
  apply h.eq_of_binds
  rintro var ⟨x, hx⟩
  exact ⟨x, h'.value var x hx⟩

theorem Takes.unique {b m m' : Binding} {pairs : List (Nat × Nat)} (h : b.Takes pairs m)
    (h' : b.Takes pairs m') : m = m' :=
  (h'.extends h.larger h.values).antisymm (h.extends h'.larger h'.values)

/-- Pairs stop with the shorter list. -/
theorem zip_take (vars xs : List Nat) :
    (vars.take xs.length).zip (xs.take vars.length) = vars.zip xs := by
  have hvars : vars.take xs.length = vars.take (min vars.length xs.length) := by
    rw [List.take_eq_take_min, Nat.min_comm]
  have hxs : xs.take vars.length = xs.take (min vars.length xs.length) := List.take_eq_take_min
  rw [hvars, hxs, ← List.zip_eq_zip_take_min]

theorem reads_take_iff {v : Valuation Nat} {vars xs : List Nat} :
    Valuation.Reads v (vars.take xs.length) (xs.take vars.length) ↔
      ∀ var x, (var, x) ∈ vars.zip xs → v var = some x := by
  unfold Valuation.Reads
  rw [List.forall₂_iff_zip, zip_take]
  simp [Nat.min_comm]

theorem mem_take_iff {var : Nat} {vars xs : List Nat} :
    var ∈ vars.take xs.length ↔ ∃ x, (var, x) ∈ vars.zip xs := by
  have hlen : (vars.take xs.length).length ≤ (xs.take vars.length).length := by
    simp [Nat.min_comm]
  rw [← List.map_fst_zip hlen, zip_take]
  simp

theorem unify?_take (b : Binding) (vars xs : List Nat) :
    b.unify? vars xs = b.unify? (vars.take xs.length) (xs.take vars.length) := by
  induction vars generalizing b xs with
  | nil => simp [unify?]
  | cons var vars ih =>
    cases xs with
    | nil => simp [unify?]
    | cons x xs =>
      simp only [List.length_cons, List.take_succ_cons, unify?]
      rw [← ih b xs, ← ih (b.assign var x) xs]

theorem unify?_takes {b m : Binding} {vars xs : List Nat} (hlt : ∀ var ∈ vars, var < b.length)
    (h : b.unify? vars xs = some m) : b.Takes (vars.zip xs) m := by
  rw [unify?_take] at h
  obtain ⟨hext, hreads, hbinds⟩ := unify?_sound (by simp [Nat.min_comm])
    (fun var hvar => hlt var (List.mem_of_mem_take hvar)) h
  refine ⟨hext, reads_take_iff.mp hreads, fun var hvar => ?_⟩
  exact ((hbinds var).mp hvar).imp_right mem_take_iff.mp

theorem unify?_found {b c : Binding} {vars xs : List Nat} (hext : c.Extends b)
    (hvalues : ∀ var x, (var, x) ∈ vars.zip xs → c.value var = some x) :
    ∃ m, b.unify? vars xs = some m ∧ c.Extends m := by
  rw [unify?_take]
  exact unify?_complete hext (reads_take_iff.mpr hvalues)

/-- Matching finds the least way to give the variables their values, if there is one. -/
theorem unify?_eq_some_iff {b m : Binding} {vars xs : List Nat} (hlt : ∀ var ∈ vars, var < b.length) :
    b.unify? vars xs = some m ↔ b.Takes (vars.zip xs) m := by
  refine ⟨unify?_takes hlt, fun h => ?_⟩
  obtain ⟨m', hm', _⟩ := unify?_found h.larger h.values
  rw [hm', (unify?_takes hlt hm').unique h]

section Row

variable {b m : Binding} {args xs : List Nat} {result x : Nat} (hargs : ∀ var ∈ args, var < b.length)
  (hresult : result < b.length)

include hargs hresult

theorem unify?_row_takes
    (h : ((b.unify? args xs).bind fun mid => mid.unify? [result] [x]) = some m) :
    b.Takes (args.zip xs ++ [(result, x)]) m := by
  obtain ⟨mid, hmid, hm⟩ := Option.bind_eq_some_iff.mp h
  have hfirst := unify?_takes hargs hmid
  have hone : ∀ var ∈ [result], var < mid.length := by
    intro var hvar
    rw [List.mem_singleton.mp hvar, hfirst.larger.length]
    exact hresult
  have hlast := unify?_takes hone hm
  refine ⟨hlast.larger.trans hfirst.larger, fun var y hy => ?_, fun var hvar => ?_⟩
  · rcases List.mem_append.mp hy with hy | hy
    · exact hlast.larger.value var y (hfirst.values var y hy)
    · exact hlast.values var y hy
  · rcases hlast.least var hvar with hvar | ⟨y, hy⟩
    · refine (hfirst.least var hvar).imp_right fun hnew => ?_
      obtain ⟨y, hy⟩ := hnew
      exact ⟨y, List.mem_append_left _ hy⟩
    · exact Or.inr ⟨y, List.mem_append_right _ hy⟩

/-- A row is matched by its arguments and then by its result. -/
theorem unify?_row_eq_some_iff :
    ((b.unify? args xs).bind fun mid => mid.unify? [result] [x]) = some m ↔
      b.Takes (args.zip xs ++ [(result, x)]) m := by
  refine ⟨unify?_row_takes hargs hresult, fun h => ?_⟩
  obtain ⟨mid, hmid, hext⟩ := unify?_found h.larger fun var y hy =>
    h.values var y (List.mem_append_left _ hy)
  have hlast : ∃ m', mid.unify? [result] [x] = some m' ∧ m.Extends m' :=
    unify?_found hext fun var y hy => h.values var y (List.mem_append_right (args.zip xs) hy)
  obtain ⟨m', hm', _⟩ := hlast
  have hfound : ((b.unify? args xs).bind fun mid => mid.unify? [result] [x]) = some m' :=
    Option.bind_eq_some_iff.mpr ⟨mid, hmid, hm'⟩
  rw [hfound, (unify?_row_takes hargs hresult hfound).unique h]

end Row

/-- A list of variables has no values as soon as one of them is unbound. -/
theorem values?_eq_none_iff {b : Binding} {vars : List Nat} :
    b.values? vars = none ↔ ∃ var ∈ vars, ¬b.Binds var := by
  constructor
  · intro h
    by_contra hall
    push Not at hall
    obtain ⟨xs, hxs⟩ := forall₂_exists hall
    simp [values?_eq_some_iff.mpr hxs] at h
  · rintro ⟨var, hvar, hunbound⟩
    cases h : b.values? vars with
    | none => rfl
    | some xs => exact absurd (binds_of_reads (values?_eq_some_iff.mp h) var hvar) hunbound

end Binding

namespace Structure

/-- The ways in which a step of a plan continues a binding. Where rows, tuples or elements are gone
through, each of them is a way of its own, told apart by its place in the listing. -/
inductive Continues (s : Structure) (domains : Domains) (b : Binding) : Step → Nat → Binding → Prop
  | lookup {op result x : Nat} {args key : List Nat} {m : Binding}
      (bound : Valuation.Reads b.value args key) (stored : s.result? op key = some x)
      (takes : b.Takes [(result, x)] m) : Continues s domains b (.op op args result) 0 m
  | row {op result place : Nat} {args : List Nat} {table : OperationTable} {row : Row} {m : Binding}
      (unbound : ∃ var ∈ args, ¬b.Binds var) (named : s.operations[op]? = some table)
      (listed : table.rows[place]? = some row)
      (takes : b.Takes (args.zip row.args ++ [(result, row.result)]) m) :
      Continues s domains b (.op op args result) place m
  | check {pred : Nat} {args tuple : List Nat} (bound : Valuation.Reads b.value args tuple)
      (stored : s.hasTuple pred tuple = true) : Continues s domains b (.pred pred args) 0 b
  | tuple {pred place : Nat} {args tuple : List Nat} {table : PredicateTable} {m : Binding}
      (unbound : ∃ var ∈ args, ¬b.Binds var) (named : s.predicates[pred]? = some table)
      (listed : table.rows[place]? = some tuple) (takes : b.Takes (args.zip tuple) m) :
      Continues s domains b (.pred pred args) place m
  | element {var sort place x : Nat} {m : Binding} (unbound : ¬b.Binds var)
      (listed : (domains.elements sort)[place]? = some x) (takes : b.Takes [(var, x)] m) :
      Continues s domains b (.scan var sort) place m
  | scanned {var sort : Nat} (bound : b.Binds var) : Continues s domains b (.scan var sort) 0 b
  | equal {lhs rhs x : Nat} (left : b.value lhs = some x) (right : b.value rhs = some x) :
      Continues s domains b (.eq lhs rhs) 0 b

/-- A trail follows a plan to its end by one way at each step. -/
inductive Trail (s : Structure) (domains : Domains) :
    List Step → Binding → List Nat → Binding → Prop
  | done (b : Binding) : Trail s domains [] b [] b
  | step {step : Step} {steps : List Step} {b mid m : Binding} {place : Nat} {later : List Nat}
      (first : s.Continues domains b step place mid) (rest : Trail s domains steps mid later m) :
      Trail s domains (step :: steps) b (place :: later) m

section Continues

variable {s : Structure} {domains : Domains} {b m : Binding} {place : Nat}

theorem Continues.extends {step : Step} (h : s.Continues domains b step place m) : m.Extends b := by
  cases h with
  | lookup bound stored takes => exact takes.larger
  | row unbound named listed takes => exact takes.larger
  | check bound stored => exact .refl b
  | tuple unbound named listed takes => exact takes.larger
  | element unbound listed takes => exact takes.larger
  | scanned bound => exact .refl b
  | equal left right => exact .refl b

theorem Trail.extends {steps : List Step} {trail : List Nat} (h : s.Trail domains steps b trail m) :
    m.Extends b := by
  induction h with
  | done b => exact .refl b
  | step first rest ih => exact ih.trans first.extends

theorem op_tabulates {op result : Nat} {args : List Nat} (hargs : ∀ var ∈ args, var < b.length)
    (hresult : result < b.length) : ∃ ways,
      Tabulates (s.Continues domains b (.op op args result)) ways ∧
        ways.map Prod.snd = s.extensions domains b (.op op args result) := by
  simp only [extensions]
  cases ht : s.operations[op]? with
  | none =>
    refine ⟨[], ⟨by simp, fun place m => ⟨fun h => by simp at h, fun h => ?_⟩⟩, rfl⟩
    cases h with
    | lookup bound stored takes => simp [result?, ht] at stored
    | row unbound named listed takes => simp [ht] at named
  | some table =>
    cases hkey : b.values? args with
    | some key =>
      have hbound := Binding.values?_eq_some_iff.mp hkey
      have hone : ∀ var ∈ [result], var < b.length := by
        intro var hvar
        rw [List.mem_singleton.mp hvar]
        exact hresult
      obtain ⟨ways, hways, hends⟩ :=
        tabulates_option ((table.get? key).bind fun x => b.unify? [result] [x])
      refine ⟨ways, hways.congr fun place m => ?_, hends⟩
      simp only [Option.bind_eq_some_iff, Binding.unify?_eq_some_iff hone]
      constructor
      · rintro ⟨rfl, x, hx, htakes⟩
        have hstored : s.result? op key = some x := by simpa [result?, ht] using hx
        exact .lookup hbound hstored htakes
      · intro h
        cases h with
        | @lookup _ _ x _ key' _ bound stored takes =>
          have hsame : key' = key :=
            Option.some.inj ((Binding.values?_eq_some_iff.mpr bound).symm.trans hkey)
          have hx : table.get? key = some x := by simpa [result?, ht, hsame] using stored
          exact ⟨rfl, x, hx, takes⟩
        | row unbound named listed takes =>
          simp [Binding.values?_eq_none_iff.mpr unbound] at hkey
    | none =>
      have hunbound := Binding.values?_eq_none_iff.mp hkey
      obtain ⟨ways, hways, hends⟩ := tabulates_places (fun row : Row =>
        (b.unify? args row.args).bind fun mid => mid.unify? [result] [row.result]) table.rows
      refine ⟨ways, hways.congr fun place m => ?_, hends⟩
      simp only [Binding.unify?_row_eq_some_iff hargs hresult]
      constructor
      · rintro ⟨row, hrow, htakes⟩
        exact .row hunbound ht hrow htakes
      · intro h
        cases h with
        | lookup bound stored takes =>
          simp [Binding.values?_eq_some_iff.mpr bound] at hkey
        | row unbound named listed takes =>
          cases Option.some.inj (named.symm.trans ht)
          exact ⟨_, listed, takes⟩

theorem pred_tabulates {pred : Nat} {args : List Nat} (hargs : ∀ var ∈ args, var < b.length) :
    ∃ ways, Tabulates (s.Continues domains b (.pred pred args)) ways ∧
      ways.map Prod.snd = s.extensions domains b (.pred pred args) := by
  simp only [extensions]
  cases ht : s.predicates[pred]? with
  | none =>
    refine ⟨[], ⟨by simp, fun place m => ⟨fun h => by simp at h, fun h => ?_⟩⟩, rfl⟩
    cases h with
    | check bound stored => simp [hasTuple, ht] at stored
    | tuple unbound named listed takes => simp [ht] at named
  | some table =>
    cases hkey : b.values? args with
    | some tuple =>
      have hbound := Binding.values?_eq_some_iff.mp hkey
      have hholds : s.hasTuple pred tuple = table.contains tuple := by simp [hasTuple, ht]
      obtain ⟨ways, hways, hends⟩ := tabulates_option (if table.contains tuple then some b else none)
      refine ⟨ways, hways.congr fun place m => ?_, ?_⟩
      · rw [Option.ite_none_right_eq_some]
        constructor
        · rintro ⟨rfl, hstored, hb⟩
          cases Option.some.inj hb
          exact .check hbound (hholds.trans hstored)
        · intro h
          cases h with
          | @check _ _ tuple' bound stored =>
            have hsame : tuple' = tuple :=
              Option.some.inj ((Binding.values?_eq_some_iff.mpr bound).symm.trans hkey)
            rw [hsame, hholds] at stored
            exact ⟨rfl, stored, rfl⟩
          | tuple unbound named listed takes =>
            simp [Binding.values?_eq_none_iff.mpr unbound] at hkey
      · rw [hends]
        by_cases hc : table.contains tuple = true
        · simp [hc]
        · simp [hc]
    | none =>
      have hunbound := Binding.values?_eq_none_iff.mp hkey
      obtain ⟨ways, hways, hends⟩ := tabulates_places (b.unify? args) table.rows
      refine ⟨ways, hways.congr fun place m => ?_, hends⟩
      simp only [Binding.unify?_eq_some_iff hargs]
      constructor
      · rintro ⟨tuple, htuple, htakes⟩
        exact .tuple hunbound ht htuple htakes
      · intro h
        cases h with
        | check bound stored =>
          simp [Binding.values?_eq_some_iff.mpr bound] at hkey
        | tuple unbound named listed takes =>
          cases Option.some.inj (named.symm.trans ht)
          exact ⟨_, listed, takes⟩

theorem scan_tabulates {var sort : Nat} (hlt : var < b.length) :
    ∃ ways, Tabulates (s.Continues domains b (.scan var sort)) ways ∧
      ways.map Prod.snd = s.extensions domains b (.scan var sort) := by
  simp only [extensions]
  cases hv : b.value var with
  | some y =>
    obtain ⟨ways, hways, hends⟩ := tabulates_option (some b)
    refine ⟨ways, hways.congr fun place m => ?_, hends⟩
    constructor
    · rintro ⟨rfl, hb⟩
      cases Option.some.inj hb
      exact .scanned ⟨y, hv⟩
    · intro h
      cases h with
      | element unbound listed takes => exact absurd ⟨y, hv⟩ unbound
      | scanned bound => exact ⟨rfl, rfl⟩
  | none =>
    have hunbound : ¬b.Binds var := by
      rintro ⟨y, hy⟩
      simp [hv] at hy
    have hone : ∀ v ∈ [var], v < b.length := by
      intro v hmem
      rw [List.mem_singleton.mp hmem]
      exact hlt
    have hassign : ∀ x, b.unify? [var] [x] = some (b.assign var x) := fun x => by simp [Binding.unify?, hv]
    obtain ⟨ways, hways, hends⟩ := tabulates_places (fun x => some (b.assign var x))
      (domains.elements sort)
    refine ⟨ways, hways.congr fun place m => ?_, ?_⟩
    · simp only [← hassign, Binding.unify?_eq_some_iff hone]
      constructor
      · rintro ⟨x, hx, htakes⟩
        exact .element hunbound hx htakes
      · intro h
        cases h with
        | element unbound listed takes => exact ⟨_, listed, takes⟩
        | scanned bound => exact absurd bound hunbound
    · rw [hends, List.filterMap_eq_map']

theorem eq_tabulates (lhs rhs : Nat) : ∃ ways,
    Tabulates (s.Continues domains b (.eq lhs rhs)) ways ∧
      ways.map Prod.snd = s.extensions domains b (.eq lhs rhs) := by
  simp only [extensions]
  obtain ⟨ways, hways, hends⟩ := tabulates_option
    (if (b.value lhs).isSome ∧ b.value lhs = b.value rhs then some b else none)
  refine ⟨ways, hways.congr fun place m => ?_, ?_⟩
  · rw [Option.ite_none_right_eq_some]
    constructor
    · rintro ⟨rfl, ⟨hsome, he⟩, hb⟩
      obtain ⟨x, hx⟩ := Option.isSome_iff_exists.mp hsome
      cases Option.some.inj hb
      exact .equal hx (he.symm.trans hx)
    · intro h
      cases h with
      | equal left right => exact ⟨rfl, ⟨by simp [left], left.trans right.symm⟩, rfl⟩
  · rw [hends]
    by_cases he : (b.value lhs).isSome ∧ b.value lhs = b.value rhs
    · simp only [if_pos he, Option.toList_some]
    · simp only [if_neg he, Option.toList_none]

theorem step_tabulates {step : Step} (room : ∀ var ∈ step.vars, var < b.length) :
    ∃ ways, Tabulates (s.Continues domains b step) ways ∧
      ways.map Prod.snd = s.extensions domains b step := by
  cases step with
  | op op args result =>
    exact op_tabulates (fun var hvar => room var (List.mem_append_left _ hvar))
      (room result (List.mem_append_right _ List.mem_cons_self))
  | pred pred args => exact pred_tabulates room
  | scan var sort => exact scan_tabulates (room var List.mem_cons_self)
  | eq lhs rhs => exact eq_tabulates lhs rhs

/-- The plan finds each binding as often as there are trails to it. -/
theorem plan_tabulates {steps : List Step} (room : ∀ step ∈ steps, ∀ var ∈ step.vars, var < b.length) :
    ∃ trails, Tabulates (s.Trail domains steps b) trails ∧
      trails.map Prod.snd = s.extensionsAlong domains steps b := by
  induction steps generalizing b with
  | nil =>
    refine ⟨[([], b)], ⟨by simp, fun trail m => ?_⟩, rfl⟩
    rw [List.mem_singleton, Prod.mk.injEq]
    constructor
    · rintro ⟨rfl, rfl⟩
      exact .done m
    · intro h
      cases h
      exact ⟨rfl, rfl⟩
  | cons step steps ih =>
    have hstep : ∃ ways, Tabulates (s.Continues domains b step) ways ∧
        ways.map Prod.snd = s.extensions domains b step :=
      step_tabulates (room step List.mem_cons_self)
    obtain ⟨ways, hways, hends⟩ := hstep
    have honward : ∀ mid ∈ ways.map Prod.snd, ∃ trails, Tabulates (s.Trail domains steps mid) trails ∧
        trails.map Prod.snd = s.extensionsAlong domains steps mid := by
      intro mid hmid
      obtain ⟨⟨place, mid⟩, hway, rfl⟩ := List.mem_map.mp hmid
      have hlen := ((hways.mem place mid).mp hway).extends.length
      apply ih
      intro other ho var hvar
      rw [hlen]
      exact room other (List.mem_cons_of_mem step ho) var hvar
    obtain ⟨trails, htrails, hall⟩ := tabulates_onward hways.once honward
    refine ⟨trails, htrails.congr fun trail m => ?_, hall.trans ?_⟩
    · simp only [hways.mem]
      constructor
      · rintro ⟨place, mid, later, rfl, hfirst, hrest⟩
        exact .step hfirst hrest
      · intro h
        cases h with
        | step first rest => exact ⟨_, _, _, rfl, first, rest⟩
    · rw [hends]
      rfl

end Continues

end Structure

open PartialHorn.Structure in
/-- The search in place finds the relational join of its plan, behind what was found before and
whatever the plan is: each binding at the end of a trail, as often as trails lead there, and in the
order of the listings. It leaves the binding from which it set out as it was. -/
theorem search_yields_join {s : Structure} {domains : Domains} {plan : List Step} {b : Binding}
    (room : ∀ step ∈ plan, ∀ var ∈ step.slots, var < b.length) (out : List Binding) :
    ∃ trails, Tabulates (s.Trail domains plan b) trails ∧
      (∀ trail m, (trail, m) ∈ trails → m.Extends b) ∧
      s.search domains plan ⟨b, out⟩ = ⟨b, out ++ trails.map Prod.snd⟩ ∧
      s.extensionsAlong domains plan b = trails.map Prod.snd := by
  have hvars : ∀ step ∈ plan, ∀ var ∈ step.vars, var < b.length := fun step hstep var hvar =>
    room step hstep var (step.vars_subset_slots hvar)
  have hplan : ∃ trails, Tabulates (s.Trail domains plan b) trails ∧
      trails.map Prod.snd = s.extensionsAlong domains plan b := plan_tabulates hvars
  obtain ⟨trails, htrails, hends⟩ := hplan
  refine ⟨trails, htrails, fun trail m hmem => ((htrails.mem trail m).mp hmem).extends, ?_, hends.symm⟩
  rw [hends]
  exact search_adds hvars b out rfl

/-- A sort with a map and a relation between two elements. -/
def edgeSignature : Signature where
  sorts := ["S"]
  operations := [⟨"f", [0], 0⟩]
  predicates := [⟨"P", [0, 0]⟩]

/-- The map is defined on the element 0, which is related to two others; a merge is pending. -/
def edgeStart : Structure :=
  (Structure.empty edgeSignature).afterCalls
    [.add 0, .add 0, .add 0, .define 0 [0], .assert 0 [0, 1], .assert 0 [1, 1], .assert 0 [0, 2],
      .merge 1 2]

/-- An atom that is too short for its relation, a scan of a variable that has a value already, and a
scan of another one. -/
def edgePlan : List Step :=
  [.pred 0 [0], .op 0 [0] 1, .scan 1 5, .scan 2 0, .eq 3 3]

/-- Three variables without values, and one that the plan does not touch. -/
def edgeBinding : Binding :=
  [none, none, none, some 7]

/-- Two tuples lead to one value of the first variable, so each binding is found twice. A plan with
an unknown symbol finds nothing. -/
theorem search_yields_join_edges :
    (∀ step ∈ edgePlan, ∀ var ∈ step.slots, var < edgeBinding.length) ∧
      (∃ trails, Tabulates (edgeStart.Trail [(0, [2, 4])] edgePlan edgeBinding) trails ∧
        edgeStart.search [(0, [2, 4])] edgePlan ⟨edgeBinding, [[some 9]]⟩ =
          ⟨edgeBinding, [some 9] :: trails.map Prod.snd⟩ ∧
        trails.map Prod.snd = [[some 0, some 3, some 2, some 7], [some 0, some 3, some 4, some 7],
          [some 0, some 3, some 2, some 7], [some 0, some 3, some 4, some 7]]) ∧
      edgeStart.search [] (.pred 1 [0] :: edgePlan) ⟨edgeBinding, []⟩ = ⟨edgeBinding, []⟩ := by
  have room : ∀ step ∈ edgePlan, ∀ var ∈ step.slots, var < edgeBinding.length := by decide
  have hfound : edgeStart.extensionsAlong [(0, [2, 4])] edgePlan edgeBinding =
      [[some 0, some 3, some 2, some 7], [some 0, some 3, some 4, some 7],
        [some 0, some 3, some 2, some 7], [some 0, some 3, some 4, some 7]] := by decide
  have hnothing : edgeStart.search [] (.pred 1 [0] :: edgePlan) ⟨edgeBinding, []⟩ =
      ⟨edgeBinding, []⟩ := by decide
  obtain ⟨trails, htrails, _, hsearch, hends⟩ := search_yields_join room [[some 9]]
  exact ⟨room, ⟨trails, htrails, hsearch, hends.symm.trans hfound⟩, hnothing⟩

end PartialHorn
