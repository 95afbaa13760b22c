import PartialHorn.Proofs.Solutions

namespace PartialHorn

namespace Binding

/-- Takes the values of some variables away. -/
def release (binding : Binding) (vars : List Nat) : Binding :=
  vars.foldl (fun binding var => List.set binding var none) binding

/-- Binds variables to values in place, position by position up to the shorter list, and notes which
of them had none before. At a conflict these lose their values again. -/
def occupy (binding : Binding) (taken : List Nat) :
    List Nat → List Nat → Option (List Nat) × Binding
  | var :: vars, x :: xs =>
    match binding.value var with
    | some y => if y = x then binding.occupy taken vars xs else (none, binding.release taken)
    | none => (binding.assign var x).occupy (taken ++ [var]) vars xs
  | _, _ => (some taken, binding)

theorem clear_value (b : Binding) (var other : Nat) :
    value (List.set b var none) other = if other = var then none else b.value other := by
  rw [value, value, List.getElem?_set]
  by_cases he : var = other
  · by_cases hlt : var < b.length
    · simp [he, he ▸ hlt]
    · simp [he, he ▸ hlt]
  · simp [he, Ne.symm he]

theorem release_length (b : Binding) (vars : List Nat) : (b.release vars).length = b.length := by
  unfold release
  induction vars generalizing b with
  | nil => rfl
  | cons var vars ih => rw [List.foldl_cons, ih, List.length_set]

theorem release_value (b : Binding) (vars : List Nat) (var : Nat) :
    (b.release vars).value var = if var ∈ vars then none else b.value var := by
  unfold release
  induction vars generalizing b with
  | nil => simp
  | cons v vars ih =>
    rw [List.foldl_cons, ih, clear_value]
    by_cases hv : var = v
    · simp [hv]
    · simp [hv]

/-- In which order variables lose their values does not matter. -/
theorem release_congr {b : Binding} {vars vars' : List Nat} (h : ∀ var, var ∈ vars ↔ var ∈ vars') :
    b.release vars = b.release vars' := by
  apply ext_value
  · rw [release_length, release_length]
  · intro var
    simp only [release_value, h]

theorem release_release (b : Binding) (vars vars' : List Nat) :
    (b.release vars).release vars' = b.release (vars ++ vars') := by
  unfold release
  rw [List.foldl_append]

/-- A variable that had no value goes back to having none. -/
theorem assign_release {b : Binding} {var : Nat} (hlt : var < b.length) (hnone : b.value var = none)
    (x : Nat) (taken : List Nat) : (b.assign var x).release (taken ++ [var]) = b.release taken := by
  apply ext_value
  · rw [release_length, release_length, assign_length]
  · intro other
    rw [release_value, release_value, assign_value hlt]
    by_cases he : other = var
    · simp [he, hnone]
    · simp [he]

theorem assign_assign (b : Binding) (var x y : Nat) :
    (b.assign var x).assign var y = b.assign var y := by
  unfold assign
  rw [List.set_set]

theorem assign_clear (b : Binding) (var x : Nat) :
    (b.assign var x).release [var] = b.release [var] := by
  show List.set (List.set b var (some x)) var none = List.set b var none
  rw [List.set_set]

theorem unify?_length {b m : Binding} {vars xs : List Nat} (h : b.unify? vars xs = some m) :
    m.length = b.length := by
  induction vars generalizing b xs with
  | nil => rw [Option.some.inj h]
  | cons var vars ih =>
    cases xs with
    | nil => rw [Option.some.inj h]
    | cons x xs =>
      rw [unify?] at h
      cases hv : b.value var with
      | some y =>
        simp only [hv, Option.ite_none_right_eq_some] at h
        exact ih h.2
      | none =>
        simp only [hv] at h
        rw [ih h, assign_length]

/-- At a conflict the binding is left as it was before its first value came in. -/
theorem occupy_of_none {b : Binding} {vars xs : List Nat} (hlt : ∀ var ∈ vars, var < b.length)
    (h : b.unify? vars xs = none) (taken : List Nat) :
    b.occupy taken vars xs = (none, b.release taken) := by
  induction vars generalizing b xs taken with
  | nil => simp [unify?] at h
  | cons var vars ih =>
    cases xs with
    | nil => simp [unify?] at h
    | cons x xs =>
      have hrest : ∀ v ∈ vars, v < b.length := fun v hm => hlt v (List.mem_cons_of_mem var hm)
      rw [unify?] at h
      rw [occupy]
      cases hv : b.value var with
      | some y =>
        simp only [hv] at h ⊢
        by_cases he : y = x
        · rw [if_pos he] at h ⊢
          exact ih hrest h taken
        · rw [if_neg he]
      | none =>
        simp only [hv] at h ⊢
        rw [ih (by rwa [assign_length]) h, assign_release (hlt var List.mem_cons_self) hv]

/-- Without a conflict the binding becomes the larger one, and the variables that were noted lead
back from it. -/
theorem occupy_of_some {b m : Binding} {vars xs : List Nat} (hlt : ∀ var ∈ vars, var < b.length)
    (h : b.unify? vars xs = some m) (taken : List Nat) :
    ∃ new, b.occupy taken vars xs = (some (taken ++ new), m) ∧ m.release new = b := by
  induction vars generalizing b xs taken with
  | nil =>
    cases Option.some.inj h
    exact ⟨[], by simp [occupy], rfl⟩
  | cons var vars ih =>
    cases xs with
    | nil =>
      cases Option.some.inj h
      exact ⟨[], by simp [occupy], rfl⟩
    | cons x xs =>
      have hrest : ∀ v ∈ vars, v < b.length := fun v hm => hlt v (List.mem_cons_of_mem var hm)
      rw [unify?] at h
      rw [occupy]
      cases hv : b.value var with
      | some y =>
        simp only [hv] at h ⊢
        obtain ⟨he, h⟩ := Option.ite_none_right_eq_some.mp h
        rw [if_pos he]
        exact ih hrest h taken
      | none =>
        simp only [hv] at h ⊢
        obtain ⟨new, hnew, hback⟩ := ih (by rwa [assign_length]) h (taken ++ [var])
        refine ⟨var :: new, ?_, ?_⟩
        · rw [hnew, List.append_assoc]
          rfl
        · have horder : m.release (var :: new) = m.release (new ++ [var]) :=
            release_congr fun v => by simp [or_comm]
          rw [horder, ← release_release, hback]
          exact assign_release (hlt var List.mem_cons_self) hv x []

end Binding

/-- A search at work: the binding that all its branches share, and what they have found so far. -/
structure Search where
  binding : Binding
  found : List Binding := []
deriving DecidableEq

namespace Search

def releasing (state : Search) (vars : List Nat) : Search :=
  { state with binding := state.binding.release vars }

/-- Goes on with values for some variables, unless they are in conflict, and takes them away when
it comes back. -/
def withValues (next : Search → Search) (vars xs : List Nat) (state : Search) : Search :=
  match state.binding.occupy [] vars xs with
  | (none, binding) => { state with binding }
  | (some taken, binding) => (next { state with binding }).releasing taken

/-- Goes on with a row of an operation. A conflict may come at the result, when the arguments have
their values already. -/
def withRow (next : Search → Search) (args : List Nat) (result : Nat) (state : Search) (row : Row) :
    Search :=
  match state.binding.occupy [] args row.args with
  | (none, binding) => { state with binding }
  | (some taken, binding) =>
    match binding.occupy [] [result] [row.result] with
    | (none, binding) => ({ state with binding } : Search).releasing taken
    | (some more, binding) => (next { state with binding }).releasing (taken ++ more)

/-- Goes on with each element in turn and takes the last one away. -/
def withElements (next : Search → Search) (var : Nat) (xs : List Nat) (state : Search) : Search :=
  (xs.foldl (fun state x => next { state with binding := state.binding.assign var x }) state).releasing
    [var]

end Search

/-- Follows a plan on one binding in place, where every branch undoes what it has bound, and puts
down the binding at each end of the plan. -/
def Structure.search (s : Structure) (domains : Domains) : List Step → Search → Search
  | [], state => { state with found := state.found ++ [state.binding] }
  | .op op args result :: steps, state =>
    match s.operations[op]? with
    | none => state
    | some table =>
      match state.binding.values? args with
      | some key =>
        match table.get? key with
        | none => state
        | some x => state.withValues (s.search domains steps) [result] [x]
      | none => table.rows.foldl (Search.withRow (s.search domains steps) args result) state
  | .pred pred args :: steps, state =>
    match s.predicates[pred]? with
    | none => state
    | some table =>
      match state.binding.values? args with
      | some tuple => if table.contains tuple then s.search domains steps state else state
      | none =>
        table.rows.foldl (fun state tuple => state.withValues (s.search domains steps) args tuple) state
  | .scan var sort :: steps, state =>
    match state.binding.value var with
    | some _ => s.search domains steps state
    | none => state.withElements (s.search domains steps) var (domains.elements sort)
  | .eq lhs rhs :: steps, state =>
    let binding := state.binding
    if (binding.value lhs).isSome ∧ binding.value lhs = binding.value rhs then
      s.search domains steps state
    else state

namespace Search

/-- A search puts down all that a function makes of a binding of some length, behind what has been
found before, and leaves the binding as it was. -/
def Adds (n : Nat) (next : Search → Search) (more : Binding → List Binding) : Prop :=
  ∀ b found, b.length = n → next ⟨b, found⟩ = ⟨b, found ++ more b⟩

section Adds

variable {n : Nat} {next : Search → Search} {more : Binding → List Binding} (adds : Adds n next more)
  {b : Binding} (hlen : b.length = n)

include adds hlen

theorem Adds.withValues {vars xs : List Nat} (hlt : ∀ var ∈ vars, var < n) (found : List Binding) :
    withValues next vars xs ⟨b, found⟩ = ⟨b, found ++ (b.unify? vars xs).toList.flatMap more⟩ := by
  rw [← hlen] at hlt
  cases h : b.unify? vars xs with
  | none =>
    have hstop := Binding.occupy_of_none hlt h []
    simp only [Search.withValues, hstop]
    simp [Binding.release]
  | some m =>
    obtain ⟨new, hnew, hback⟩ := Binding.occupy_of_some hlt h []
    have hnext := adds m found ((Binding.unify?_length h).trans hlen)
    simp only [Search.withValues, hnew, hnext, releasing, List.nil_append, hback]
    simp

theorem Adds.withRow {args : List Nat} {result : Nat} (hargs : ∀ var ∈ args, var < n)
    (hresult : result < n) (row : Row) (found : List Binding) :
    withRow next args result ⟨b, found⟩ row = ⟨b, found ++
      ((b.unify? args row.args).bind fun m => m.unify? [result] [row.result]).toList.flatMap more⟩ := by
  rw [← hlen] at hargs
  cases h : b.unify? args row.args with
  | none =>
    have hstop := Binding.occupy_of_none hargs h []
    simp only [Search.withRow, hstop]
    simp [Binding.release]
  | some mid =>
    obtain ⟨taken, htaken, hback⟩ := Binding.occupy_of_some hargs h []
    have hmid := Binding.unify?_length h
    have hone : ∀ var ∈ [result], var < mid.length := by
      intro var hvar
      rw [List.mem_singleton.mp hvar]
      omega
    cases h' : mid.unify? [result] [row.result] with
    | none =>
      have hstop := Binding.occupy_of_none hone h' []
      have hundone : (mid.release []).release taken = b := hback
      simp only [Search.withRow, htaken, hstop, releasing, List.nil_append, hundone]
      simp [h']
    | some m =>
      obtain ⟨new, hnew, hback'⟩ := Binding.occupy_of_some hone h' []
      have hnext := adds m found ((Binding.unify?_length h').trans (hmid.trans hlen))
      have hall : m.release (taken ++ new) = b := by
        rw [← hback, ← hback', Binding.release_release]
        exact Binding.release_congr fun var => by simp [or_comm]
      simp only [Search.withRow, htaken, hnew, hnext, releasing, List.nil_append, hall]
      simp [h']

/-- The last element is still in its place when the next one comes, so between two elements the
binding differs from the one at the start. -/
theorem Adds.elements (var : Nat) (xs : List Nat) (found : List Binding) :
    ∃ c : Binding, xs.foldl (fun state x =>
      next { state with binding := state.binding.assign var x }) ⟨b, found⟩ =
        ⟨c, found ++ xs.flatMap fun x => more (b.assign var x)⟩ ∧ c.release [var] = b.release [var] := by
  induction xs generalizing b found with
  | nil => exact ⟨b, by simp, rfl⟩
  | cons x xs ih =>
    have hsize : (b.assign var x).length = n := (Binding.assign_length b var x).trans hlen
    have hnext := adds (b.assign var x) found hsize
    obtain ⟨c, hfold, hc⟩ := ih hsize (found ++ more (b.assign var x))
    refine ⟨c, ?_, hc.trans (b.assign_clear var x)⟩
    rw [List.foldl_cons, hnext, hfold]
    simp only [Binding.assign_assign, List.flatMap_cons, List.append_assoc]

theorem Adds.withElements {var : Nat} (hnone : b.value var = none) (xs : List Nat)
    (found : List Binding) : withElements next var xs ⟨b, found⟩ =
      ⟨b, found ++ xs.flatMap fun x => more (b.assign var x)⟩ := by
  obtain ⟨c, hfold, hc⟩ := adds.elements hlen var xs found
  have hsame : b.release [var] = b := by
    apply Binding.ext_value (Binding.release_length b [var])
    intro other
    rw [Binding.release_value]
    by_cases he : other = var
    · simp [he, hnone]
    · simp [he]
  rw [Search.withElements, hfold, releasing, hc, hsame]

end Adds

/-- Branches that each put down what a function makes of a value do so one after the other. -/
theorem foldl_adds {α : Type} {step : Search → α → Search} {more : α → List Binding} {b : Binding}
    {xs : List α} (h : ∀ x ∈ xs, ∀ found, step ⟨b, found⟩ x = ⟨b, found ++ more x⟩)
    (found : List Binding) : xs.foldl step ⟨b, found⟩ = ⟨b, found ++ xs.flatMap more⟩ := by
  induction xs generalizing found with
  | nil => simp
  | cons x xs ih =>
    have hrest : ∀ y ∈ xs, ∀ found, step ⟨b, found⟩ y = ⟨b, found ++ more y⟩ := fun y hy =>
      h y (List.mem_cons_of_mem x hy)
    rw [List.foldl_cons, h x List.mem_cons_self, ih hrest, List.flatMap_cons, List.append_assoc]

end Search

namespace Structure

open Search

variable {s : Structure} {domains : Domains} {n : Nat}

/-- The search in place puts down what the plan makes of the binding when every branch works on a
binding of its own, and it undoes whatever it has bound. -/
theorem search_adds {steps : List Step} (room : ∀ step ∈ steps, ∀ var ∈ step.vars, var < n) :
    Adds n (s.search domains steps) (s.extensionsAlong domains steps) := by
  induction steps with
  | nil => exact fun b found _ => rfl
  | cons step steps ih =>
    have adds := ih fun other ho => room other (List.mem_cons_of_mem step ho)
    have hvars := room step List.mem_cons_self
    intro b found hlen
    cases step with
    | op op args result =>
      have hargs : ∀ var ∈ args, var < n := fun var hvar => hvars var (List.mem_append_left _ hvar)
      have hresult : result < n := hvars result (List.mem_append_right _ List.mem_cons_self)
      simp only [search, extensionsAlong, extensions]
      cases s.operations[op]? with
      | none => simp
      | some table =>
        cases b.values? args with
        | some key =>
          cases hget : table.get? key with
          | none => simp [hget]
          | some x =>
            have hone : ∀ var ∈ [result], var < n := by
              intro var hvar
              rw [List.mem_singleton.mp hvar]
              exact hresult
            simp only [hget, Option.bind_some]
            exact adds.withValues hlen hone found
        | none =>
          simp only [Binding.alongRows, List.filterMap_eq_flatMap_toList, List.flatMap_assoc]
          exact foldl_adds (fun row _ found => adds.withRow hlen hargs hresult row found) found
    | pred pred args =>
      simp only [search, extensionsAlong, extensions]
      cases s.predicates[pred]? with
      | none => simp
      | some table =>
        cases b.values? args with
        | some tuple =>
          by_cases hc : table.contains tuple = true
          · simp only [hc, if_true]
            rw [adds b found hlen]
            simp
          · simp [hc]
        | none =>
          simp only [List.filterMap_eq_flatMap_toList, List.flatMap_assoc]
          exact foldl_adds (fun tuple _ found => adds.withValues hlen hvars found) found
    | scan var sort =>
      simp only [search, extensionsAlong, extensions]
      cases hv : b.value var with
      | some y =>
        simp only [List.flatMap_singleton]
        exact adds b found hlen
      | none =>
        simp only [List.flatMap_map]
        exact adds.withElements hlen hv _ found
    | eq lhs rhs =>
      simp only [search, extensionsAlong, extensions]
      by_cases he : (b.value lhs).isSome ∧ b.value lhs = b.value rhs
      · simp only [if_pos he, List.flatMap_singleton]
        exact adds b found hlen
      · simp [if_neg he]

end Structure

end PartialHorn
