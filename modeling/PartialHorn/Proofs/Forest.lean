import Mathlib.Data.List.Range
import Mathlib.Logic.Relation

namespace PartialHorn

/-- The parents of the numbers below a bound, by position. A root is its own parent. -/
abbrev Forest := List Nat

namespace Forest

/-- From `x` one comes to `y` by going from a number to its parent. -/
def Above (f : Forest) : Nat → Nat → Prop :=
  Relation.ReflTransGen fun x p => f[x]? = some p

/-- The path that goes up from a number ends in a root. -/
inductive Leads (f : Forest) : Nat → Nat → Prop
  | root {r : Nat} (h : f[r]? = some r) : Leads f r r
  | step {x p r : Nat} (h : f[x]? = some p) (rest : Leads f p r) : Leads f x r

/-- The forest with all numbers up to `x`; the missing ones come in as roots. -/
def reserved (f : Forest) (x : Nat) : Forest :=
  f ++ List.range' f.length (x + 1 - f.length)

/-- The forest with the larger of two roots under the smaller one. -/
def linked (f : Forest) (a b : Nat) : Forest :=
  f.set (max a b) (min a b)

/-- No number is below its parent, so every path goes down to a root. -/
def Ordered (f : Forest) : Prop :=
  ∀ x p : Nat, f[x]? = some p → p ≤ x

/-- Paths have become shorter: every number has its old parent or one that was above it. -/
structure Shortens (f g : Forest) : Prop where
  length : g.length = f.length
  above : ∀ x p q : Nat, f[x]? = some p → g[x]? = some q → f.Above p q

section Leads

variable {f : Forest} {x r : Nat}

theorem Leads.isRoot (h : f.Leads x r) : f[r]? = some r := by
  induction h with
  | root h => exact h
  | step _ _ ih => exact ih

theorem Leads.parent (h : f.Leads x r) : ∃ p, f[x]? = some p ∧ f.Leads p r := by
  cases h with
  | root h => exact ⟨x, h, .root h⟩
  | step h rest => exact ⟨_, h, rest⟩

theorem Leads.unique (h : f.Leads x r) {r' : Nat} (h' : f.Leads x r') : r = r' := by
  induction h with
  | root h =>
    induction h' with
    | root => rfl
    | step hp _ ih =>
      cases Option.some.inj (h.symm.trans hp)
      exact ih h
  | step h _ ih =>
    obtain ⟨p, hp, rest⟩ := h'.parent
    cases Option.some.inj (h.symm.trans hp)
    exact ih rest

/-- A shorter path ends where the long one did. Shown for the whole path at once, since the new
parent of a number may be anywhere on it. -/
theorem Shortens.leads {g : Forest} (h : f.Shortens g) (hx : f.Leads x r) : g.Leads x r := by
  have hpath : ∀ y, f.Above x y → g.Leads y r := by
    have hparent : ∀ {y p : Nat}, f[y]? = some p → ∃ q, g[y]? = some q ∧ f.Above p q := by
      intro y p hp
      have hlt : y < g.length := h.length ▸ (List.getElem?_eq_some_iff.mp hp).1
      have hq : g[y]? = some g[y] := List.getElem?_eq_getElem hlt
      exact ⟨g[y], hq, h.above y p _ hp hq⟩
    induction hx with
    | @root r hr =>
      have hstays : ∀ y, f.Above r y → y = r := by
        intro y hy
        induction hy with
        | refl => rfl
        | tail _ hstep ih =>
          rw [ih, hr] at hstep
          exact (Option.some.inj hstep).symm
      intro y hy
      obtain rfl := hstays y hy
      obtain ⟨q, hq, habove⟩ := hparent hr
      obtain rfl := hstays q habove
      exact .root hq
    | step hp _ ih =>
      intro y hy
      rcases Relation.ReflTransGen.cases_head hy with rfl | ⟨p', hp', hrest⟩
      · obtain ⟨q, hq, habove⟩ := hparent hp
        exact .step hq (ih q habove)
      · cases Option.some.inj (hp.symm.trans hp')
        exact ih y hrest
  exact hpath x .refl

theorem Shortens.refl (f : Forest) : f.Shortens f where
  length := rfl
  above x p q hp hq := by
    cases Option.some.inj (hp.symm.trans hq)
    exact .refl

/-- Linking two roots moves what led to the larger one and nothing else. -/
theorem Leads.linked {a b : Nat} (ha : f[a]? = some a) (hb : f[b]? = some b) (hne : a ≠ b)
    (h : f.Leads x r) : (f.linked a b).Leads x (if r = max a b then min a b else r) := by
  have hmax : f[max a b]? = some (max a b) := by
    rcases Nat.le_total a b with hab | hab
    · rwa [Nat.max_eq_right hab]
    · rwa [Nat.max_eq_left hab]
  have hmin : f[min a b]? = some (min a b) := by
    rcases Nat.le_total a b with hab | hab
    · rwa [Nat.min_eq_left hab]
    · rwa [Nat.min_eq_right hab]
  have hother : ∀ y, y ≠ max a b → (f.linked a b)[y]? = f[y]? := fun y hy =>
    List.getElem?_set_ne (Ne.symm hy)
  have hself : (f.linked a b)[max a b]? = some (min a b) :=
    List.getElem?_set_self (List.getElem?_eq_some_iff.mp hmax).1
  have hbelow : min a b ≠ max a b := by omega
  induction h with
  | @root r hr =>
    by_cases he : r = max a b
    · rw [if_pos he, he]
      exact .step hself (.root ((hother _ hbelow).trans hmin))
    · rw [if_neg he]
      exact .root ((hother r he).trans hr)
  | @step x p r hp _ ih =>
    by_cases he : x = max a b
    · rw [he, hmax] at hp
      cases Option.some.inj hp
      exact he ▸ ih
    · exact .step ((hother x he).trans hp) ih

theorem Leads.append (h : f.Leads x r) (g : Forest) : Leads (f ++ g) x r := by
  have hkeep : ∀ {y p : Nat}, f[y]? = some p → (f ++ g)[y]? = some p := fun hp =>
    (List.getElem?_append_left (List.getElem?_eq_some_iff.mp hp).1).trans hp
  induction h with
  | root h => exact .root (hkeep h)
  | step h _ ih => exact .step (hkeep h) ih

theorem reserved_of_lt (hx : x < f.length) : f.reserved x = f := by
  have hnone : x + 1 - f.length = 0 := by omega
  simp [reserved, hnone]

theorem reserved_length (f : Forest) : f.reserved f.length = f ++ [f.length] := by
  have hone : f.length + 1 - f.length = 1 := by omega
  simp [reserved, hone]

end Leads

section Shortens

variable {f g k : Forest}

theorem Shortens.above_of (h : f.Shortens g) {x y : Nat} (hxy : g.Above x y) : f.Above x y := by
  induction hxy with
  | refl => exact .refl
  | @tail y q _ hq ih =>
    have hlt : y < f.length := h.length ▸ (List.getElem?_eq_some_iff.mp hq).1
    have hp : f[y]? = some f[y] := List.getElem?_eq_getElem hlt
    have hup : f.Above y f[y] := .single hp
    exact ih.trans (hup.trans (h.above y _ q hp hq))

theorem Shortens.trans (h : f.Shortens g) (h' : g.Shortens k) : f.Shortens k where
  length := h'.length.trans h.length
  above x p r hp hr := by
    have hlt : x < g.length := h.length ▸ (List.getElem?_eq_some_iff.mp hp).1
    have hq : g[x]? = some g[x] := List.getElem?_eq_getElem hlt
    exact (h.above x p _ hp hq).trans (h.above_of (h'.above x _ r hq hr))

/-- A number may take any parent from the path above its old one. -/
theorem Shortens.set {x p q : Nat} (hp : f[x]? = some p) (hq : f.Above p q) :
    f.Shortens (f.set x q) where
  length := List.length_set
  above y p' q' hp' hq' := by
    by_cases he : x = y
    · subst he
      rw [List.getElem?_set_self (List.getElem?_eq_some_iff.mp hp).1] at hq'
      cases Option.some.inj (hp.symm.trans hp')
      cases hq'
      exact hq
    · rw [List.getElem?_set_ne he, hp'] at hq'
      cases hq'
      exact .refl

end Shortens

section Ordered

variable {f : Forest} (ordered : f.Ordered)

include ordered

theorem Ordered.above_le {x y : Nat} (h : f.Above x y) : y ≤ x := by
  induction h with
  | refl => exact Nat.le_refl x
  | @tail y p _ hp ih =>
    have := ordered y p hp
    omega

theorem Ordered.leads {x : Nat} (hx : x < f.length) : ∃ r, f.Leads x r := by
  induction x using Nat.strongRecOn with
  | _ x ih =>
    have hp : f[x]? = some f[x] := List.getElem?_eq_getElem hx
    have hle := ordered x _ hp
    by_cases he : f[x] = x
    · exact ⟨x, .root (by rw [hp, he])⟩
    · obtain ⟨r, hr⟩ := ih f[x] (by omega) (by omega)
      exact ⟨r, .step hp hr⟩

theorem Ordered.shortens {g : Forest} (h : f.Shortens g) : g.Ordered := by
  intro x q hq
  have hlt : x < f.length := h.length ▸ (List.getElem?_eq_some_iff.mp hq).1
  have hp : f[x]? = some f[x] := List.getElem?_eq_getElem hlt
  have hqp := ordered.above_le (h.above x _ q hp hq)
  have hpx := ordered x _ hp
  omega

theorem Ordered.linked (a b : Nat) : (f.linked a b).Ordered := by
  intro x p hp
  rw [Forest.linked, List.getElem?_set] at hp
  split at hp
  next he =>
    obtain ⟨_, hp⟩ := Option.ite_none_right_eq_some.mp hp
    cases hp
    omega
  next => exact ordered x p hp

theorem Ordered.reserved (n : Nat) : (f.reserved n).Ordered := by
  intro x p hp
  rw [Forest.reserved, List.getElem?_append] at hp
  split at hp
  next => exact ordered x p hp
  next hnot =>
    obtain ⟨hlt, he⟩ := List.getElem?_eq_some_iff.mp hp
    rw [List.getElem_range'] at he
    omega

end Ordered

end Forest

/-- A union-find over numbers, seen through its forest of parents. -/
structure UnionFind where
  State : Type
  fresh : State
  parents : State → Forest
  find : State → Nat → Nat × State
  findNaive : State → Nat → Nat
  union : State → Nat → Nat → State

/-- What can be relied on. A lookup reserves the numbers up to the one that is looked up, answers the
root at the end of its path, and may shorten paths on the way; the naive lookup changes nothing;
a union puts the larger of two roots under the smaller one, and may shorten paths too. -/
structure UnionFind.Lawful (uf : UnionFind) : Prop where
  fresh : uf.parents uf.fresh = []
  find_answers : ∀ u x r, ((uf.parents u).reserved x).Leads x r → (uf.find u x).1 = r
  find_shortens : ∀ u x r, ((uf.parents u).reserved x).Leads x r →
    ((uf.parents u).reserved x).Shortens (uf.parents (uf.find u x).2)
  findNaive_answers : ∀ u x r, (uf.parents u).Leads x r → uf.findNaive u x = r
  union_links : ∀ u a b, (uf.parents u)[a]? = some a → (uf.parents u)[b]? = some b → a ≠ b →
    ((uf.parents u).linked a b).Shortens (uf.parents (uf.union u a b))

namespace Forest

def parent (f : Forest) (x : Nat) : Nat :=
  (f[x]?).getD x

/-- Goes up from a number to its root. -/
def climb (f : Forest) : Nat → Nat → Nat
  | 0, x => x
  | steps + 1, x => if f.parent x = x then x else climb f steps (f.parent x)

/-- Goes up from a number to its root and leaves every second number of the path under its
grandparent. -/
def halve (f : Forest) : Nat → Nat → Nat × Forest
  | 0, x => (x, f)
  | steps + 1, x =>
    let grand := f.parent (f.parent x)
    if f.parent x = x then (x, f) else halve (f.set x grand) steps grand

section Ordered

variable {f : Forest} {x r steps : Nat}

theorem parent_eq {p : Nat} (h : f[x]? = some p) : f.parent x = p := by
  simp [parent, h]

/-- What a path that starts at a root leads to. -/
theorem Leads.eq_of_parent (h : f.Leads x r) (hx : f.parent x = x) : r = x := by
  obtain ⟨p, hp, _⟩ := h.parent
  have hroot : f[x]? = some x := by rw [hp, ← parent_eq hp, hx]
  exact h.unique (.root hroot)

variable (ordered : f.Ordered)

include ordered

theorem Ordered.parent_zero : f.parent 0 = 0 := by
  unfold parent
  cases h : f[0]? with
  | none => rfl
  | some p => exact Nat.le_zero.mp (ordered 0 p h)

theorem Ordered.parent_lt (h : f.Leads x r) (hx : f.parent x ≠ x) :
    f.Leads (f.parent x) r ∧ f.parent x < x := by
  obtain ⟨p, hp, rest⟩ := h.parent
  have hle := ordered x p hp
  have he := parent_eq hp
  rw [he] at hx ⊢
  exact ⟨rest, by omega⟩

theorem climb_eq (h : f.Leads x r) (hsteps : x ≤ steps) : f.climb steps x = r := by
  induction steps generalizing x with
  | zero =>
    obtain rfl : x = 0 := by omega
    exact (h.eq_of_parent ordered.parent_zero).symm
  | succ steps ih =>
    unfold climb
    split
    next he => exact (h.eq_of_parent he).symm
    next he =>
      obtain ⟨rest, hlt⟩ := ordered.parent_lt h he
      exact ih rest (by omega)

theorem halve_spec (h : f.Leads x r) (hsteps : x ≤ steps) :
    (f.halve steps x).1 = r ∧ f.Shortens (f.halve steps x).2 := by
  induction steps generalizing f x with
  | zero =>
    obtain rfl : x = 0 := by omega
    exact ⟨(h.eq_of_parent ordered.parent_zero).symm, .refl f⟩
  | succ steps ih =>
    unfold halve
    split
    next he => exact ⟨(h.eq_of_parent he).symm, .refl f⟩
    next he =>
      obtain ⟨rest, hlt⟩ := ordered.parent_lt h he
      obtain ⟨p, hp, _⟩ := h.parent
      obtain ⟨grand, hgrand, above⟩ := rest.parent
      have hle := ordered _ grand hgrand
      rw [parent_eq hgrand]
      have hshort : f.Shortens (f.set x grand) := by
        apply Shortens.set hp
        rw [parent_eq hp] at hgrand
        exact .single hgrand
      obtain ⟨hroot, hrest⟩ := ih (ordered.shortens hshort) (hshort.leads above) (by omega)
      exact ⟨hroot, hshort.trans hrest⟩

end Ordered

/-- A lookup halves the path of a number that is there. -/
theorem Ordered.halve {f : Forest} (ordered : f.Ordered) (x : Nat) :
    (((f.reserved x).halve x x).2).Ordered := by
  have hx : x < (f.reserved x).length := by
    simp only [Forest.reserved, List.length_append, List.length_range']
    omega
  obtain ⟨r, hr⟩ := (ordered.reserved x).leads hx
  exact (ordered.reserved x).shortens (halve_spec (ordered.reserved x) hr (Nat.le_refl x)).2

/-- The forests in which every path goes down. -/
abbrev OrderedForest :=
  { f : Forest // f.Ordered }

/-- A lookup by path halving. -/
def lookUp (f : OrderedForest) (x : Nat) : Nat × OrderedForest :=
  let found := (f.val.reserved x).halve x x
  (found.1, ⟨found.2, f.property.halve x⟩)

/-- A lookup of a root changes nothing. -/
theorem lookUp_root {f : OrderedForest} {x : Nat} (h : f.val[x]? = some x) :
    lookUp f x = (x, f) := by
  have hreserved : f.val.reserved x = f.val :=
    reserved_of_lt (List.getElem?_eq_some_iff.mp h).1
  have hstays : f.val.halve x x = (x, f.val) := by
    cases x with
    | zero => rfl
    | succ n => rw [Forest.halve, if_pos (parent_eq h)]
  have hfound : (f.val.reserved x).halve x x = (x, f.val) := by rw [hreserved, hstays]
  apply Prod.ext
  · show ((f.val.reserved x).halve x x).1 = x
    rw [hfound]
  · apply Subtype.ext
    show ((f.val.reserved x).halve x x).2 = f.val
    rw [hfound]

/-- Links the roots of two numbers. -/
def join (f : OrderedForest) (x y : Nat) : OrderedForest :=
  let (a, f) := lookUp f x
  let (b, f) := lookUp f y
  if a = b then f else ⟨f.val.linked a b, f.property.linked a b⟩

theorem join_roots {f : OrderedForest} {a b : Nat} (ha : f.val[a]? = some a)
    (hb : f.val[b]? = some b) (hne : a ≠ b) : (join f a b).val = f.val.linked a b := by
  simp only [join, lookUp_root ha, lookUp_root hb, if_neg hne]

end Forest

open Forest in
/-- The union-find that halves paths. -/
def UnionFind.halving : UnionFind where
  State := OrderedForest
  fresh := ⟨[], fun _ _ h => by simp at h⟩
  parents u := u.val
  find := lookUp
  findNaive u x := u.val.climb x x
  union := join

open Forest in
theorem UnionFind.halving_lawful : halving.Lawful where
  fresh := rfl
  find_answers u x r h := (halve_spec (u.property.reserved x) h (Nat.le_refl x)).1
  find_shortens u x r h := (halve_spec (u.property.reserved x) h (Nat.le_refl x)).2
  findNaive_answers u x r h := climb_eq u.property h (Nat.le_refl x)
  union_links u a b ha hb hne := by
    have hjoin : halving.parents (halving.union u a b) = u.val.linked a b := join_roots ha hb hne
    rw [hjoin]
    exact .refl _

end PartialHorn
