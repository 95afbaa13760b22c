import PartialHorn.Proofs.Drawing

namespace PartialHorn

namespace Structure

/-- The tables of a structure have the row or the tuple of an atom, over the representatives of the
values of its variables; the values of the two sides of an equality are equal. -/
def Lists (s : Structure) (v : Valuation Nat) : Atom → Prop
  | .op op args result => ∃ xs x, v.Reads args xs ∧ v result = some x ∧
      s.HasRow op ⟨xs.map s.equality.root, s.equality.root x⟩
  | .pred pred args => ∃ xs, v.Reads args xs ∧ s.HasTuple pred (xs.map s.equality.root)
  | .eq lhs rhs => ∃ x y, v lhs = some x ∧ v rhs = some y ∧ s.Equal x y

/-- In a structure that has been rebuilt what is true stands in the tables. -/
theorem Makes.lists {s : Structure} (valid : s.Valid) (clean : s.dirty = false) {v : Valuation Nat}
    {atom : Atom} (h : s.Makes v atom) : s.Lists v atom := by
  cases atom with
  | op op args result =>
    obtain ⟨xs, x, hargs, hresult, happ⟩ := h
    obtain ⟨_, _, hrow⟩ := (valid.applies_iff clean).mp happ
    exact ⟨xs, x, hargs, hresult, hrow⟩
  | pred pred args =>
    obtain ⟨xs, hargs, hrel⟩ := h
    obtain ⟨_, htuple⟩ := (valid.relates_iff clean).mp hrel
    exact ⟨xs, hargs, htuple⟩
  | eq lhs rhs => exact h

end Structure

open PartialHorn.Action in
/-- Firing the head of a rule establishes it: after a rebuild the tables have every atom of it, under
the binding extended by the results that it has introduced, whatever later atoms have merged. Firing
it again for the same binding then changes nothing, and without the rebuild it does no more than
rebuild. -/
theorem fire_establishes {sig : Signature} {s t : Structure} {rule : Rule} {b : Binding}
    (reachable : s.Reachable sig) (fitting : Fitting rule.head b)
    (fired : (fire rule b).Returns s () t) :
    (∃ larger, Drawn rule rule.head b s larger t ∧ larger.Extends b ∧
      (∀ v, larger.Binds v ↔ b.Binds v ∨ v ∈ rule.head.filterMap Atom.result?) ∧
      ∀ atom ∈ rule.head, t.renewed.Lists larger.value atom) ∧
    t.renewed.dirty = false ∧ (fire rule b).Returns t.renewed () t.renewed ∧
    ∃ u, (fire rule b).Returns t () u ∧ (u = t ∨ u = t.renewed) := by
  have valid := reachable.valid
  obtain ⟨larger, drawn⟩ := concludeAll_returns_iff.mp fired
  have valid' : t.Valid := (drawn.keeps valid).1
  have hvalid := Structure.renewed_valid valid'
  have clean := Structure.renewed_dirty valid'
  have grows := Structure.grows_renewed valid'
  obtain ⟨hext, hbinds⟩ := drawn.binds fitting
  have hlists : ∀ atom ∈ rule.head, t.renewed.Lists larger.value atom := fun atom hatom =>
    ((drawn.makes valid fitting atom hatom).mono grows (.refl _ _)).lists hvalid clean
  have hconcludes : t.Concludes rule.head b.value := concludeAll_returns valid fitting fired
  have hlast : t.renewed.renewed = t.renewed := (Structure.renewed_clean clean).2
  obtain ⟨u, hagain, hu⟩ := concludeAll_settled hvalid fitting (hconcludes.mono grows (.refl _ _))
  have hsame : u = t.renewed := hu.elim id fun he => he.trans hlast
  exact ⟨⟨larger, drawn, hext, hbinds, hlists⟩, clean, hsame ▸ hagain,
    concludeAll_settled valid' fitting hconcludes⟩

/-- A sort with an operation and a predicate. -/
def stirSignature : Signature where
  sorts := ["S"]
  operations := [⟨"f", [0], 0⟩]
  predicates := [⟨"P", [0]⟩]

/-- A head whose last atom makes equal the arguments of the first two, so that the values which these
have introduced become equal as well, and the tuple between them moves. -/
def stirRule : Rule where
  name := "stir"
  index := 0
  varCount := 4
  plan := []
  head := [.op 0 [0] 2, .op 0 [1] 3, .pred 0 [3], .eq 0 1]
  operationsRead := []
  predicatesRead := []
  sortsScanned := []

def stirStart : Structure :=
  (Structure.empty stirSignature).afterCalls [.add 0, .add 0]

/-- The two values that were created are one after the rebuild, and the tuple stands at it. -/
theorem fire_establishes_stir :
    let fired := (Action.fire stirRule [some 0, some 1, none, none] stirStart).after
    fired.dirty = true ∧ fired.renewed.size = 4 ∧ fired.renewed.classCount = 2 ∧
      fired.renewed.HasTuple 0 [2] ∧
      (Action.fire stirRule [some 0, some 1, none, none]).Returns fired.renewed () fired.renewed := by
  intro fired
  have reachable : stirStart.Reachable stirSignature := ⟨_, rfl⟩
  have fitting : Action.Fitting stirRule.head [some 0, some 1, none, none] := by
    unfold Action.Fitting
    decide
  have returned : (Action.fire stirRule [some 0, some 1, none, none]).Returns stirStart () fired :=
    ⟨rfl, rfl⟩
  obtain ⟨_, _, hagain, _⟩ := fire_establishes reachable fitting returned
  exact ⟨rfl, rfl, rfl, ⟨_, rfl, by decide⟩, hagain⟩

end PartialHorn
